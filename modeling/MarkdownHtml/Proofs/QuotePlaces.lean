/-
# Where blocks come to stand in quotes

Blocks are pushed, and quotes are opened and closed as the depth is set, in any order. A quote
that closes is moved with all that it holds into the quote around it. What comes of a whole run
is said about the finished tree (`QuotePath.Places`): it holds the blocks in the order in which
they were pushed, each once, in as many quotes as the depth was then, and two blocks stand in one
quote of a level where the depth has not been below that level between them.

A quote is told by its address, the indices on the way to it from the top, which is settled as
soon as it is open: the numbers of blocks in the quotes around it (`QuotePath.address`). What is
done later leaves them alone, until one of these quotes closes; then the index at the end of
what is left counts one more, and all addresses from then on are behind the old one there
(`QuotePath.Passed`).

The depth is one less than the number of levels, and whoever takes it, puts a block into a level
or closes one does not ask whether there is a level. `QuotePath.Levels` has the same steps with
this checked and with loops that may run out, and always a result
(`QuotePath.Levels.run?_levels`).

Key definitions: `QuotePath.run`, `QuotePath.pushes`, `QuotePath.Arranged`, `QuotePath.Places`,
`QuotePath.Levels.run?`, `QuotePath.Stands`, `QuotePath.Passed`.
Key theorems: `QuotePath.Levels.run?_levels`, `QuotePath.stands_run`, `QuotePath.suffix_run`,
`QuotePath.passed_run_of_below`, `QuotePath.places_run`.
-/
import MarkdownHtml.Proofs.Bases

namespace MarkdownHtml
namespace QuotePath

/-! ### Runs and what comes of them -/

/-- What is done to a path. -/
inductive Step where
  | push (block : Block)
  | setDepth (depth : Nat)

/-- The depth that a step sets. -/
def Step.depth? : Step → Option Nat
  | .push _ => none
  | .setDepth depth => some depth

/-- Takes one step. -/
def step (p : QuotePath) : Step → QuotePath
  | .push block => p.push block
  | .setDepth depth => p.setDepth depth

/-- Takes steps in order. -/
def run (p : QuotePath) (steps : List Step) : QuotePath := steps.foldl step p

/-- The depth that was set last, 0 if none was. -/
def lastDepth (steps : List Step) : Nat := (steps.filterMap Step.depth?).getLastD 0

/-- The blocks that are pushed, each with the depth at that time. -/
def pushes (depth : Nat) : List Step → List (Nat × Block)
  | [] => []
  | .push block :: steps => (depth, block) :: pushes depth steps
  | .setDepth depth :: steps => pushes depth steps

/-- A block and the quotes it stands in, from the outermost on, each by its index among the blocks
that it stands with. -/
structure Place where
  quotes : List Nat
  block : Block

/-- `Arranged quotes index blocks places`: inside the quotes with these indices, from an index on,
stand the blocks of the places, in order, and quotes around them, and nothing else. -/
inductive Arranged : List Nat → Nat → List Block → List Place → Prop
  | nil (quotes : List Nat) (index : Nat) : Arranged quotes index [] []
  | block {quotes : List Nat} {index : Nat} (block : Block) {blocks : List Block}
      {places : List Place} : Arranged quotes (index + 1) blocks places →
      Arranged quotes index (block :: blocks) (⟨quotes, block⟩ :: places)
  | quote {quotes : List Nat} {index : Nat} {inside blocks : List Block}
      {places more : List Place} : Arranged (quotes ++ [index]) 0 inside places →
      Arranged quotes (index + 1) blocks more →
      Arranged quotes index (.quote inside :: blocks) (places ++ more)

/-- What `steps` make of nothing is `doc`, where the blocks stand at these places. -/
structure Places (steps : List Step) (doc : List Block) (places : List Place) : Prop where
  arranged : Arranged [] 0 doc places
  /-- The blocks are those that were pushed, in that order, and in as many quotes as were open. -/
  pushed : places.map (fun place => (place.quotes.length, place.block)) = pushes 0 steps
  /-- Of two blocks that stand in `k` quotes or more, the outer `k` are the same where no lower
  depth was set between the two. -/
  shared : ∀ before between after a b, steps = before ++ .push a :: between ++ .push b :: after →
    ∀ k, k ≤ lastDepth before → k ≤ lastDepth (before ++ .push a :: between) →
    ∃ x y, places[(pushes 0 before).length]? = some x ∧
      places[(pushes 0 (before ++ .push a :: between)).length]? = some y ∧
      x.block = a ∧ y.block = b ∧
      (x.quotes.take k = y.quotes.take k ↔ ∀ d, Step.setDepth d ∈ between → k ≤ d)

/-! ### Steps with every level checked -/

/-- The levels of a path, innermost first: the blocks of the quotes and of the document, each
newest first. -/
abbrev Levels := List (List Block)

/-- All levels of a path. -/
def levels (p : QuotePath) : Levels := p.inner :: p.outer

namespace Levels

/-- One less than the number of levels, if there is a level. -/
def depth? (levels : Levels) : Option Nat :=
  if levels.length = 0 then none else some (levels.length - 1)

/-- Puts a block into the innermost level, if there is one; otherwise it is lost. -/
def push (block : Block) : Levels → Levels
  | [] => []
  | inner :: outer => (block :: inner) :: outer

/-- Takes the innermost level off and puts it as a quote into the next. -/
def closeInnermost : Levels → Levels
  | [] => []
  | inner :: outer => push (.quote inner.reverse) outer

/-- Closes levels while there are too many. `fuel` bounds how often the depth is taken. -/
def closeDown? (depth : Nat) : (fuel : Nat) → Levels → Option Levels
  | 0, _ => none
  | fuel + 1, levels => do
    let current ← depth? levels
    if depth < current then closeDown? depth fuel (closeInnermost levels) else some levels

/-- Opens levels while there are too few. -/
def openUp? (depth : Nat) : (fuel : Nat) → Levels → Option Levels
  | 0, _ => none
  | fuel + 1, levels => do
    let current ← depth? levels
    if current < depth then openUp? depth fuel ([] :: levels) else some levels

/-- Closes or opens levels until the depth is as asked for. -/
def setDepth? (depth : Nat) (levels : Levels) : Option Levels := do
  openUp? depth (depth + 1) (← closeDown? depth levels.length levels)

/-- Takes one step. -/
def step? (levels : Levels) : Step → Option Levels
  | .push block => some (push block levels)
  | .setDepth depth => setDepth? depth levels

/-- Takes steps in order. -/
def run? (levels : Levels) (steps : List Step) : Option Levels := steps.foldlM step? levels

/-- Closes every quote and returns the blocks of the level that is left. -/
def finish? (levels : Levels) : Option (List Block) := do
  let closed ← setDepth? 0 levels
  some (closed.headD []).reverse

theorem depth?_levels (p : QuotePath) : depth? p.levels = some p.depth := by
  rw [depth?, if_neg (by simp [levels])]
  rfl

theorem closeDown?_levels {depth fuel : Nat} {p : QuotePath} (h : p.depth - depth < fuel) :
    closeDown? depth fuel p.levels = some (p.closeMany (p.depth - depth)).levels := by
  induction fuel generalizing p with
  | zero => exact absurd h (Nat.not_lt_zero _)
  | succ fuel ih =>
    rw [closeDown?, depth?_levels]
    simp only [Option.bind_eq_bind, Option.bind_some]
    by_cases hdeep : depth < p.depth
    · obtain ⟨inner, _ | ⟨around, outer⟩⟩ := p
      · exact absurd hdeep (Nat.not_lt_zero _)
      · have hless : QuotePath.depth ⟨inner, around :: outer⟩ - depth =
            QuotePath.depth ⟨.quote inner.reverse :: around, outer⟩ - depth + 1 := by
          simp only [QuotePath.depth, List.length_cons] at hdeep ⊢
          omega
        rw [if_pos hdeep, hless, closeMany]
        exact ih (p := ⟨.quote inner.reverse :: around, outer⟩) (by omega)
    · rw [if_neg hdeep, Nat.sub_eq_zero_of_le (Nat.le_of_not_lt hdeep)]
      rfl

theorem openUp?_levels {depth fuel : Nat} {p : QuotePath} (h : depth - p.depth < fuel) :
    openUp? depth fuel p.levels = some (p.openMany (depth - p.depth)).levels := by
  induction fuel generalizing p with
  | zero => exact absurd h (Nat.not_lt_zero _)
  | succ fuel ih =>
    rw [openUp?, depth?_levels]
    simp only [Option.bind_eq_bind, Option.bind_some]
    by_cases hflat : p.depth < depth
    · have hless : depth - p.depth = depth - QuotePath.depth ⟨[], p.inner :: p.outer⟩ + 1 := by
        simp only [QuotePath.depth, List.length_cons] at hflat ⊢
        omega
      rw [if_pos hflat, hless, openMany]
      exact ih (p := ⟨[], p.inner :: p.outer⟩) (by omega)
    · rw [if_neg hflat, Nat.sub_eq_zero_of_le (Nat.le_of_not_lt hflat)]
      rfl

theorem setDepth?_levels (depth : Nat) (p : QuotePath) :
    setDepth? depth p.levels = some (p.setDepth depth).levels := by
  have hlength : p.levels.length = p.depth + 1 := rfl
  have hclosed := depth_closeMany (p.depth - depth) p
  have hopen : depth - p.depth = depth - (p.closeMany (p.depth - depth)).depth := by omega
  rw [setDepth?, closeDown?_levels (by omega)]
  simp only [Option.bind_eq_bind, Option.bind_some]
  rw [openUp?_levels (by omega), setDepth, hopen]

/-- **Every level that is asked for is there.** -/
theorem run?_levels (p : QuotePath) (steps : List Step) :
    run? p.levels steps = some (p.run steps).levels := by
  induction steps generalizing p with
  | nil => rfl
  | cons step steps ih =>
    have hstep : step? p.levels step = some (p.step step).levels := by
      cases step with
      | push block => rfl
      | setDepth depth => exact setDepth?_levels depth p
    rw [run?, List.foldlM_cons, hstep]
    exact ih (p.step step)

theorem finish?_levels (p : QuotePath) : finish? p.levels = some p.finish := by
  rw [finish?, setDepth?_levels, setDepth, Nat.zero_sub, Nat.sub_zero]
  rfl

end Levels

/-! ### The depth -/

theorem depth_run (p : QuotePath) (steps : List Step) :
    (p.run steps).depth = (steps.filterMap Step.depth?).getLastD p.depth := by
  induction steps generalizing p with
  | nil => rfl
  | cons step steps ih =>
    cases step with
    | push block => exact ih (p.push block)
    | setDepth depth =>
      have hrun := ih (p.setDepth depth)
      rw [depth_setDepth] at hrun
      show _ = (depth :: steps.filterMap Step.depth?).getLastD p.depth
      rw [List.getLastD_cons]
      exact hrun

theorem depth_run_nil (steps : List Step) : (run {} steps).depth = lastDepth steps :=
  depth_run {} steps

theorem run_append (p : QuotePath) (before after : List Step) :
    p.run (before ++ after) = (p.run before).run after := List.foldl_append

/-! ### Places -/

/-- The address of the innermost quote. -/
def address (p : QuotePath) : List Nat := (p.outer.map List.length).reverse

theorem length_address (p : QuotePath) : p.address.length = p.depth := by
  simp [address, depth]

/-- The places of the blocks that steps push. -/
def placesFrom (p : QuotePath) : List Step → List Place
  | [] => []
  | .push block :: steps => ⟨p.address, block⟩ :: placesFrom (p.push block) steps
  | .setDepth depth :: steps => placesFrom (p.setDepth depth) steps

theorem placesFrom_append (p : QuotePath) (before after : List Step) :
    p.placesFrom (before ++ after) = p.placesFrom before ++ (p.run before).placesFrom after := by
  induction before generalizing p with
  | nil => rfl
  | cons step before ih =>
    cases step with
    | push block => exact congrArg _ (ih (p.push block))
    | setDepth depth => exact ih (p.setDepth depth)

/-- Blocks are in as many quotes as are open. -/
theorem map_placesFrom (p : QuotePath) (steps : List Step) :
    (p.placesFrom steps).map (fun place => (place.quotes.length, place.block)) =
      pushes p.depth steps := by
  induction steps generalizing p with
  | nil => rfl
  | cons step steps ih =>
    cases step with
    | push block =>
      rw [placesFrom, pushes, List.map_cons, length_address, ih (p.push block)]
      rfl
    | setDepth depth => rw [placesFrom, pushes, ih, depth_setDepth]

/-- Further blocks behind blocks. -/
theorem Arranged.append {quotes : List Nat} {index : Nat} {blocks rest : List Block}
    {places more : List Place} (h : Arranged quotes index blocks places)
    (hrest : Arranged quotes (index + blocks.length) rest more) :
    Arranged quotes index (blocks ++ rest) (places ++ more) := by
  have hshift : ∀ index length : Nat, index + (length + 1) = index + 1 + length := by omega
  induction h with
  | nil quotes index => exact hrest
  | block block h ih =>
    rw [List.length_cons, hshift] at hrest
    exact .block block (ih hrest)
  | quote hinside h _ ih =>
    rw [List.length_cons, hshift] at hrest
    rw [List.cons_append, List.append_assoc]
    exact .quote hinside (ih hrest)

/-- `Stands p places`: the blocks of the path stand at these places, once all its quotes are
closed. -/
inductive Stands : QuotePath → List Place → Prop
  | document {inner : List Block} {places : List Place} :
      Arranged [] 0 inner.reverse places → Stands ⟨inner, []⟩ places
  | quote {inner around : List Block} {outer : List (List Block)} {places more : List Place} :
      Stands ⟨around, outer⟩ places →
      Arranged (address ⟨inner, around :: outer⟩) 0 inner.reverse more →
      Stands ⟨inner, around :: outer⟩ (places ++ more)

namespace Stands

variable {p : QuotePath} {places : List Place}

/-- Blocks that are put behind those of the innermost quote. -/
theorem append (h : Stands p places) {blocks : List Block} {more : List Place}
    (hmore : Arranged p.address p.inner.length blocks more) :
    Stands ⟨blocks.reverse ++ p.inner, p.outer⟩ (places ++ more) := by
  cases h with
  | @document inner _ hinner =>
    refine .document ?_
    rw [List.reverse_append, List.reverse_reverse]
    refine hinner.append ?_
    rw [List.length_reverse, Nat.zero_add]
    exact hmore
  | @quote inner around outer places' more' haround hinner =>
    rw [List.append_assoc]
    refine .quote haround ?_
    rw [List.reverse_append, List.reverse_reverse]
    refine Arranged.append hinner ?_
    rw [List.length_reverse, Nat.zero_add]
    exact hmore

theorem push (h : Stands p places) (block : Block) :
    Stands (p.push block) (places ++ [⟨p.address, block⟩]) :=
  h.append (.block block (.nil _ _))

theorem openMany (h : Stands p places) (n : Nat) : Stands (p.openMany n) places := by
  refine openMany_keeps (P := fun q => Stands q places) ?_ n p h
  intro q hq
  have hopened : Stands ⟨[], q.inner :: q.outer⟩ (places ++ []) := .quote hq (.nil _ _)
  rwa [List.append_nil] at hopened

/-- A quote that closes is where its address says. -/
theorem closeMany (h : Stands p places) (n : Nat) : Stands (p.closeMany n) places := by
  refine closeMany_keeps (P := fun q => Stands q places) ?_ n p h
  intro inner around outer hq
  cases hq with
  | quote haround hinner =>
    have haddress : address ⟨inner, around :: outer⟩ =
        address ⟨around, outer⟩ ++ [around.length] := by
      simp [address]
    rw [haddress] at hinner
    have hclosed := haround.append (.quote hinner (.nil _ _))
    rwa [List.append_nil] at hclosed

theorem setDepth (h : Stands p places) (depth : Nat) : Stands (p.setDepth depth) places :=
  (h.closeMany _).openMany _

/-- The finished tree has the blocks at their places. -/
theorem finish (h : Stands p places) : Arranged [] 0 p.finish places := by
  have hclosed := h.closeMany p.depth
  rw [closeMany_depth] at hclosed
  cases hclosed with
  | document hinner => rwa [List.reverse_reverse] at hinner

end Stands

/-- **A run puts every block where its address is**, behind all blocks that are there already. -/
theorem stands_run {p : QuotePath} {places : List Place} (h : Stands p places)
    (steps : List Step) : Stands (p.run steps) (places ++ p.placesFrom steps) := by
  induction steps generalizing p places with
  | nil => rwa [placesFrom, List.append_nil]
  | cons step steps ih =>
    cases step with
    | push block =>
      rw [placesFrom, List.append_cons]
      exact ih (h.push block)
    | setDepth depth => exact ih (h.setDepth depth)

/-! ### Quotes that two blocks share -/

/-- Outer quotes that are open stay open while no lower depth is set. -/
theorem suffix_closeMany {outer : List Nat} {n : Nat} {p : QuotePath}
    (h : outer <:+ p.outer.map List.length) (hlow : outer.length ≤ p.depth - n) :
    outer <:+ (p.closeMany n).outer.map List.length := by
  induction n generalizing p with
  | zero => simpa [closeMany] using h
  | succ n ih =>
    obtain ⟨inner, _ | ⟨around, rest⟩⟩ := p
    · exact h
    · have hrest : outer.length ≤ rest.length - n := by
        simpa [depth] using hlow
      refine ih (p := ⟨.quote inner.reverse :: around, rest⟩) ?_ hrest
      rcases List.suffix_cons_iff.mp h with heq | hsuffix
      · have hlength := congrArg List.length heq
        simp only [List.length_cons, List.length_map] at hlength
        omega
      · exact hsuffix

theorem suffix_openMany {outer : List Nat} {n : Nat} {p : QuotePath}
    (h : outer <:+ p.outer.map List.length) :
    outer <:+ (p.openMany n).outer.map List.length := by
  refine openMany_keeps (P := fun q => outer <:+ q.outer.map List.length) ?_ n p h
  intro q hq
  exact hq.trans (List.suffix_cons _ _)

theorem suffix_setDepth {outer : List Nat} {d : Nat} {p : QuotePath}
    (h : outer <:+ p.outer.map List.length) (hlow : outer.length ≤ d) :
    outer <:+ (p.setDepth d).outer.map List.length := by
  have hdepth : outer.length ≤ p.depth := by
    simpa [depth] using h.length_le
  exact suffix_openMany (suffix_closeMany h (by omega))

theorem suffix_run {outer : List Nat} {p : QuotePath} {steps : List Step}
    (h : outer <:+ p.outer.map List.length)
    (hlow : ∀ d, Step.setDepth d ∈ steps → outer.length ≤ d) :
    outer <:+ (p.run steps).outer.map List.length := by
  induction steps generalizing p with
  | nil => exact h
  | cons step steps ih =>
    have hrest : ∀ d, Step.setDepth d ∈ steps → outer.length ≤ d :=
      fun d hd => hlow d (List.mem_cons_of_mem _ hd)
    cases step with
    | push block => exact ih (p := p.push block) h hrest
    | setDepth d =>
      exact ih (p := p.setDepth d) (suffix_setDepth h (hlow d List.mem_cons_self)) hrest

/-- The numbers of blocks in all levels, innermost first. -/
def sizes (p : QuotePath) : List Nat := p.levels.map List.length

/-- `Passed k old new`: seen from the outermost level, the first of the sizes that differ is one
of the outer `k`, and the new one is larger. -/
def Passed (k : Nat) (old new : List Nat) : Prop :=
  ∃ inner x inner' y outer, old = inner ++ x :: outer ∧ new = inner' ++ y :: outer ∧ x < y ∧
    outer.length < k

namespace Passed

variable {k : Nat} {old : List Nat} {p : QuotePath}

theorem push (h : Passed k old p.sizes) (block : Block) : Passed k old (p.push block).sizes := by
  obtain ⟨inner, x, inner', y, outer, hold, hnew, hlt, hk⟩ := h
  cases inner' with
  | nil =>
    obtain ⟨hy, houter⟩ := List.cons.inj hnew
    have hmore : (p.push block).sizes = (y + 1) :: outer :=
      congrArg₂ List.cons (congrArg Nat.succ hy) houter
    exact ⟨inner, x, [], y + 1, outer, hold, hmore, by omega, hk⟩
  | cons z inner' =>
    have hrest : p.outer.map List.length = inner' ++ y :: outer := (List.cons.inj hnew).2
    exact ⟨inner, x, (p.inner.length + 1) :: inner', y, outer, hold,
      congrArg (List.cons _) hrest, hlt, hk⟩

theorem openMany (h : Passed k old p.sizes) (n : Nat) : Passed k old (p.openMany n).sizes := by
  refine openMany_keeps (P := fun q => Passed k old q.sizes) ?_ n p h
  rintro q ⟨inner, x, inner', y, outer, hold, hnew, hlt, hk⟩
  exact ⟨inner, x, 0 :: inner', y, outer, hold, congrArg (List.cons 0) hnew, hlt, hk⟩

/-- The level around a quote that closes has one block more. -/
theorem close {inner around : List Block} {rest : List (List Block)}
    (h : Passed k old (sizes ⟨inner, around :: rest⟩)) (block : Block) :
    Passed k old (sizes ⟨block :: around, rest⟩) := by
  obtain ⟨before, x, before', y, outer, hold, hnew, hlt, hk⟩ := h
  cases before' with
  | nil =>
    -- the level that differed closes, and the next differs from now on
    obtain rfl : around.length :: rest.map List.length = outer := (List.cons.inj hnew).2
    rw [List.length_cons] at hk
    exact ⟨before ++ [x], around.length, [], around.length + 1, rest.map List.length,
      by rw [hold, List.append_cons], rfl, Nat.lt_succ_self _, by omega⟩
  | cons z before' =>
    obtain ⟨-, hrest⟩ := List.cons.inj hnew
    have haround : Passed k old (sizes ⟨around, rest⟩) :=
      ⟨before, x, before', y, outer, hold, hrest, hlt, hk⟩
    exact haround.push block

theorem closeMany (h : Passed k old p.sizes) (n : Nat) : Passed k old (p.closeMany n).sizes := by
  refine closeMany_keeps (P := fun q => Passed k old q.sizes) ?_ n p h
  intro inner around outer hq
  exact hq.close _

theorem run (h : Passed k old p.sizes) (steps : List Step) : Passed k old (p.run steps).sizes := by
  induction steps generalizing p with
  | nil => exact h
  | cons step steps ih =>
    cases step with
    | push block => exact ih (p := p.push block) (h.push block)
    | setDepth d => exact ih (p := p.setDepth d) ((h.closeMany _).openMany _)

/-- Addresses that differ so are not those of one quote. -/
theorem address_ne {p q : QuotePath} (h : Passed k p.sizes q.sizes) (hp : k ≤ p.depth)
    (hq : k ≤ q.depth) : p.address.take k ≠ q.address.take k := by
  obtain ⟨inner, x, inner', y, outer, hold, hnew, hlt, hk⟩ := h
  have hsize : ∀ {r : QuotePath} {front : List Nat} {z : Nat}, r.sizes = front ++ z :: outer →
      k ≤ r.depth → (r.address.take k)[outer.length]? = some z := by
    intro r front z hr hdepth
    have hall : r.address ++ [r.inner.length] = outer.reverse ++ z :: front.reverse := by
      have hreverse := congrArg List.reverse hr
      simpa [sizes, levels, address] using hreverse
    have hinside : outer.length < r.address.length := by
      rw [length_address]
      omega
    rw [List.getElem?_take_of_lt hk, ← List.getElem?_append_left hinside, hall]
    simp
  intro heq
  have hx := hsize hold hp
  rw [heq, hsize hnew hq] at hx
  exact absurd (Option.some.inj hx) (by omega)

end Passed

/-- Closing one of the outer quotes passes it. -/
theorem passed_closeMany {old outer : List Nat} {n : Nat} {p : QuotePath} (hold : outer <:+ old)
    (h : outer <:+ p.outer.map List.length) (hlow : p.depth - n < outer.length) :
    Passed outer.length old (p.closeMany n).sizes := by
  induction n generalizing p with
  | zero =>
    have hlength := h.length_le
    rw [List.length_map] at hlength
    simp only [depth] at hlow
    omega
  | succ n ih =>
    obtain ⟨inner, _ | ⟨around, rest⟩⟩ := p
    · obtain rfl := List.suffix_nil.mp h
      exact absurd hlow (by simp)
    · rcases List.suffix_cons_iff.mp h with rfl | hsuffix
      · obtain ⟨front, rfl⟩ := hold
        have hpassed : Passed (rest.length + 1) (front ++ around.length :: rest.map List.length)
            (sizes ⟨.quote inner.reverse :: around, rest⟩) :=
          ⟨front, around.length, [], around.length + 1, rest.map List.length, rfl, rfl,
            Nat.lt_succ_self _, by simp⟩
        rw [List.length_cons, List.length_map]
        exact hpassed.closeMany n
      · have hrest : depth ⟨.quote inner.reverse :: around, rest⟩ - n < outer.length := by
          simpa [depth] using hlow
        exact ih (p := ⟨.quote inner.reverse :: around, rest⟩) hsuffix hrest

/-- A lower depth that is set closes one of the outer quotes, and what is done then cannot bring
it back. -/
theorem passed_run_of_below {old outer : List Nat} {d : Nat} {p : QuotePath} {steps : List Step}
    (hold : outer <:+ old) (h : outer <:+ p.outer.map List.length)
    (hstep : Step.setDepth d ∈ steps) (hlow : d < outer.length) :
    Passed outer.length old (p.run steps).sizes := by
  induction steps generalizing p with
  | nil => exact absurd hstep (by simp)
  | cons step steps ih =>
    have hdepth : outer.length ≤ p.depth := by
      simpa [depth] using h.length_le
    cases step with
    | push block =>
      have hrest : Step.setDepth d ∈ steps := by simpa using hstep
      exact ih (p := p.push block) h hrest
    | setDepth e =>
      by_cases he : outer.length ≤ e
      · have hrest : Step.setDepth d ∈ steps := by
          rcases List.mem_cons.mp hstep with heq | hrest
          · obtain rfl := Step.setDepth.inj heq
            omega
          · exact hrest
        exact ih (p := p.setDepth e) (suffix_setDepth h he) hrest
      · have hclosed : Passed outer.length old (p.closeMany (p.depth - e)).sizes :=
          passed_closeMany hold h (by omega)
        exact (hclosed.openMany (e - p.depth)).run steps

/-- **Two blocks share an outer quote** where no depth below its level is set between them. -/
theorem address_take_eq_iff {k : Nat} {p : QuotePath} {steps : List Step} (hp : k ≤ p.depth)
    (hq : k ≤ (p.run steps).depth) :
    p.address.take k = (p.run steps).address.take k ↔ ∀ d, Step.setDepth d ∈ steps → k ≤ d := by
  obtain ⟨outer, houter⟩ : ∃ outer, outer = (p.outer.map List.length).drop (p.depth - k) :=
    ⟨_, rfl⟩
  have hsuffix : outer <:+ p.outer.map List.length := houter ▸ List.drop_suffix _ _
  have hlength : outer.length = k := by
    rw [houter, List.length_drop, List.length_map]
    simp only [depth] at hp ⊢
    omega
  constructor
  · intro heq d hd
    by_contra hlow
    have hpassed : Passed outer.length p.sizes (p.run steps).sizes :=
      passed_run_of_below (hsuffix.trans (List.suffix_cons _ _)) hsuffix hd (by omega)
    rw [hlength] at hpassed
    exact hpassed.address_ne hp hq heq
  · intro hlow
    have htake : ∀ {r : QuotePath}, outer <:+ r.outer.map List.length →
        r.address.take k = outer.reverse := by
      intro r hr
      obtain ⟨front, hfront⟩ := hr
      rw [address, ← hfront, List.reverse_append, ← hlength, ← List.length_reverse,
        List.take_left]
    rw [htake hsuffix, htake (suffix_run hsuffix fun d hd => hlength ▸ hlow d hd)]

/-! ### Whole runs -/

/-- The place of a block that is pushed, between those of the blocks before and behind it. -/
theorem getElem?_placesFrom (p : QuotePath) (before after : List Step) (block : Block) :
    (p.placesFrom (before ++ .push block :: after))[(pushes p.depth before).length]? =
      some ⟨(p.run before).address, block⟩ := by
  rw [← map_placesFrom, List.length_map, placesFrom_append, List.getElem?_append_right le_rfl,
    Nat.sub_self]
  rfl

/-- **What a run of pushes and depths makes of nothing.** Every level that is asked for on the way
is there, also while all quotes are closed at the end, and the depth is the one that was set last.
The finished tree holds the blocks that were pushed, in that order and each once, in as many
quotes as the depth was then. Two of them stand in the same `k` outer quotes where no depth below
`k` was set between them. -/
theorem places_run (steps : List Step) :
    Levels.run? [[]] steps = some (run {} steps).levels ∧
      Levels.depth? (run {} steps).levels = some (lastDepth steps) ∧
      Levels.finish? (run {} steps).levels = some (run {} steps).finish ∧
      (run {} steps).depth = lastDepth steps ∧
      ∃ places, Places steps (run {} steps).finish places := by
  have hdepth := depth_run_nil steps
  refine ⟨Levels.run?_levels {} steps, ?_, Levels.finish?_levels _, hdepth, placesFrom {} steps, ?_⟩
  · rw [Levels.depth?_levels, hdepth]
  have hnone : Stands {} [] := .document (.nil [] 0)
  have hstands : Stands (run {} steps) (placesFrom {} steps) := stands_run hnone steps
  refine ⟨hstands.finish, map_placesFrom {} steps, ?_⟩
  intro before between after a b hsteps k ha hb
  have hrun : run {} (before ++ .push a :: between) = run ((run {} before).push a) between :=
    run_append {} before _
  have hplace : ∀ block, address ((run {} before).push block) = address (run {} before) :=
    fun _ => rfl
  refine ⟨⟨address (run {} before), a⟩, ⟨address (run {} (before ++ .push a :: between)), b⟩,
    ?_, ?_, rfl, rfl, ?_⟩
  · have hfirst := getElem?_placesFrom {} before (between ++ .push b :: after) a
    rw [hsteps, List.append_assoc]
    exact hfirst
  · rw [hsteps]
    exact getElem?_placesFrom {} (before ++ .push a :: between) after b
  · rw [← depth_run_nil] at ha hb
    rw [hrun] at hb ⊢
    simp only
    rw [← hplace a]
    exact address_take_eq_iff ha hb

/-- A quote that closes and opens again is another one, and one that closes empty stays. -/
example :
    (run {} [.setDepth 1, .push .rule, .setDepth 0, .setDepth 2, .setDepth 1, .push .rule]).finish =
      [.quote [.rule], .quote [.quote [], .rule]] := rfl

end QuotePath
end MarkdownHtml
