/-
# Reading with every count checked

The parser takes from its counters without asking whether there is anything to take, and
leaves its loops early in places it is not meant to come to. Here it is once more, step by
step, with all of that checked: whoever takes one from a counter that is zero, or more
delimiters than a run has, and whoever looks for a frame that a counter or the stack has
promised and finds none, has no result (`none`). Everything else is as in the parser, so
that a result here is a reading in which no subtraction went below zero and no such place
was reached.

Where the counters are right (`Counted`), each checked function has a result, and it is the
one of the parser. The one count that is not plain to see is taken when the oldest frame is
given up: it is taken from the lowest bracket above that frame, and `lowestCounts` says which
count this is and that the frame is in it.

Key definitions: `Checked.decrement`, `Checked.collapse`, `Checked.dropOldest`,
`Checked.closeNext`, `Checked.step`, `Checked.run`, `Checked.read`, `lowestCounts`.
Key theorems: `Checked.collapse_eq_some`, `Counted.exists_lowestCounts`,
`Checked.dropOldest_eq_some`, `Checked.closeMany_eq_some`, `Checked.closeBracket_eq_some`,
`Checked.step_eq_some`.
-/
import MarkdownHtml.Proofs.Counters

namespace MarkdownHtml
namespace Checked

open InlineParser

/-! ### Counters -/

/-- One less of `mark`, if there is one. -/
def decrement (mark : Delimiter) (counts : Counts) : Option Counts :=
  if counts.get mark = 0 then none else some (counts.decrement mark)

/-- The counts once a frame with this opener is off the stack. -/
def countsWithout (unclosed : Counts) : Opener → Option Counts
  | .emphasis mark _ => decrement mark unclosed
  | .bracket _ _ enclosed => some enclosed

/-- The change in the counts of the part around an opener that is given up. -/
def mergeCounts : Opener → Counts → Option Counts
  | .emphasis mark _, counts => decrement mark counts
  | .bracket _ _ enclosed, counts => some (counts.add enclosed)

/-- Changes the counts of the lowest bracket of some frames, outermost first, if there is a
bracket. -/
def changeLowest (change : Counts → Option Counts) : List Frame → Option (Option (List Frame))
  | [] => some none
  | ⟨.bracket image active enclosed, content⟩ :: above => do
    let counts ← change enclosed
    some (some (⟨.bracket image active counts, content⟩ :: above))
  | frame :: above => do
    let changed ← changeLowest change above
    some (changed.map (frame :: ·))

/-! ### Giving frames up -/

/-- Gives up the innermost frame. -/
def collapse : State → Option State
  | ⟨root, [], unclosed, dropped⟩ => some ⟨root, [], unclosed, dropped⟩
  | ⟨root, frame :: below, unclosed, dropped⟩ => do
    let counts ← countsWithout unclosed frame.opener
    some (State.onTop frame.flatten ⟨root, below, counts, dropped⟩)

/-- Gives up the `n` innermost frames. -/
def collapseMany : Nat → State → Option State
  | 0, st => some st
  | n + 1, st => do collapseMany n (← collapse st)

/-- Gives up the innermost frames, at most `n`, until one is reached whose opener
satisfies `p`. -/
def unwind (p : Opener → Bool) : Nat → State → Option State
  | 0, st => some st
  | n + 1, st =>
    match st.stack with
    | [] => some st
    | frame :: _ => if p frame.opener then some st else do unwind p n (← collapse st)

/-- Gives up the innermost frames until a bracket or an opener of `mark`. -/
def unwindTo (mark : Delimiter) (st : State) : Option State :=
  unwind (fun o => match o with
    | .emphasis m _ => m = mark
    | .bracket .. => true) st.stack.length st

/-- Gives up the innermost frames until a bracket. -/
def unwindToBracket (st : State) : Option State := unwind Opener.isBracket st.stack.length st

/-- Gives up the oldest frame. -/
def dropOldest : State → Option State
  | ⟨root, stack, unclosed, dropped⟩ =>
    match stack.reverse with
    | [] => none
    | oldest :: above => do
      match ← changeLowest (mergeCounts oldest.opener) above with
      | some above => some ⟨oldest.flatten root, above.reverse, unclosed, dropped + 1⟩
      | none =>
        let unclosed ← mergeCounts oldest.opener unclosed
        some ⟨oldest.flatten root, above.reverse, unclosed, dropped + 1⟩

/-! ### Opening and closing -/

/-- Makes room for one more frame. -/
def reserve (limit : Nat) (st : State) : Option State :=
  if st.stack.length < max 1 limit then some st else dropOldest st

/-- Opens a frame for `count` delimiters. -/
def openEmphasis (limit : Nat) (mark : Delimiter) (count : Nat) (st : State) : Option State := do
  let st ← reserve limit st
  some { st with
    stack := ⟨.emphasis mark count, {}⟩ :: st.stack
    unclosed := st.unclosed.increment mark }

/-- Opens a frame for a bracket. -/
def openBracket (limit : Nat) (image : Bool) (st : State) : Option State := do
  let st ← reserve limit st
  some { st with
    stack := ⟨.bracket image true st.unclosed, {}⟩ :: st.stack
    unclosed := {} }

/-- Closes `used` of the `available` delimiters of the innermost frame. -/
def closeOnce (limit : Nat) (mark : Delimiter) (available used : Nat) (content : Content)
    (below : List Frame) (st : State) : Option (Except TooDeep State) :=
  let depth := content.depth + 1
  let node := State.emphasisNode used content.toList
  if available < used then none
  else if limit < depth then some (.error ⟨st.dropped⟩)
  else if available = used then do
    let unclosed ← decrement mark st.unclosed
    some (.ok (State.push node depth { st with stack := below, unclosed }))
  else
    some (.ok { st with
      stack := ⟨.emphasis mark (available - used), ⟨[node], depth⟩⟩ :: below })

/-- Matches one or two of `count` closing delimiters. If a run of `mark` is counted, one has
to be innermost once what is open above it is given up. -/
def closeNext (limit : Nat) (mark : Delimiter) (count : Nat) (st : State) :
    Option (Except TooDeep (Nat × State)) :=
  if count = 0 ∨ st.unclosed.get mark = 0 then some (.ok (0, st))
  else do
    let st ← unwindTo mark st
    match st.stack with
    | ⟨.emphasis _ available, content⟩ :: below =>
      let used := if 2 ≤ count ∧ 2 ≤ available then 2 else 1
      if count < used then none
      else
        match ← closeOnce limit mark available used content below st with
        | .ok st => some (.ok (used, st))
        | .error e => some (.error e)
    | _ => none

/-- Matches closing delimiters as long as there are some and a run is open for them. -/
def closeMany (limit : Nat) (mark : Delimiter) :
    (fuel : Nat) → (count : Nat) → State → Option (Except TooDeep (Nat × State))
  | 0, count, st => some (.ok (count, st))
  | fuel + 1, count, st => do
    match ← closeNext limit mark count st with
    | .error e => some (.error e)
    | .ok (0, st) => some (.ok (count, st))
    | .ok (used, st) => closeMany limit mark fuel (count - used) st

/-- Reads a run of `count` delimiters. -/
def delimiterRun (limit : Nat) (mark : Delimiter) (flanking : Flanking) (count : Nat)
    (st : State) : Option (Except TooDeep State) := do
  match ← if flanking.canClose then closeMany limit mark count count st
      else some (.ok (count, st)) with
  | .error e => some (.error e)
  | .ok (count, st) =>
    if count = 0 then some (.ok st)
    else if flanking.canOpen then do some (.ok (← openEmphasis limit mark count st))
    else some (.ok (st.pushText (String.ofList (List.replicate count mark.char))))

/-- Reads a `]` with the text `after` behind it. -/
def closeBracket (limit : Nat) (after : List Char) (st : State) :
    Option (Except TooDeep (Nat × State)) :=
  if st.stack.any (·.opener.isBracket) then do
    let st ← unwindToBracket st
    match st.stack with
    | ⟨.bracket image active enclosed, content⟩ :: below =>
      match if active then LinkTail.read? after else none with
      | none => do
        let st ← collapse st
        some (.ok (0, st.pushText "]"))
      | some tail =>
        let st := { st with stack := below, unclosed := enclosed }
        if image then some (.ok (tail.size, st.closeImage tail content))
        else
          match st.closeLink limit tail content with
          | .ok st => some (.ok (tail.size, st))
          | .error e => some (.error e)
    | _ => none
  else some (.ok (0, st.pushText "]"))

/-! ### Whole texts -/

/-- Reads one token, with the tokens `rest` behind it. -/
def step (limit : Nat) (token : Token) (index : Nat) (closer : Option Nat) (rest : List Token)
    (st : State) : Option (Except TooDeep (Nat × State)) :=
  let run (mark : Delimiter) := do
    let flanking := Flanking.between mark token.before token.after.head?
    match ← delimiterRun limit mark flanking token.lexeme.length st with
    | .ok st => some (.ok (0, st))
    | .error e => some (.error e)
  match token.kind with
  | .stars => run .star
  | .underscores => run .underscore
  | .imageOpen => do some (.ok (0, ← openBracket limit true st))
  | .leftBracket => do some (.ok (0, ← openBracket limit false st))
  | .rightBracket => closeBracket limit token.after st
  -- code, escapes, breaks and plain text touch no counter
  | _ => some (st.step limit token index closer rest)

/-- Reads the tokens from `index` on. -/
def run (limit : Nat) (index resume : Nat) (st : State) :
    List Token → List (Option Nat) → Option (Except TooDeep State)
  | token :: rest, closer :: closers =>
    if token.start < resume then run limit (index + 1) resume st rest closers
    else do
      match ← step limit token index closer rest st with
      | .ok (more, st) => run limit (index + 1) (token.stop + more) st rest closers
      | .error e => some (.error e)
  | _, _ => some (.ok st)

/-- Gives up all open frames and returns the nodes. -/
def finish (st : State) : Option (List Inline) := do
  let st ← collapseMany st.stack.length st
  some st.root.toList

/-- Reads running text under the nesting limit. -/
def read (limits : Limits) (text : List Char) : Option InlineReading := do
  let tokens := Token.ofText text
  match ← run limits.maxNesting 0 0 {} tokens (CodeSpan.closers tokens) with
  | .ok st => do some ⟨st.dropped, .ok (← finish st)⟩
  | .error e => some ⟨e.dropped, .error limits.nestingError⟩

end Checked

/-! ### What there is to take -/

namespace InlineParser

/-- The counts that the oldest frame is counted in, if `fs` are the frames above it, outermost
first: those of their lowest bracket, or `c` if they have none. -/
def lowestCounts (c : Counts) : List Frame → Counts
  | [] => c
  | ⟨.bracket _ _ enclosed, _⟩ :: _ => enclosed
  | _ :: above => lowestCounts c above

theorem lowestCounts_append (c : Counts) (fs gs : List Frame) :
    lowestCounts c (fs ++ gs) = lowestCounts (lowestCounts c gs) fs := by
  induction fs with
  | nil => rfl
  | cons f fs ih =>
    obtain ⟨o, content⟩ := f
    cases o with
    | emphasis => exact ih
    | bracket => rfl

/-- One more run counts in the lowest bracket or in the stack. -/
theorem lowestCounts_increment (c : Counts) (m : Delimiter) (fs : List Frame) :
    lowestCounts (c.increment m) fs = lowestCounts c fs ∨
      lowestCounts (c.increment m) fs = (lowestCounts c fs).increment m := by
  induction fs with
  | nil => exact .inr rfl
  | cons f fs ih =>
    obtain ⟨o, content⟩ := f
    cases o with
    | emphasis => exact ih
    | bracket => exact .inl rfl

/-- The oldest frame is counted where its count is taken. -/
theorem Counted.exists_lowestCounts {above : List Frame} {oldest : Frame} {c : Counts}
    (h : Counted (above ++ [oldest]) c) :
    ∃ d, lowestCounts c above.reverse = added oldest.opener d := by
  induction above generalizing c with
  | nil =>
    obtain ⟨o, content⟩ := oldest
    cases o with
    | emphasis m n =>
      obtain ⟨d, -, rfl⟩ := h
      exact ⟨d, rfl⟩
    | bracket => exact ⟨c, rfl⟩
  | cons f above ih =>
    rw [List.reverse_cons, lowestCounts_append]
    obtain ⟨o, content⟩ := f
    cases o with
    | bracket => exact ih h.2
    | emphasis m n =>
      obtain ⟨d, hd, rfl⟩ := h
      obtain ⟨e, he⟩ := ih hd
      change ∃ d', lowestCounts (d.increment m) above.reverse = added oldest.opener d'
      rcases lowestCounts_increment d m above.reverse with hsame | hmore
      · exact ⟨e, hsame.trans he⟩
      · exact ⟨e.increment m, by rw [hmore, he, added_increment]⟩

end InlineParser

/-! ### Where the counters are right, nothing fails -/

namespace Checked

open InlineParser

variable {limit : Nat} {st : State} {m : Delimiter}

theorem decrement_eq_some {c : Counts} (h : c.get m ≠ 0) :
    decrement m c = some (c.decrement m) := if_neg h

theorem countsWithout_eq_some {f : Frame} {stack : List Frame} {c : Counts}
    (h : Counted (f :: stack) c) :
    countsWithout c f.opener = some (State.countsWithout c f.opener) := by
  obtain ⟨o, content⟩ := f
  cases o with
  | emphasis => exact decrement_eq_some h.get_ne_zero_of_head
  | bracket => rfl

theorem collapse_eq_some (h : Counted st.stack st.unclosed) : collapse st = some st.collapse := by
  obtain ⟨root, _ | ⟨f, below⟩, unclosed, dropped⟩ := st
  · rfl
  · rw [collapse, countsWithout_eq_some h]
    rfl

/-- A run that is open and not counted cannot be given up. -/
example : collapse ⟨{}, [⟨.emphasis .star 1, {}⟩], {}, 0⟩ = none := rfl

theorem collapseMany_eq_some (n : Nat) (h : Counted st.stack st.unclosed) :
    collapseMany n st = some (st.collapseMany n) := by
  induction n generalizing st with
  | zero => rfl
  | succ n ih =>
    rw [collapseMany, collapse_eq_some h]
    exact ih h.collapse

theorem unwind_eq_some (p : Opener → Bool) (n : Nat) (h : Counted st.stack st.unclosed) :
    unwind p n st = some (st.unwind p n) := by
  induction n generalizing st with
  | zero => rfl
  | succ n ih =>
    cases hs : st.stack with
    | nil => simp only [unwind, State.unwind, hs]
    | cons f below =>
      simp only [unwind, State.unwind, hs, collapse_eq_some h]
      split_ifs
      · rfl
      · exact ih h.collapse

theorem mergeCounts_added_eq_some (o : Opener) (d : Counts) :
    mergeCounts o (Counted.added o d) = some (State.mergeCounts o (Counted.added o d)) := by
  cases o with
  | emphasis m n =>
    refine decrement_eq_some ?_
    rw [Counted.added, Counts.get_increment_self]
    omega
  | bracket => rfl

/-- The counts of the lowest bracket change, if they can, or there is no bracket and those of
the whole stack can change. -/
theorem changeLowest_eq_some {o : Opener} {fs : List Frame} {c : Counts}
    (h : mergeCounts o (lowestCounts c fs) = some (State.mergeCounts o (lowestCounts c fs))) :
    changeLowest (mergeCounts o) fs = some (State.changeLowest? (State.mergeCounts o) fs) ∧
      (State.changeLowest? (State.mergeCounts o) fs = none →
        mergeCounts o c = some (State.mergeCounts o c)) := by
  induction fs with
  | nil => exact ⟨rfl, fun _ => h⟩
  | cons f fs ih =>
    obtain ⟨p, content⟩ := f
    cases p with
    | bracket image active enclosed =>
      have henclosed : mergeCounts o enclosed = some (State.mergeCounts o enclosed) := h
      refine ⟨?_, fun hnone => absurd hnone (by simp [State.changeLowest?])⟩
      rw [changeLowest, henclosed]
      rfl
    | emphasis k n =>
      obtain ⟨hchange, hnone⟩ := ih h
      refine ⟨?_, fun hn => hnone (by simpa [State.changeLowest?] using hn)⟩
      simp only [changeLowest, State.changeLowest?, hchange, Option.bind_eq_bind,
        Option.bind_some]

theorem dropOldest_eq_some (h : Counted st.stack st.unclosed) (hne : st.stack ≠ []) :
    dropOldest st = some st.dropOldest := by
  obtain ⟨root, stack, unclosed, dropped⟩ := st
  obtain ⟨above, oldest, rfl⟩ := State.exists_oldest hne
  obtain ⟨d, hd⟩ := Counted.exists_lowestCounts h
  have htake : mergeCounts oldest.opener (lowestCounts unclosed above.reverse) =
      some (State.mergeCounts oldest.opener (lowestCounts unclosed above.reverse)) := by
    rw [hd]
    exact mergeCounts_added_eq_some oldest.opener d
  obtain ⟨hchange, hnone⟩ := changeLowest_eq_some htake
  simp only [dropOldest, State.dropOldest, List.reverse_append, List.reverse_cons,
    List.reverse_nil, List.nil_append, List.cons_append, hchange, Option.bind_eq_bind,
    Option.bind_some]
  cases hc : State.changeLowest? (State.mergeCounts oldest.opener) above.reverse with
  | some fs => rfl
  | none =>
    simp only [hnone hc, Option.bind_some]

theorem reserve_eq_some (h : Counted st.stack st.unclosed) :
    reserve limit st = some (st.reserve limit) := by
  unfold reserve State.reserve
  split_ifs with hroom
  · rfl
  · refine dropOldest_eq_some h fun hs => hroom ?_
    rw [hs, List.length_nil]
    omega

theorem openEmphasis_eq_some (h : Counted st.stack st.unclosed) (count : Nat) :
    openEmphasis limit m count st = some (st.openEmphasis limit m count) := by
  rw [openEmphasis, reserve_eq_some h]
  rfl

theorem openBracket_eq_some (h : Counted st.stack st.unclosed) (image : Bool) :
    openBracket limit image st = some (st.openBracket limit image) := by
  rw [openBracket, reserve_eq_some h]
  rfl

/-! ### Closing -/

theorem closeOnce_eq_some {available used : Nat} {content : Content} {below : List Frame}
    (h : Counted st.stack st.unclosed) (hs : st.stack = ⟨.emphasis m available, content⟩ :: below)
    (hused : used ≤ available) :
    closeOnce limit m available used content below st =
      some (st.closeOnce limit m available used content below) := by
  have hm : st.unclosed.get m ≠ 0 := Counted.get_ne_zero_of_head (hs ▸ h)
  simp only [closeOnce, State.closeOnce]
  rw [if_neg (Nat.not_lt.mpr hused), decrement_eq_some hm]
  split_ifs <;> rfl

/-- A counted run is found, it has delimiters left, and no more of them are closed than there
are on either side. -/
theorem closeNext_eq_some (ho : st.Opened) (h : Counted st.stack st.unclosed) (count : Nat) :
    closeNext limit m count st = some (st.closeNext limit m count) := by
  unfold closeNext State.closeNext
  split_ifs with hnone
  · rfl
  · have hw : Moves limit st [] (st.unwindTo m) := State.unwind_moves limit _ _ st
    obtain ⟨available, content, below, hs⟩ := h.exists_run fun hm => hnone (.inr hm)
    have havailable : 1 ≤ available :=
      State.one_le_of_literal_ne (hw.opened ho _ (hs ▸ List.mem_cons_self))
    have hcount : 1 ≤ count := Nat.pos_of_ne_zero fun hc => hnone (.inl hc)
    have hunwind : unwindTo m st = some (st.unwindTo m) := unwind_eq_some _ _ h
    have hclose : ∀ used ≤ available,
        closeOnce limit m available used content below (st.unwindTo m) =
          some ((st.unwindTo m).closeOnce limit m available used content below) :=
      fun used hused => closeOnce_eq_some (hw.counted h) hs hused
    have hused : (if 2 ≤ count ∧ 2 ≤ available then 2 else 1) ≤ available := by
      split_ifs <;> omega
    have hle : ¬ count < if 2 ≤ count ∧ 2 ≤ available then 2 else 1 := by split_ifs <;> omega
    simp only [hunwind, Option.bind_eq_bind, Option.bind_some, hs, if_neg hle, hclose _ hused]
    cases (st.unwindTo m).closeOnce limit m available
      (if 2 ≤ count ∧ 2 ≤ available then 2 else 1) content below <;> rfl

theorem closeMany_eq_some {t : Token} (ht : t.delimiter? = some m)
    (hc : (t.flanking m).canClose = true) {fuel count : Nat} (ho : st.Opened) (hf : st.Filled m)
    (h : Counted st.stack st.unclosed) :
    closeMany limit m fuel count st = some (State.closeMany limit m fuel count st) := by
  induction fuel generalizing count st with
  | zero => rfl
  | succ fuel ih =>
    rw [closeMany, closeNext_eq_some ho h, State.closeMany]
    cases hn : st.closeNext limit m count with
    | error e => rfl
    | ok result =>
      obtain ⟨used, st₁⟩ := result
      obtain ⟨-, hmoves, htop⟩ := State.closeNext_moves ho hf ht hc hn
      cases used with
      | zero => rfl
      | succ used =>
        have hfilled : st₁.Filled m := (htop (.inl (Nat.succ_ne_zero used))).filled m
        exact ih (hmoves.opened ho) hfilled (hmoves.counted h)

theorem delimiterRun_eq_some {t : Token} (ht : t.delimiter? = some m) {count : Nat}
    (ho : st.Opened) (hf : st.Filled m) (h : Counted st.stack st.unclosed) :
    delimiterRun limit m (t.flanking m) count st =
      some (st.delimiterRun limit m (t.flanking m) count) := by
  have hrest : ∀ {left : Nat} {st₁ : State}, Counted st₁.stack st₁.unclosed →
      (if left = 0 then some (.ok st₁)
        else if (t.flanking m).canOpen then do
          some (.ok (← openEmphasis limit m left st₁))
        else some (.ok (st₁.pushText (String.ofList (List.replicate left m.char))))) =
      some (if left = 0 then .ok st₁
        else if (t.flanking m).canOpen then .ok (st₁.openEmphasis limit m left)
        else (.ok (st₁.pushText (String.ofList (List.replicate left m.char))) :
          Except TooDeep State)) := by
    intro left st₁ h₁
    rw [openEmphasis_eq_some h₁]
    split_ifs <;> rfl
  rw [State.delimiterRun_eq, delimiterRun]
  by_cases hc : (t.flanking m).canClose = true
  · rw [if_pos hc, if_pos hc, closeMany_eq_some ht hc ho hf h]
    cases hclose : State.closeMany limit m count count st with
    | error e => simp only [State.closeEmphasis, hclose]; rfl
    | ok result =>
      obtain ⟨left, st₁⟩ := result
      obtain ⟨-, hmoves, -⟩ := State.closeMany_moves ho hf ht hc hclose
      simp only [State.closeEmphasis, hclose]
      exact hrest (hmoves.counted h)
  · rw [if_neg hc, if_neg hc]
    exact hrest h

theorem closeBracket_eq_some (h : Counted st.stack st.unclosed) (after : List Char) :
    closeBracket limit after st = some (st.closeBracket limit after) := by
  unfold closeBracket State.closeBracket
  split_ifs with hany
  · obtain ⟨image, active, enclosed, content, below, hs⟩ := State.exists_bracket hany
    have hw : Moves limit st [] st.unwindToBracket := State.unwind_moves limit _ _ st
    have hunwind : unwindToBracket st = some st.unwindToBracket := unwind_eq_some _ _ h
    simp only [hunwind, Option.bind_eq_bind, Option.bind_some, hs]
    cases htail : if active then LinkTail.read? after else none with
    | none => simp only [collapse_eq_some (hw.counted h), Option.bind_some]
    | some tail =>
      simp only
      split_ifs
      · rfl
      · cases State.closeLink limit tail content
          { st.unwindToBracket with stack := below, unclosed := enclosed } <;> rfl
  · rfl

/-- **A token is read without a check that fails**, if the parser is ready for it and its
counters are right. -/
theorem step_eq_some {t : Token} {ts : List Token} (hr : st.Ready limit (t :: ts))
    (h : Counted st.stack st.unclosed) (index : Nat) (closer : Option Nat) :
    step limit t index closer ts st = some (st.step limit t index closer ts) := by
  have hrun : ∀ m, t.delimiter? = some m →
      (do
        let flanking := Flanking.between m t.before t.after.head?
        match ← delimiterRun limit m flanking t.lexeme.length st with
        | .ok st => some (.ok (0, st))
        | .error e => some (.error e)) =
      some (do
        let flanking := Flanking.between m t.before t.after.head?
        let st ← st.delimiterRun limit m flanking t.lexeme.length
        (.ok (0, st) : Except TooDeep (Nat × State))) := by
    intro m hm
    have hread : delimiterRun limit m (Flanking.between m t.before t.after.head?)
        t.lexeme.length st =
          some (st.delimiterRun limit m (Flanking.between m t.before t.after.head?)
            t.lexeme.length) :=
      delimiterRun_eq_some hm hr.opened (hr.filled t rfl m hm) h
    simp only [hread]
    cases st.delimiterRun limit m (Flanking.between m t.before t.after.head?)
      t.lexeme.length <;> rfl
  unfold step
  simp only
  split
  · rename_i hk
    rw [State.step]
    simp only [hk]
    exact hrun .star (by simp [Token.delimiter?, hk])
  · rename_i hk
    rw [State.step]
    simp only [hk]
    exact hrun .underscore (by simp [Token.delimiter?, hk])
  · rename_i hk
    rw [openBracket_eq_some h, State.step]
    simp only [hk]
    rfl
  · rename_i hk
    rw [openBracket_eq_some h, State.step]
    simp only [hk]
    rfl
  · rename_i hk
    rw [closeBracket_eq_some h, State.step]
    simp only [hk]
  · rfl

end Checked
end MarkdownHtml
