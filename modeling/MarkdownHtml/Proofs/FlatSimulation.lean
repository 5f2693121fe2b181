/-
# The frame stack reads like the flat list

The parser with its stack of frames, its counters and the depths it keeps returns for
every text and every limit what reading with one flat list returns, nodes or error
(`Inline.parse_eq_flat`).

The list falls apart at its open items: the items behind an open one are what the frame
of that opener has collected, joined (`Matches`). Giving up the innermost frame is then
no step of the list at all. Only the part behind the innermost frame, read as text, grows
by an open item, so while frames are given up the list is matched with that part free to
hold open items that the search passes (the parameter `q`). A counter says whether the
search in the list succeeds (`Counted`).

Key definitions: `Segment`, `Matches`, `Simulates`, `Agrees`.
Key theorems: `Simulates.unwind`, `closeMany_agrees`, `Simulates.openItem`,
`closeBracket_agrees`, `step_agrees`, `run_agrees`, `Inline.parse_eq_flat`.
-/
import MarkdownHtml.Proofs.Counters
import MarkdownHtml.Proofs.FlatReading
import MarkdownHtml.Proofs.Steps

namespace MarkdownHtml

/-- The item an opener is in the flat list. -/
def Opener.item : Opener → Flat.Item
  | .emphasis m count => .run m count
  | .bracket image active _ => .bracket image active

namespace Flat

open InlineParser

theorem isOpen_item (o : Opener) : o.item.isOpen = true := by
  cases o <;> rfl

theorem asNode_item (o : Opener) : o.item.asNode = .text o.literal := by
  rcases o with ⟨m, n⟩ | ⟨_ | _, active, enclosed⟩ <;> rfl

theorem isBracket_item (o : Opener) : o.item.isBracket = o.isBracket := by
  cases o <;> rfl

/-! ### Stacks and lists -/

/-- The content has collected the items, newest first, and `q` holds of none of them. -/
structure Segment (q : Item → Bool) (c : Content) (items : List Item) : Prop where
  clear : ∀ i ∈ items, q i = false
  holds : c.Holds (items.reverse.map Item.asNode)

/-- `Matches q root stack items`: cut at the openers of the frames, the items are what the
frames and the root have collected. Frames below the innermost have collected no open
items, the innermost none that satisfies `q`. -/
def Matches (q : Item → Bool) (root : Content) : List Frame → List Item → Prop
  | [], items => Segment q root items
  | f :: below, items => ∃ after before, items = after ++ f.opener.item :: before ∧
      Segment q f.content after ∧ Matches Item.isOpen root below before

theorem Segment.toList {q : Item → Bool} {c : Content} {items : List Item}
    (h : Segment q c items) : c.toList = nodes items :=
  h.holds.toList

theorem Segment.depth {q : Item → Bool} {c : Content} {items : List Item}
    (h : Segment q c items) : c.depth = Inline.nesting (nodes items) := by
  rw [h.holds.depth, nodes, Inline.nesting_joinText]

theorem Segment.weaken {q : Item → Bool} {c : Content} {items : List Item}
    (hq : ∀ i, q i = true → i.isOpen = true) (h : Segment Item.isOpen c items) :
    Segment q c items := by
  refine ⟨fun i hi => ?_, h.holds⟩
  rw [Bool.eq_false_iff]
  intro hi'
  exact absurd (hq i hi') (by simp [h.clear i hi])

theorem Segment.pushText {c : Content} {items : List Item} (h : Segment Item.isOpen c items)
    (s : String) : Segment Item.isOpen (c.pushText s) (.node (.text s) :: items) where
  clear i hi := by
    rcases List.mem_cons.mp hi with rfl | hi
    · rfl
    · exact h.clear i hi
  holds := by simpa [Item.asNode] using h.holds.pushText s

theorem Segment.push {c : Content} {items : List Item} (h : Segment Item.isOpen c items)
    {n : Inline} (hn : n.isText = false) :
    Segment Item.isOpen (c.push n (Inline.depth n)) (.node n :: items) where
  clear i hi := by
    rcases List.mem_cons.mp hi with rfl | hi
    · rfl
    · exact h.clear i hi
  holds := by simpa [Item.asNode] using h.holds.push hn

/-- A frame that is given up: its opener is one more item that is read as text. -/
theorem Segment.flatten {q : Item → Bool} {f : Frame} {c : Content} {after before : List Item}
    (hf : Segment q f.content after) (ho : q f.opener.item = false) (hc : Segment q c before) :
    Segment q (f.flatten c) (after ++ f.opener.item :: before) where
  clear i hi := by
    rcases List.mem_append.mp hi with hi | hi
    · exact hf.clear i hi
    · rcases List.mem_cons.mp hi with rfl | hi
      · exact ho
      · exact hc.clear i hi
  holds := by simpa [asNode_item, Frame.flatten] using hc.holds.absorb hf.holds f.opener.literal

theorem Matches.weaken {q : Item → Bool} {root : Content} {stack : List Frame}
    {items : List Item} (hq : ∀ i, q i = true → i.isOpen = true)
    (h : Matches Item.isOpen root stack items) : Matches q root stack items := by
  cases stack with
  | nil => exact Segment.weaken hq h
  | cons f below =>
    obtain ⟨after, before, rfl, hs, hb⟩ := h
    exact ⟨after, before, rfl, hs.weaken hq, hb⟩

/-- As many items are open as frames. -/
theorem Matches.countP_isOpen {root : Content} {stack : List Frame} {items : List Item}
    (h : Matches Item.isOpen root stack items) : items.countP Item.isOpen = stack.length := by
  have hclear : ∀ {c : Content} {is : List Item}, Segment Item.isOpen c is →
      is.countP Item.isOpen = 0 := by
    intro c is hs
    refine List.countP_eq_zero.mpr fun i hi => ?_
    simp [hs.clear i hi]
  induction stack generalizing items with
  | nil => exact hclear h
  | cons f below ih =>
    obtain ⟨after, before, rfl, hs, hb⟩ := h
    rw [List.countP_append, hclear hs, List.countP_cons, ih hb, isOpen_item]
    simp

/-- What is not counted does not matter. -/
theorem Matches.of_uncounted {q : Item → Bool} {root : Content} {stack stack' : List Frame}
    {items : List Item} (he : stack'.map Frame.uncounted = stack.map Frame.uncounted)
    (h : Matches q root stack items) : Matches q root stack' items := by
  have hitem : ∀ {f g : Frame}, f.uncounted = g.uncounted →
      f.opener.item = g.opener.item ∧ f.content = g.content := by
    intro f g hfg
    obtain ⟨o, c⟩ := f
    obtain ⟨o', c'⟩ := g
    obtain ⟨ho, rfl⟩ := Frame.mk.inj hfg
    refine ⟨?_, rfl⟩
    cases o <;> cases o' <;> simp_all [Opener.uncounted, Opener.item]
  induction stack generalizing stack' items q with
  | nil =>
    obtain rfl : stack' = [] := by simpa using he
    exact h
  | cons f below ih =>
    cases stack' with
    | nil => exact absurd he (by simp)
    | cons g below' =>
      obtain ⟨hgf, he⟩ := List.cons.inj he
      obtain ⟨hi, hc⟩ := hitem hgf
      obtain ⟨after, before, rfl, hs, hb⟩ := h
      exact ⟨after, before, by rw [hi], hc ▸ hs, ih he hb⟩

/-- The parser in state `st` has read what the flat list holds. -/
structure Simulates (q : Item → Bool) (st : State) (items : List Item) : Prop where
  matched : Matches q st.root st.stack items
  counted : Counted st.stack st.unclosed

namespace Simulates

theorem onTop {st : State} {items : List Item} {i : Item} {f : Content → Content}
    (h : Simulates Item.isOpen st items)
    (hf : ∀ c seg, Segment Item.isOpen c seg → Segment Item.isOpen (f c) (i :: seg)) :
    Simulates Item.isOpen (st.onTop f) (i :: items) := by
  refine ⟨?_, h.counted.onTop f⟩
  obtain ⟨root, _ | ⟨⟨o, c⟩, below⟩, unclosed, dropped⟩ := st
  · exact hf root items h.matched
  · obtain ⟨after, before, rfl, hs, hb⟩ := h.matched
    exact ⟨i :: after, before, rfl, hf c after hs, hb⟩

theorem pushText {st : State} {items : List Item} (h : Simulates Item.isOpen st items)
    (s : String) : Simulates Item.isOpen (st.pushText s) (.node (.text s) :: items) :=
  h.onTop fun _ _ hs => hs.pushText s

theorem push {st : State} {items : List Item} (h : Simulates Item.isOpen st items) {n : Inline}
    {depth : Nat} (hn : n.isText = false) (hd : depth = Inline.depth n) :
    Simulates Item.isOpen (st.push n depth) (.node n :: items) := by
  subst hd
  exact h.onTop fun _ _ hs => hs.push hn

/-! ### Giving up frames -/

/-- Giving up the innermost frame changes nothing in the list. -/
theorem collapse {q : Item → Bool} {st : State} {items : List Item}
    (hq : ∀ i, q i = true → i.isOpen = true) (h : Simulates q st items)
    (ho : ∀ f ∈ st.stack.head?, q f.opener.item = false) : Simulates q st.collapse items := by
  refine ⟨?_, h.counted.collapse⟩
  obtain ⟨root, _ | ⟨f, _ | ⟨⟨o, c⟩, below⟩⟩, unclosed, dropped⟩ := st
  · exact h.matched
  · obtain ⟨after, before, rfl, hs, hb⟩ := h.matched
    exact hs.flatten (ho f rfl) (Segment.weaken hq hb)
  · obtain ⟨after, _, rfl, hs, after', before, rfl, hs', hb⟩ := h.matched
    refine ⟨after ++ f.opener.item :: after', before, by simp, ?_, hb⟩
    exact hs.flatten (ho f rfl) (hs'.weaken hq)

theorem unwind {p : Opener → Bool} {q : Item → Bool} {st : State} {items : List Item}
    (hpq : ∀ o, p o = q o.item) (hq : ∀ i, q i = true → i.isOpen = true)
    (h : Simulates q st items) (n : Nat) : Simulates q (st.unwind p n) items := by
  induction n generalizing st with
  | zero => exact h
  | succ n ih =>
    unfold State.unwind
    split
    · exact h
    · rename_i f below hst
      split_ifs with hp
      · exact h
      · refine ih (h.collapse hq fun g hg => ?_)
        obtain rfl : f = g := by simpa [hst] using hg
        rw [← hpq]
        simpa using hp

end Simulates

/-! ### Searching -/

theorem takeWhile_cut {q : Item → Bool} {after before : List Item} {i : Item}
    (h : ∀ j ∈ after, q j = false) (hi : q i = true) :
    (after ++ i :: before).takeWhile (fun j => !q j) = after := by
  rw [List.takeWhile_append_of_pos (by simpa using h)]
  simp [hi]

theorem dropWhile_cut {q : Item → Bool} {after before : List Item} {i : Item}
    (h : ∀ j ∈ after, q j = false) (hi : q i = true) :
    (after ++ i :: before).dropWhile (fun j => !q j) = i :: before := by
  rw [List.dropWhile_append_of_pos (by simpa using h)]
  simp [hi]

theorem dropWhile_clear {q : Item → Bool} {items : List Item} (h : ∀ j ∈ items, q j = false) :
    items.dropWhile (fun j => !q j) = [] :=
  List.dropWhile_eq_nil_iff.mpr (by simpa using h)

theorem stops_isOpen (m : Delimiter) (i : Item) (h : i.stops m = true) : i.isOpen = true := by
  cases i <;> first | rfl | exact absurd h (by simp [Item.stops])

theorem Simulates.unwindTo {m : Delimiter} {st : State} {items : List Item}
    (h : Simulates Item.isOpen st items) : Simulates (Item.stops m) (st.unwindTo m) items := by
  have hw : Simulates (Item.stops m) st items :=
    ⟨h.matched.weaken (stops_isOpen m), h.counted⟩
  refine hw.unwind (fun o => ?_) (stops_isOpen m) _
  cases o with
  | emphasis k n => simp [Opener.item, Item.stops, beq_eq_decide]
  | bracket => rfl

/-- A count of zero: the list has no open run to find. -/
theorem Simulates.lastRun?_eq_none {m : Delimiter} {st : State} {items : List Item}
    (h : Simulates Item.isOpen st items) (hc : st.unclosed.get m = 0) :
    lastRun? m items = none := by
  have hw := h.unwindTo (m := m)
  have hh := st.head_unwindTo m
  have hc' : (st.unwindTo m).unclosed.get m = 0 := by rw [State.get_unclosed_unwindTo, hc]
  obtain ⟨hm, hcount⟩ := hw
  generalize (st.unwindTo m).stack = stack at hm hcount hh
  cases stack with
  | nil => rw [lastRun?, dropWhile_clear hm.clear]
  | cons f below =>
    obtain ⟨o, content⟩ := f
    obtain ⟨after, before, rfl, hs, hb⟩ := hm
    rcases hh ⟨o, content⟩ rfl with hbr | ⟨n, hn⟩
    · cases o with
      | emphasis => exact absurd hbr (by simp [Opener.isBracket])
      | bracket image active enclosed =>
        rw [lastRun?, dropWhile_cut hs.clear rfl]
        rfl
    · obtain rfl : o = .emphasis m n := hn
      exact absurd hc' hcount.get_ne_zero_of_head

/-- A count that is not zero: the innermost frame, once unwound to it, is the run that the
search in the list finds. -/
theorem Simulates.lastRun?_eq_some {m : Delimiter} {st : State} {items : List Item}
    (h : Simulates Item.isOpen st items) (hc : st.unclosed.get m ≠ 0) :
    ∃ available content below after before,
      (st.unwindTo m).stack = ⟨.emphasis m available, content⟩ :: below ∧
      lastRun? m items = some (after, available, before) ∧
      Segment (Item.stops m) content after ∧
      Matches Item.isOpen (st.unwindTo m).root below before := by
  have hw := h.unwindTo (m := m)
  obtain ⟨available, content, below, hst⟩ := h.counted.exists_run hc
  have hm := hw.matched
  rw [hst] at hm
  obtain ⟨after, before, rfl, hs, hb⟩ := hm
  refine ⟨available, content, below, after, before, hst, ?_, hs, hb⟩
  have hstop : Item.stops m (Opener.emphasis m available).item = true := by
    simp [Opener.item, Item.stops]
  rw [lastRun?, dropWhile_cut hs.clear hstop, takeWhile_cut hs.clear hstop]
  rfl

/-! ### Closing delimiters -/

/-- Two results agree: both are values that `R` relates, or both the error that nesting is
too deep. -/
def Agrees {α β : Type} (limits : Limits) (R : α → β → Prop) :
    Except TooDeep α → Except ConversionError β → Prop
  | .ok a, .ok b => R a b
  | .error _, .error e => e = limits.nestingError
  | _, _ => False

/-- A number is the same on both sides, and the state simulates the list. -/
def Alike (a : Nat × State) (b : Nat × List Item) : Prop :=
  a.1 = b.1 ∧ Simulates Item.isOpen a.2 b.2

theorem closeOnce_agrees (limits : Limits) {m : Delimiter} {available : Nat} (used : Nat)
    {content : Content} {below : List Frame} {st : State} {after before : List Item}
    (hst : st.stack = ⟨.emphasis m available, content⟩ :: below)
    (hs : Segment (Item.stops m) content after) (hb : Matches Item.isOpen st.root below before)
    (hc : Counted st.stack st.unclosed) :
    Agrees limits (Simulates Item.isOpen)
      (st.closeOnce limits.maxNesting m available used content below)
      (wrap limits m available used (nodes after) before) := by
  have hd : content.depth + 1 = 1 + Inline.nesting (nodes after) := by
    rw [hs.depth, Nat.add_comm]
  rw [hst] at hc
  obtain ⟨d, hcd, hu⟩ := id hc
  unfold State.closeOnce wrap
  rw [hs.toList, hd]
  simp only [State.emphasisNode]
  generalize hn : (if used = 2 then Inline.strong (nodes after) else .emphasis (nodes after)) = node
  have hnode : node.isText = false ∧ Inline.depth node = 1 + Inline.nesting (nodes after) := by
    subst hn
    split_ifs <;> exact ⟨rfl, by rw [Inline.depth, Nat.add_comm]; rfl⟩
  split_ifs with hdeep hall
  · rfl
  · -- the run is used up
    have hbelow : Simulates Item.isOpen
        { st with stack := below, unclosed := st.unclosed.decrement m } before := by
      refine ⟨hb, ?_⟩
      rw [hu, Counts.decrement_increment]
      exact hcd
    exact hbelow.push hnode.1 hnode.2.symm
  · -- the node is all that stands behind what is left of the run
    refine ⟨⟨[.node node], before, rfl, ⟨by simp [Item.isOpen], ?_, ?_⟩, hb⟩, d, hcd, hu⟩
    · simp [Content.toList, Item.asNode, Inline.joinText_cons_of_not_text hnode.1, Inline.joinText]
    · simp [Item.asNode, hnode.2]

/-- Where a run is open for the closing delimiters, both sides close the same one. -/
theorem closeNext_agrees (limits : Limits) {m : Delimiter} {count available : Nat} {st : State}
    {items after before : List Item} (h : Simulates Item.isOpen st items) (hn : count ≠ 0)
    (hl : lastRun? m items = some (after, available, before)) :
    Agrees limits Alike (st.closeNext limits.maxNesting m count)
      ((wrap limits m available (if 2 ≤ count ∧ 2 ≤ available then 2 else 1) (nodes after)
        before).map fun items => (if 2 ≤ count ∧ 2 ≤ available then 2 else 1, items)) := by
  have hc : st.unclosed.get m ≠ 0 := fun hc => by simp [h.lastRun?_eq_none hc] at hl
  obtain ⟨available', content, below, after', before', hst, hl', hs, hb⟩ := h.lastRun?_eq_some hc
  obtain ⟨rfl, rfl, rfl⟩ : after' = after ∧ available' = available ∧ before' = before := by
    simpa using hl'.symm.trans hl
  have hw := (h.unwindTo (m := m)).counted
  unfold State.closeNext
  rw [if_neg (by simp [hn, hc])]
  generalize hu : (if 2 ≤ count ∧ 2 ≤ available' then 2 else 1) = used
  have hone := closeOnce_agrees limits used hst hs hb hw
  simp only [hst, hu]
  revert hone
  cases (st.unwindTo m).closeOnce limits.maxNesting m available' used content below with
  | error e => cases wrap limits m available' used (nodes after') before' <;> exact id
  | ok st' =>
    cases wrap limits m available' used (nodes after') before' with
    | error e => exact id
    | ok items' => exact fun hsim => ⟨rfl, hsim⟩

/-- Closing as often as there is a partner; the parser's bound on how often is never
reached. -/
theorem closeMany_agrees (limits : Limits) {m : Delimiter} {fuel count : Nat} {st : State}
    {items : List Item} (hle : count ≤ fuel) (h : Simulates Item.isOpen st items) :
    Agrees limits Alike (State.closeMany limits.maxNesting m fuel count st)
      (close limits m count items) := by
  induction fuel generalizing count st items with
  | zero =>
    obtain rfl : count = 0 := by omega
    rw [close]
    exact ⟨rfl, h⟩
  | succ fuel ih =>
    rw [close]
    unfold State.closeMany
    by_cases hn : count = 0
    · subst hn
      simp only [State.closeNext, true_or, if_true, dif_pos]
      exact ⟨rfl, h⟩
    rw [dif_neg hn]
    cases hl : lastRun? m items with
    | none =>
      have hc : st.unclosed.get m = 0 := by
        by_contra hc
        obtain ⟨_, _, _, _, _, -, hl', -⟩ := h.lastRun?_eq_some hc
        exact absurd (hl.symm.trans hl') (by simp)
      simp only [State.closeNext, hc, or_true, if_true]
      exact ⟨rfl, h⟩
    | some found =>
      obtain ⟨after, available, before⟩ := found
      have hnext := closeNext_agrees limits h hn hl
      have hpos : (if 2 ≤ count ∧ 2 ≤ available then 2 else 1) ≠ 0 := by split_ifs <;> simp
      simp only
      generalize (if 2 ≤ count ∧ 2 ≤ available then 2 else 1) = used at hnext hpos ⊢
      revert hnext
      cases wrap limits m available used (nodes after) before with
      | error e =>
        cases st.closeNext limits.maxNesting m count with
        | error e' => exact id
        | ok r => exact False.elim
      | ok items' =>
        cases st.closeNext limits.maxNesting m count with
        | error e' => exact False.elim
        | ok r =>
          obtain ⟨n, st'⟩ := r
          rintro ⟨rfl, hsim⟩
          cases n with
          | zero => exact absurd rfl hpos
          | succ n => exact ih (by omega) hsim

/-! ### Items that become text -/

@[simp] theorem asNode_literal (i : Item) : i.literal.asNode = i.asNode := rfl

theorem map_literal_of_clear {items : List Item} (h : ∀ i ∈ items, i.isOpen = false) :
    items.map Item.literal = items := by
  nth_rewrite 2 [← List.map_id items]
  refine List.map_congr_left fun i hi => ?_
  cases i with
  | node n => rfl
  | _ => exact absurd (h _ hi) (by simp [Item.isOpen])

/-- A frame that is given up for good: its opener, and what is still open behind it, is
text. -/
theorem Segment.flattenLiteral {q : Item → Bool} {f : Frame} {c : Content}
    {after before : List Item} (hf : Segment q f.content after)
    (hc : Segment Item.isOpen c before) :
    Segment Item.isOpen (f.flatten c)
      (after.map Item.literal ++ f.opener.item.literal :: before) where
  clear i hi := by
    rcases List.mem_append.mp hi with hi | hi
    · obtain ⟨j, -, rfl⟩ := List.mem_map.mp hi
      rfl
    · rcases List.mem_cons.mp hi with rfl | hi
      · rfl
      · exact hc.clear i hi
  holds := by
    have hnodes : Item.asNode ∘ Item.literal = Item.asNode := rfl
    have habsorb := hc.holds.absorb hf.holds f.opener.literal
    simpa [hnodes, asNode_item, Frame.flatten] using habsorb

theorem literalOldest_append {items older : List Item} (h : older.any Item.isOpen = true) :
    literalOldest (items ++ older) = items ++ literalOldest older := by
  induction items with
  | nil => rfl
  | cons i items ih =>
    rw [List.cons_append, literalOldest, if_pos (by simp [List.any_append, h]), ih]
    rfl

/-- The oldest frame is given up, and the oldest open item becomes text. -/
theorem Matches.oldest {root : Content} {above : List Frame} {oldest : Frame}
    {items : List Item} (h : Matches Item.isOpen root (above ++ [oldest]) items) :
    Matches Item.isOpen (oldest.flatten root) above (literalOldest items) := by
  have hopen : ∀ (o : Opener) (before : List Item),
      (o.item :: before).any Item.isOpen = true := by
    intro o before
    simp [isOpen_item]
  induction above generalizing items with
  | nil =>
    obtain ⟨after, before, rfl, hs, hb⟩ := h
    have hb' : Segment Item.isOpen root before := hb
    rw [literalOldest_append (hopen _ _), literalOldest, if_neg (by simpa using hb'.clear)]
    have hjoin := hs.flattenLiteral hb'
    rwa [map_literal_of_clear hs.clear] at hjoin
  | cons f above ih =>
    obtain ⟨after, before, rfl, hs, hb⟩ := h
    have hany : before.any Item.isOpen = true := by
      have hcount := hb.countP_isOpen
      rw [List.any_eq_true]
      refine List.countP_pos_iff.mp ?_
      simp [hcount]
    refine ⟨after, literalOldest before, ?_, hs, ih hb⟩
    rw [literalOldest_append (hopen _ _), literalOldest, if_pos hany]

namespace Simulates

theorem dropOldest {st : State} {items : List Item} (h : Simulates Item.isOpen st items)
    (hn : st.stack ≠ []) : Simulates Item.isOpen st.dropOldest (literalOldest items) := by
  refine ⟨?_, h.counted.dropOldest⟩
  obtain ⟨above, oldest, ha⟩ := State.exists_oldest hn
  obtain ⟨hroot, hstack⟩ := State.dropOldest_spec ha
  have hm := h.matched
  rw [ha] at hm
  rw [hroot]
  exact hm.oldest.of_uncounted hstack

theorem reserve {st : State} {items : List Item} (limit : Nat)
    (h : Simulates Item.isOpen st items) :
    Simulates Item.isOpen (st.reserve limit)
      (if items.countP Item.isOpen < max 1 limit then items else literalOldest items) := by
  unfold State.reserve
  rw [h.matched.countP_isOpen]
  split_ifs with hl
  · exact h
  · refine h.dropOldest fun hs => ?_
    simp [hs] at hl

/-- What a new frame has collected. -/
theorem segment_empty : Segment Item.isOpen {} [] := ⟨by simp, Content.holds_empty⟩

theorem openEmphasis {st : State} {items : List Item} (limits : Limits)
    (h : Simulates Item.isOpen st items) (m : Delimiter) (count : Nat) :
    Simulates Item.isOpen (st.openEmphasis limits.maxNesting m count)
      (openItem limits (.run m count) items) := by
  have hr := h.reserve limits.maxNesting
  exact ⟨⟨[], _, rfl, segment_empty, hr.matched⟩, _, hr.counted, rfl⟩

theorem openBracket {st : State} {items : List Item} (limits : Limits)
    (h : Simulates Item.isOpen st items) (image : Bool) :
    Simulates Item.isOpen (st.openBracket limits.maxNesting image)
      (openItem limits (.bracket image true) items) := by
  have hr := h.reserve limits.maxNesting
  exact ⟨⟨[], _, rfl, segment_empty, hr.matched⟩, rfl, hr.counted⟩

end Simulates

theorem delimiterRun_agrees (limits : Limits) (m : Delimiter) (flanking : Flanking) (count : Nat)
    {st : State} {items : List Item} (h : Simulates Item.isOpen st items) :
    Agrees limits (Simulates Item.isOpen)
      (st.delimiterRun limits.maxNesting m flanking count)
      (delimiterRun limits m flanking count items) := by
  have hclose : Agrees limits Alike
      (if flanking.canClose then st.closeEmphasis limits.maxNesting m count else .ok (count, st))
      (if flanking.canClose then close limits m count items else .ok (count, items)) := by
    split_ifs
    · exact closeMany_agrees limits (Nat.le_refl count) h
    · exact ⟨rfl, h⟩
  rw [State.delimiterRun_eq, delimiterRun]
  revert hclose
  generalize (if flanking.canClose then st.closeEmphasis limits.maxNesting m count
    else .ok (count, st)) = left
  generalize (if flanking.canClose then close limits m count items else .ok (count, items)) = right
  intro hclose
  cases left with
  | error e =>
    cases right with
    | error e' => exact hclose
    | ok r => exact hclose.elim
  | ok l =>
    cases right with
    | error e' => exact hclose.elim
    | ok r =>
      obtain ⟨n, st'⟩ := l
      obtain ⟨n', items'⟩ := r
      obtain ⟨rfl, hsim⟩ : n = n' ∧ Simulates Item.isOpen st' items' := hclose
      simp only
      split_ifs
      · exact hsim
      · exact hsim.openEmphasis limits m n
      · exact hsim.pushText _

/-! ### Brackets -/

theorem isBracket_isOpen (i : Item) (h : i.isBracket = true) : i.isOpen = true := by
  cases i <;> first | rfl | exact absurd h (by simp [Item.isBracket])

/-- The brackets of the list are those of the stack. -/
theorem Matches.clear_of_no_bracket {root : Content} {stack : List Frame} {items : List Item}
    (h : Matches Item.isOpen root stack items)
    (hn : stack.any (fun f => f.opener.isBracket) = false) :
    ∀ i ∈ items, i.isBracket = false := by
  have hclear : ∀ {c : Content} {is : List Item}, Segment Item.isOpen c is →
      ∀ i ∈ is, i.isBracket = false := fun hs => (hs.weaken isBracket_isOpen).clear
  induction stack generalizing items with
  | nil => exact hclear h
  | cons f below ih =>
    obtain ⟨after, before, rfl, hs, hb⟩ := h
    rw [List.any_cons, Bool.or_eq_false_iff] at hn
    intro i hi
    rcases List.mem_append.mp hi with hi | hi
    · exact hclear hs i hi
    · rcases List.mem_cons.mp hi with rfl | hi
      · rw [isBracket_item]
        exact hn.1
      · exact ih hb hn.2 i hi

/-- Unwinding to a bracket stops at the one that the search in the list finds. -/
theorem Simulates.exists_bracket {st : State} {items : List Item}
    (h : Simulates Item.isOpen st items)
    (hn : st.stack.any (fun f => f.opener.isBracket) = true) :
    ∃ image active enclosed content below after before,
      st.unwindToBracket.stack = ⟨.bracket image active enclosed, content⟩ :: below ∧
      items = after ++ .bracket image active :: before ∧
      Segment Item.isBracket content after ∧
      Matches Item.isOpen st.unwindToBracket.root below before ∧
      Counted st.unwindToBracket.stack st.unwindToBracket.unclosed := by
  have hw : Simulates Item.isBracket st.unwindToBracket items := by
    have hst : Simulates Item.isBracket st items :=
      ⟨h.matched.weaken isBracket_isOpen, h.counted⟩
    exact hst.unwind (fun o => (isBracket_item o).symm) isBracket_isOpen _
  obtain ⟨image, active, enclosed, content, below, hst⟩ := State.exists_bracket hn
  have hm := hw.matched
  rw [hst] at hm
  obtain ⟨after, before, rfl, hs, hb⟩ := hm
  exact ⟨image, active, enclosed, content, below, after, before, hst, rfl, hs, hb, hw.counted⟩

/-- A frame that is given up for good. -/
theorem simulates_collapse {q : Item → Bool} {st : State} {f : Frame} {below : List Frame}
    {after before : List Item} (hst : st.stack = f :: below) (hs : Segment q f.content after)
    (hb : Matches Item.isOpen st.root below before) (hc : Counted st.stack st.unclosed) :
    Simulates Item.isOpen st.collapse
      (after.map Item.literal ++ f.opener.item.literal :: before) := by
  refine ⟨?_, hc.collapse⟩
  obtain ⟨root, stack, unclosed, dropped⟩ := st
  obtain rfl : stack = f :: below := hst
  obtain _ | ⟨⟨o, c⟩, below⟩ := below
  · exact hs.flattenLiteral hb
  · obtain ⟨after', before, rfl, hs', hb⟩ := hb
    refine ⟨_, before, ?_, hs.flattenLiteral hs', hb⟩
    simp

theorem item_deactivate (f : Frame) :
    (State.deactivate f).opener.item = f.opener.item.deactivate ∧
      (State.deactivate f).content = f.content := by
  obtain ⟨o, c⟩ := f
  rcases o with ⟨m, n⟩ | ⟨_ | _, active, enclosed⟩ <;> exact ⟨rfl, rfl⟩

theorem Matches.deactivate {root : Content} {stack : List Frame} {items : List Item}
    (h : Matches Item.isOpen root stack items) :
    Matches Item.isOpen root (stack.map State.deactivate) (items.map Item.deactivate) := by
  -- finished nodes stay as they are
  have hseg : ∀ {c : Content} {is : List Item}, Segment Item.isOpen c is →
      Segment Item.isOpen c (is.map Item.deactivate) := by
    intro c is hs
    have hid : is.map Item.deactivate = is := by
      nth_rewrite 2 [← List.map_id is]
      refine List.map_congr_left fun i hi => ?_
      cases i with
      | node n => rfl
      | _ => exact absurd (hs.clear _ hi) (by simp [Item.isOpen])
    rwa [hid]
  induction stack generalizing items with
  | nil => exact hseg h
  | cons f below ih =>
    obtain ⟨after, before, rfl, hs, hb⟩ := h
    obtain ⟨hi, hc⟩ := item_deactivate f
    refine ⟨after.map Item.deactivate, before.map Item.deactivate, ?_, ?_, ih hb⟩
    · rw [hi]
      simp
    · rw [hc]
      exact hseg hs

theorem closeBracket_agrees (limits : Limits) {text : List Char} {st : State} {items : List Item}
    (h : Simulates Item.isOpen st items) :
    Agrees limits Alike (st.closeBracket limits.maxNesting text)
      (closeBracket limits text items) := by
  unfold State.closeBracket
  by_cases hany : st.stack.any (fun f => f.opener.isBracket) = true
  · obtain ⟨image, active, enclosed, content, below, after, before, hst, rfl, hs, hb, hc⟩ :=
      h.exists_bracket hany
    have hcol := simulates_collapse hst hs hb hc
    have hbr : Item.isBracket (.bracket image active) = true := rfl
    rw [if_pos hany]
    simp only [closeBracket, takeWhile_cut hs.clear hbr, dropWhile_cut hs.clear hbr]
    generalize st.unwindToBracket = st₁ at hst hb hc hcol
    rw [hst] at hc ⊢
    have hd : content.depth + 1 = 1 + Inline.nesting (nodes after) := by
      rw [hs.depth, Nat.add_comm]
    simp only
    cases (if active = true then LinkTail.read? text else none) with
    | none => exact ⟨rfl, hcol.pushText "]"⟩
    | some tail =>
      simp only
      cases image with
      | true =>
        have hbelow : Simulates Item.isOpen { st₁ with stack := below, unclosed := enclosed }
            before := ⟨hb, hc.2⟩
        simp only [if_true, State.closeImage, hs.toList]
        exact ⟨rfl, hbelow.push rfl rfl⟩
      | false =>
        simp only [Bool.false_eq_true, if_false, State.closeLink, hs.toList, hd]
        split_ifs with hdeep
        · rfl
        · have hbelow : Simulates Item.isOpen
              { st₁ with stack := below.map State.deactivate, unclosed := enclosed }
              (before.map Item.deactivate) := ⟨hb.deactivate, hc.2.map_deactivate⟩
          refine ⟨rfl, hbelow.push rfl ?_⟩
          rw [Inline.depth, Nat.add_comm]
          rfl
  · have hclear := h.matched.clear_of_no_bracket (by simpa using hany)
    rw [if_neg hany]
    simp only [closeBracket, dropWhile_clear hclear]
    exact ⟨rfl, h.pushText "]"⟩

/-! ### Whole texts -/

theorem backticks_alike {t : Token} {index : Nat} {rest : List Token} {st : State}
    {items : List Item} (h : Simulates Item.isOpen st items) :
    Alike (st.backticks t index ((CodeSpan.closer? t rest).map (index + 1 + ·)) rest)
      (backticks t rest items) := by
  unfold State.backticks backticks
  cases CodeSpan.closer? t rest with
  | none => exact ⟨rfl, h.pushText _⟩
  | some n =>
    simp only [Option.map_some, show index + 1 + n - index - 1 = n by omega]
    exact ⟨rfl, h.push rfl rfl⟩

/-- **One token.** Whatever the token, the parser and the flat list do the same. -/
theorem step_agrees (limits : Limits) (t : Token) (index : Nat) (rest : List Token) {st : State}
    {items : List Item} (h : Simulates Item.isOpen st items) :
    Agrees limits Alike
      (st.step limits.maxNesting t index ((CodeSpan.closer? t rest).map (index + 1 + ·)) rest)
      (step limits t rest items) := by
  have hrun : ∀ (m : Delimiter) (flanking : Flanking) (count : Nat),
      Agrees limits Alike
        (do
          let st ← st.delimiterRun limits.maxNesting m flanking count
          .ok (0, st))
        ((delimiterRun limits m flanking count items).map (0, ·)) := by
    intro m flanking count
    have hd := delimiterRun_agrees limits m flanking count h
    revert hd
    cases st.delimiterRun limits.maxNesting m flanking count with
    | error e => cases delimiterRun limits m flanking count items <;> exact id
    | ok st' =>
      cases delimiterRun limits m flanking count items with
      | error e => exact id
      | ok items' => exact fun hsim => ⟨rfl, hsim⟩
  unfold State.step step
  cases t.kind with
  | backticks => exact backticks_alike h
  | stars => exact hrun _ _ _
  | underscores => exact hrun _ _ _
  | imageOpen => exact ⟨rfl, h.openBracket limits true⟩
  | leftBracket => exact ⟨rfl, h.openBracket limits false⟩
  | rightBracket => exact closeBracket_agrees limits h
  | hardBreak => exact ⟨rfl, h.push rfl rfl⟩
  | _ => exact ⟨rfl, h.pushText _⟩

/-- **Any run.** From a state that simulates the list, reading any tokens keeps it so, or is
too deep on both sides. -/
theorem run_agrees (limits : Limits) (index resume : Nat) (ts : List Token) {st : State}
    {items : List Item} (h : Simulates Item.isOpen st items) :
    Agrees limits (Simulates Item.isOpen)
      (InlineParser.run limits.maxNesting index resume st ts (CodeSpan.closersFrom index ts))
      (run limits resume items ts) := by
  induction ts generalizing index resume st items with
  | nil => exact h
  | cons t ts ih =>
    rw [CodeSpan.closersFrom, InlineParser.run, run]
    split_ifs
    · exact ih _ _ h
    · have hs := step_agrees limits t index ts h
      revert hs
      cases st.step limits.maxNesting t index
          ((CodeSpan.closer? t ts).map (index + 1 + ·)) ts with
      | error e =>
        cases step limits t ts items with
        | error e' => exact id
        | ok r => exact False.elim
      | ok l =>
        cases step limits t ts items with
        | error e' => exact False.elim
        | ok r =>
          obtain ⟨more, st'⟩ := l
          obtain ⟨more', items'⟩ := r
          rintro ⟨rfl, hsim⟩
          exact ih _ _ hsim

/-- Giving up all frames changes nothing in the list. -/
theorem Simulates.finish {st : State} {items : List Item} (h : Simulates Item.isOpen st items) :
    st.finish = nodes items := by
  have hany : ∀ n, Simulates (fun _ => false) (st.collapseMany n) items := by
    have hst : Simulates (fun _ => false) st items := ⟨h.matched.weaken (by simp), h.counted⟩
    intro n
    clear h
    induction n generalizing st with
    | zero => exact hst
    | succ n ih => exact ih (hst.collapse (by simp) (by simp))
  have hm := (hany st.stack.length).matched
  rw [State.stack_collapseMany_length] at hm
  exact Segment.toList hm

theorem simulates_start : Simulates Item.isOpen {} [] :=
  ⟨⟨by simp, Content.holds_empty⟩, rfl⟩

end Flat

/-- **The frame stack refines the flat list.** For every text and every limit, reading with
frames, counters and kept depths gives the nodes that reading with one flat list gives, or
fails as it does. -/
theorem Inline.parse_eq_flat (limits : Limits) (text : List Char) :
    Inline.parse limits text = Flat.parse limits text := by
  have hrun := Flat.run_agrees limits 0 0 (Token.ofText text) Flat.simulates_start
  simp only [Inline.parse, Inline.read, Flat.parse]
  rw [CodeSpan.closers_eq_closersFrom]
  revert hrun
  cases InlineParser.run limits.maxNesting 0 0 {} (Token.ofText text)
      (CodeSpan.closersFrom 0 (Token.ofText text)) with
  | error e =>
    cases Flat.run limits 0 [] (Token.ofText text) with
    | error e' =>
      intro he
      exact congrArg Except.error he.symm
    | ok items => exact False.elim
  | ok st =>
    cases Flat.run limits 0 [] (Token.ofText text) with
    | error e' => exact False.elim
    | ok items =>
      intro hsim
      exact congrArg Except.ok hsim.finish

end MarkdownHtml
