/-
# List levels are ordered by their columns

Every open list level has its marker to the left of its text, and starts where the text of the
level below it does or further right (`ListStack.Ordered`). Placing a marker takes levels off
the stack with two tests: a level stays if its text does not lie to the right of the marker,
and is the last one to go if its own marker does not. On an ordered stack the second test says
nothing new. What stays are just the levels whose text does not lie to the right of the marker
(`ListStack.Ordered.unwind_eq`), and their number is the depth of the item.

The stack is ordered in every state that the builder reaches, between lines and within them
(`Builder.Reachable`): it is emptied or a level is placed on it, and a marker that is read is
at least one wide.

Key definitions: `ListStack.Ordered`, `ListStack.Kept`, `Builder.Reachable`.
Key theorems: `ListStack.Ordered.unwind_eq`, `ListStack.Ordered.place`,
`Builder.push_keeps`, `Builder.Reachable.keeps`, `Builder.placing_of_reachable`.
-/
import MarkdownHtml.Proofs.NestingLimit

namespace MarkdownHtml

/-! ### Ordered stacks -/

namespace ListStack

/-- From the bottom up, every marker stands to the left of its text, and the text of a level
does not lie to the right of the next marker. -/
structure Ordered (levels : ListStack) : Prop where
  wide : ∀ level ∈ levels, level.marker < level.content
  nested : levels.IsChain fun inner outer => outer.content ≤ inner.marker

namespace Ordered

variable {top : ListLevel} {levels : ListStack}

theorem nil : Ordered [] := ⟨by simp, .nil⟩

theorem below (h : Ordered (top :: levels)) : Ordered levels :=
  ⟨fun level hlevel => h.wide level (List.mem_cons_of_mem _ hlevel), h.nested.tail⟩

/-- All texts below a level lie to the left of its marker, or start in its column. -/
theorem content_le (h : Ordered (top :: levels)) :
    ∀ level ∈ levels, level.content ≤ top.marker := by
  induction levels generalizing top with
  | nil => simp
  | cons next levels ih =>
    have hnext : next.content ≤ top.marker := (List.isChain_cons_cons.mp h.nested).1
    intro level hlevel
    rcases List.mem_cons.mp hlevel with rfl | hlevel
    · exact hnext
    · have hbelow : level.content ≤ next.marker := ih h.below level hlevel
      have hwide : next.marker < next.content := h.wide next (by simp)
      omega

/-- **What stays of an ordered stack** are the levels whose text does not lie to the right of
the marker. -/
theorem unwind_eq (h : Ordered levels) (indent : Nat) :
    levels.unwind indent = levels.filter fun level => level.content ≤ indent := by
  induction levels with
  | nil => rfl
  | cons top levels ih =>
    have hbelow := h.content_le
    have hwide : top.marker < top.content := h.wide top List.mem_cons_self
    unfold unwind
    by_cases hstays : top.content ≤ indent
    · have hall : levels.filter (fun level => level.content ≤ indent) = levels := by
        apply List.filter_eq_self.mpr
        intro level hlevel
        have hle := hbelow level hlevel
        simp only [decide_eq_true_eq]
        omega
      rw [if_pos hstays, List.filter_cons_of_pos (by simpa using hstays), hall]
    · rw [if_neg hstays, List.filter_cons_of_neg (by simpa using hstays)]
      by_cases hlast : top.marker ≤ indent
      · -- the levels below end at the marker that has just gone
        rw [if_pos hlast]
        symm
        apply List.filter_eq_self.mpr
        intro level hlevel
        have hle := hbelow level hlevel
        simp only [decide_eq_true_eq]
        omega
      · rw [if_neg hlast]
        exact ih h.below

theorem filter (h : Ordered levels) (indent : Nat) :
    Ordered (levels.filter fun level => level.content ≤ indent) := by
  induction levels with
  | nil => exact nil
  | cons top levels ih =>
    by_cases hstays : top.content ≤ indent
    · rw [List.filter_cons_of_pos (by simpa using hstays)]
      refine ⟨?_, (ih h.below).nested.cons ?_⟩
      · intro level hlevel
        rcases List.mem_cons.mp hlevel with rfl | hlevel
        · exact h.wide _ List.mem_cons_self
        · exact (ih h.below).wide level hlevel
      · intro level hlevel
        exact h.content_le level (List.mem_of_mem_filter (List.mem_of_mem_head? hlevel))
    · rw [List.filter_cons_of_neg (by simpa using hstays)]
      exact ih h.below

/-- A level that is placed keeps the order. -/
theorem place (h : Ordered levels) (indent : Nat) {width : Nat} (hwidth : 1 ≤ width) :
    Ordered (levels.place indent width) := by
  unfold ListStack.place
  rw [h.unwind_eq]
  refine ⟨?_, (h.filter indent).nested.cons ?_⟩
  · intro level hlevel
    rcases List.mem_cons.mp hlevel with rfl | hlevel
    · show indent < indent + width
      omega
    · exact (h.filter indent).wide level hlevel
  · intro level hlevel
    have hstays := (List.mem_filter.mp (List.mem_of_mem_head? hlevel)).2
    simpa using hstays

/-- The depth of an item is the number of levels whose text does not lie to the right of its
marker, and these levels and its own are open then. -/
theorem placing_eq (h : Ordered levels) (indent width : Nat) :
    levels.placing indent width =
      (levels.countP fun level => level.content ≤ indent,
        ⟨indent, indent + width⟩ :: levels.filter fun level => level.content ≤ indent) := by
  rw [placing, ListStack.place, h.unwind_eq, List.countP_eq_length_filter]

end Ordered

/-! ### What lines keep -/

/-- A property of stacks that the empty stack has and that placing a marker keeps. -/
structure Kept (P : ListStack → Prop) : Prop where
  nil : P []
  place : ∀ {levels : ListStack} (indent : Nat) {width : Nat}, 1 ≤ width → P levels →
    P (levels.place indent width)

theorem kept_ordered : Kept Ordered := ⟨.nil, fun indent _ hwidth h => h.place indent hwidth⟩

end ListStack

/-- A marker is at least one wide. -/
theorem Marker.one_le_width {text : List Char} {m : Marker} (h : Marker.read? text = some m) :
    1 ≤ m.width := by
  have hclose : ∀ {list : ListKind} {size : Nat} {rest : List Char},
      1 ≤ size → Marker.close? list size rest = some m → 1 ≤ m.width := by
    intro list size rest hsize h
    unfold Marker.close? at h
    split_ifs at h
    obtain rfl := Option.some.inj h
    show 1 ≤ size + (rest.takeWhile Text.isPad).length
    omega
  unfold Marker.read? at h
  rcases Option.or_eq_some_iff.mp h with h | ⟨-, h⟩
  · unfold Marker.readBullet? at h
    split at h
    · split_ifs at h
      exact hclose (Nat.le_refl 1) h
    · exact absurd h (by simp)
  · simp only [Marker.readOrdered?] at h
    split_ifs at h
    split at h
    · split_ifs at h
      exact hclose (Nat.le_add_left 1 _) h
    · exact absurd h (by simp)

/-- A step and the next keep what each of them keeps. -/
theorem Attempt.andThen_keeps {P : ListStack → Prop} {a : Attempt} {next : Builder → Attempt}
    (h : P a.builder.lists) (hnext : ∀ b, P b.lists → P (next b).builder.lists) :
    P (a.andThen next).builder.lists := by
  unfold Attempt.andThen
  split
  · exact hnext a.builder h
  · exact h

namespace Builder

theorem lists_readInline {text : List Char} {next : List Inline → Builder → Builder}
    (hnext : ∀ nodes b, (next nodes b).lists = b.lists) (b : Builder) :
    (b.readInline text next).builder.lists = b.lists := by
  unfold readInline
  simp only
  split
  · exact hnext _ _
  · rfl

/-- Closing the leaf leaves the lists open. -/
theorem lists_flush (b : Builder) : b.flush.builder.lists = b.lists := by
  unfold flush
  simp only
  split
  · rfl
  · exact lists_readInline (by intros; rfl) _
  · exact lists_readInline (by intros; rfl) _
  · rfl

section Keeps

variable {P : ListStack → Prop} (hP : ListStack.Kept P)
include hP

theorem flushAll_keeps {b : Builder} (h : P b.lists) : P b.flushAll.builder.lists := by
  apply Attempt.andThen_keeps
  · rw [lists_flush]
    exact h
  · exact fun _ _ => hP.nil

/-- The items of the markers that start a line. -/
theorem openItem_keeps {fuel indent : Nat} {marker : Marker} (hwidth : 1 ≤ marker.width)
    {b : Builder} (h : P b.lists) : P (b.openItem fuel indent marker).builder.lists := by
  induction fuel generalizing indent marker b with
  | zero => exact h
  | succ fuel ih =>
    obtain ⟨depth, lists, hplacing⟩ :
        ∃ depth lists, b.lists.placing indent marker.width = (depth, lists) := ⟨_, _, rfl⟩
    have hplaced : P lists := by
      have hlists : b.lists.place indent marker.width = lists := (Prod.mk.inj hplacing).2
      rw [← hlists]
      exact hP.place indent hwidth h
    rw [openItem_succ hplacing]
    by_cases hdeep : b.limits.maxNesting ≤ depth
    · rw [if_pos hdeep]
      exact hplaced
    · rw [if_neg hdeep]
      cases hinner : innerMarker? marker.content with
      | none => exact hplaced
      | some inner =>
        unfold innerMarker? at hinner
        split_ifs at hinner
        exact ih (Marker.one_le_width hinner) hplaced

theorem enterQuotes_keeps (line : Line) {b : Builder} (h : P b.lists) :
    P (b.enterQuotes line).builder.lists := by
  unfold enterQuotes
  split_ifs
  · exact h
  · exact h
  · exact Attempt.andThen_keeps (flushAll_keeps hP h) fun _ hb => hb

theorem takeKind_keeps (number : Nat) (raw : List Char) {b : Builder} (h : P b.lists) :
    P (b.takeKind (Line.classify number raw)).builder.lists := by
  have hflushed := flushAll_keeps hP h
  unfold takeKind
  cases hkind : (Line.classify number raw).kind with
  | blank => exact hflushed
  | fence fence => exact Attempt.andThen_keeps hflushed fun _ hb => hb
  | heading heading =>
    apply Attempt.andThen_keeps hflushed
    intro b hb
    rw [lists_readInline (by intros; rfl)]
    exact hb
  | rule => exact Attempt.andThen_keeps hflushed fun _ hb => hb
  | marker marker =>
    have hwidth : 1 ≤ marker.width := Marker.one_le_width (Line.read?_of_kindOf hkind)
    apply Attempt.andThen_keeps
    · rw [lists_flush]
      exact h
    · exact fun _ hb => openItem_keeps hP hwidth hb
  | text text =>
    have hlists : (b.extendText text).lists = b.lists := by
      unfold extendText
      split <;> rfl
    show P (b.extendText text).lists
    rw [hlists]
    exact h

theorem takeLine_keeps (number : Nat) (raw : List Char) {b : Builder} (h : P b.lists) :
    P (b.takeLine (Line.classify number raw)).builder.lists :=
  Attempt.andThen_keeps (enterQuotes_keeps hP _ h) fun _ hb => takeKind_keeps hP number raw hb

/-- **A line keeps what placing keeps**, whether it is taken or refused. -/
theorem push_keeps (number : Nat) (raw : List Char) {b : Builder} (h : P b.lists) :
    P (b.push (Line.classify number raw)).builder.lists := by
  have hflushed : P b.flush.builder.lists := by
    rw [lists_flush]
    exact h
  unfold push
  split
  · split_ifs
    · simp only
      split_ifs
      · exact hflushed
      · exact h
    · exact Attempt.andThen_keeps hflushed fun _ hb => takeLine_keeps hP number raw hb
  · exact takeLine_keeps hP number raw h

end Keeps

/-! ### States that are reached -/

/-- The states that a builder reaches: between lines, each of which it may have taken or
refused, and within a line, where the leaf is closed, quotes are opened and closed, markers are
placed and items are put out. -/
inductive Reachable (limits : Limits) : Builder → Prop
  | new : Reachable limits { limits }
  | push {b : Builder} (number : Nat) (raw : List Char) : Reachable limits b →
      Reachable limits (b.push (Line.classify number raw)).builder
  | flush {b : Builder} : Reachable limits b → Reachable limits b.flush.builder
  | enterQuotes {b : Builder} (line : Line) : Reachable limits b →
      Reachable limits (b.enterQuotes line).builder
  | place {b : Builder} (indent : Nat) {width : Nat} : 1 ≤ width → Reachable limits b →
      Reachable limits { b with lists := b.lists.place indent width }
  | emit {b : Builder} (block : Block) : Reachable limits b → Reachable limits (b.emit block)

/-- What placing keeps holds of every state that is reached. -/
theorem Reachable.keeps {P : ListStack → Prop} (hP : ListStack.Kept P) {limits : Limits}
    {b : Builder} (h : b.Reachable limits) : P b.lists := by
  induction h with
  | new => exact hP.nil
  | push number raw _ ih => exact push_keeps hP number raw ih
  | flush _ ih =>
    rw [lists_flush]
    exact ih
  | enterQuotes line _ ih => exact enterQuotes_keeps hP line ih
  | place indent hwidth _ ih => exact hP.place indent hwidth ih
  | emit block _ ih => exact ih

/-- **Lists nest by their columns.** In every state that the builder reaches the list levels are
ordered, and a marker that is placed has as its depth the number of open levels whose text does
not lie to its right; these stay open, and its own level is put on them. -/
theorem placing_of_reachable {limits : Limits} {b : Builder} (h : b.Reachable limits) :
    b.lists.Ordered ∧ ∀ indent width, b.lists.placing indent width =
      (b.lists.countP fun level => level.content ≤ indent,
        ⟨indent, indent + width⟩ :: b.lists.filter fun level => level.content ≤ indent) := by
  have hordered : b.lists.Ordered := h.keeps ListStack.kept_ordered
  exact ⟨hordered, hordered.placing_eq⟩

/-- Behind an item, a number inside it and a bullet that lines up with neither: the bullet has
taken the place of the number, and a marker in column 3 takes its place in turn. -/
theorem placing_of_reachable_uneven :
    ∃ b : Builder, b.Reachable {} ∧ b.lists = [⟨4, 6⟩, ⟨0, 2⟩] ∧ b.lists.Ordered ∧
      b.lists.placing 3 2 = (1, [⟨3, 5⟩, ⟨0, 2⟩]) := by
  have hfirst : Reachable {} (push (Line.classify 1 "- a".toList) { limits := {} }).builder :=
    .push 1 _ .new
  have hreach := (hfirst.push 2 "   1. b".toList).push 3 "    * c".toList
  obtain ⟨hordered, hplacing⟩ := placing_of_reachable hreach
  exact ⟨_, hreach, rfl, hordered, (hplacing 3 2).trans rfl⟩

end Builder
end MarkdownHtml
