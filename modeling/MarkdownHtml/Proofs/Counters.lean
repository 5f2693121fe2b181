/-
# The counters count

A closing run asks a counter whether it has a partner, and the counters are never
computed from the stack: they go up and down with every frame, a bracket puts them
aside and brings them back, and when the oldest frame is given up, the counters of the
lowest bracket above it are mended. They are right all the same. `Counted` says what
is right: the counts of a stack are those of its emphasis frames above the innermost
bracket, and every bracket keeps the counts of the stack below it. Every move of the
parser keeps them right (`Move.counted`), so that a run that is counted is found
(`Counted.exists_run`).

Key definitions: `Counted`, `openRuns`.
Key theorems: `Counted.collapse`, `Counted.dropOldest`, `Move.counted`,
`Counted.head_of_get_ne_zero`, `Counted.exists_run`, `Counted.get_eq`, `Counted.enclosed`.
-/
import MarkdownHtml.Proofs.Steps

namespace MarkdownHtml

namespace Counts

theorem get_increment_self (c : Counts) (m : Delimiter) : (c.increment m).get m = c.get m + 1 := by
  cases m <;> rfl

theorem get_increment_of_ne (c : Counts) {m k : Delimiter} (h : k ≠ m) :
    (c.increment k).get m = c.get m := by
  cases k <;> cases m <;> first | rfl | exact absurd rfl h

theorem get_decrement_of_ne (c : Counts) {m k : Delimiter} (h : k ≠ m) :
    (c.decrement k).get m = c.get m := by
  cases k <;> cases m <;> first | rfl | exact absurd rfl h

theorem decrement_increment (c : Counts) (m : Delimiter) : (c.increment m).decrement m = c := by
  cases m <;> rfl

theorem increment_comm (c : Counts) (m k : Delimiter) :
    (c.increment m).increment k = (c.increment k).increment m := by
  cases m <;> cases k <;> rfl

@[simp] theorem get_zero (m : Delimiter) : ({} : Counts).get m = 0 := by
  cases m <;> rfl

theorem add_zero (c : Counts) : c.add {} = c := rfl

end Counts

/-- Whether the opener is a run of `m`. -/
def Opener.isRun (m : Delimiter) : Opener → Bool
  | .emphasis k _ => k = m
  | .bracket .. => false

namespace InlineParser

/-- `Counted stack c`: above the innermost bracket of the stack the emphasis frames are as
many as `c` says, and its brackets keep the counts of the frames below them. -/
def Counted : List Frame → Counts → Prop
  | [], c => c = {}
  | ⟨.emphasis m _, _⟩ :: below, c => ∃ d, Counted below d ∧ c = d.increment m
  | ⟨.bracket _ _ enclosed, _⟩ :: below, c => c = {} ∧ Counted below enclosed

namespace Counted

/-- Contents do not count. -/
theorem cons_content {o : Opener} {a b : Content} {below : List Frame} {c : Counts}
    (h : Counted (⟨o, a⟩ :: below) c) : Counted (⟨o, b⟩ :: below) c := by
  cases o <;> exact h

theorem onTop {st : State} (h : Counted st.stack st.unclosed) (f : Content → Content) :
    Counted (st.onTop f).stack (st.onTop f).unclosed := by
  obtain ⟨root, _ | ⟨⟨o, c⟩, below⟩, unclosed, dropped⟩ := st
  · exact h
  · exact h.cons_content

/-- Without their innermost frame, frames have the counts the parser falls back on. -/
theorem below {f : Frame} {stack : List Frame} {c : Counts} (h : Counted (f :: stack) c) :
    Counted stack (State.countsWithout c f.opener) := by
  obtain ⟨o, content⟩ := f
  cases o with
  | emphasis m n =>
    obtain ⟨d, hd, rfl⟩ := h
    rw [State.countsWithout, Counts.decrement_increment]
    exact hd
  | bracket image active enclosed => exact h.2

theorem collapse {st : State} (h : Counted st.stack st.unclosed) :
    Counted st.collapse.stack st.collapse.unclosed := by
  obtain ⟨root, _ | ⟨f, stack⟩, unclosed, dropped⟩ := st
  · exact h
  · have hb : Counted stack (State.countsWithout unclosed f.opener) := h.below
    exact onTop hb f.flatten

theorem map_deactivate {stack : List Frame} {c : Counts} (h : Counted stack c) :
    Counted (stack.map State.deactivate) c := by
  induction stack generalizing c with
  | nil => exact h
  | cons f stack ih =>
    obtain ⟨o, content⟩ := f
    rcases o with ⟨m, n⟩ | ⟨_ | _, active, enclosed⟩
    · obtain ⟨d, hd, rfl⟩ := h
      exact ⟨d, ih hd, rfl⟩
    · exact ⟨h.1, ih h.2⟩
    · exact ⟨h.1, ih h.2⟩

/-- A count that is not zero speaks of the innermost frame, if that is a bracket or a run
of the delimiter. -/
theorem head_of_get_ne_zero {stack : List Frame} {c : Counts} {m : Delimiter}
    (h : Counted stack c) (hm : c.get m ≠ 0)
    (hs : ∀ f ∈ stack.head?, f.opener.isBracket = true ∨ ∃ n, f.opener = .emphasis m n) :
    ∃ n content below, stack = ⟨.emphasis m n, content⟩ :: below := by
  cases stack with
  | nil =>
    rw [show c = {} from h] at hm
    exact absurd (Counts.get_zero m) hm
  | cons f below =>
    obtain ⟨o, content⟩ := f
    cases o with
    | emphasis k n =>
      rcases hs ⟨.emphasis k n, content⟩ rfl with hb | ⟨n', hn⟩
      · exact absurd hb (by simp [Opener.isBracket])
      · obtain ⟨rfl, rfl⟩ := Opener.emphasis.inj hn
        exact ⟨n, content, below, rfl⟩
    | bracket image active enclosed =>
      rw [h.1] at hm
      exact absurd (Counts.get_zero m) hm

theorem get_ne_zero_of_head {m : Delimiter} {n : Nat} {content : Content} {below : List Frame}
    {c : Counts} (h : Counted (⟨.emphasis m n, content⟩ :: below) c) : c.get m ≠ 0 := by
  obtain ⟨d, -, rfl⟩ := h
  rw [Counts.get_increment_self]
  omega

/-! ### The oldest frame -/

/-- What an opener adds to the counts of the part around it. -/
def added : Opener → Counts → Counts
  | .emphasis m _, c => c.increment m
  | .bracket .., c => c

theorem added_increment (o : Opener) (c : Counts) (m : Delimiter) :
    added o (c.increment m) = (added o c).increment m := by
  cases o with
  | emphasis k n => exact c.increment_comm m k
  | bracket => rfl

/-- The parser takes away what the oldest opener added: a bracket there has no frames
below it. -/
theorem mergeCounts_added {o : Opener} (h : ∀ i a e, o = .bracket i a e → e = {}) (c : Counts) :
    State.mergeCounts o (added o c) = c := by
  cases o with
  | emphasis m n => exact c.decrement_increment m
  | bracket image active enclosed =>
    rw [h image active enclosed rfl]
    exact c.add_zero

theorem changeLowest?_concat (change : Counts → Counts) (fs : List Frame) (f : Frame) :
    State.changeLowest? change (fs ++ [f]) =
      match State.changeLowest? change fs with
      | some gs => some (gs ++ [f])
      | none => (State.changeLowest? change [f]).map (fs ++ ·) := by
  induction fs with
  | nil =>
    simp only [List.nil_append]
    cases State.changeLowest? change [f] <;> rfl
  | cons g fs ih =>
    obtain ⟨o, content⟩ := g
    cases o with
    | bracket => rfl
    | emphasis m n =>
      simp only [List.cons_append, State.changeLowest?]
      rw [ih]
      cases State.changeLowest? change fs with
      | none => cases State.changeLowest? change [f] <;> rfl
      | some gs => rfl

/-- Without the oldest frame the counts above it are right once those of the lowest bracket
are mended, or those of the whole stack if it has none. -/
theorem changeLowest? {above : List Frame} {oldest : Frame} {c : Counts}
    (h : Counted (above ++ [oldest]) c) :
    (∃ fs, State.changeLowest? (State.mergeCounts oldest.opener) above.reverse = some fs ∧
        Counted fs.reverse c) ∨
      (State.changeLowest? (State.mergeCounts oldest.opener) above.reverse = none ∧
        Counted above (State.mergeCounts oldest.opener c)) := by
  -- in the second case, say what the oldest opener had added
  suffices hs : (∀ i a e, oldest.opener = .bracket i a e → e = {}) ∧
      ((∃ fs, State.changeLowest? (State.mergeCounts oldest.opener) above.reverse = some fs ∧
        Counted fs.reverse c) ∨
      (State.changeLowest? (State.mergeCounts oldest.opener) above.reverse = none ∧
        ∃ d, Counted above d ∧ c = added oldest.opener d)) by
    obtain ⟨he, hs⟩ := hs
    refine hs.imp_right fun ⟨hn, d, hd, hc⟩ => ⟨hn, ?_⟩
    rw [hc, mergeCounts_added he]
    exact hd
  induction above generalizing c with
  | nil =>
    obtain ⟨o, content⟩ := oldest
    cases o with
    | emphasis m n =>
      obtain ⟨d, hd, rfl⟩ := h
      exact ⟨by simp, .inr ⟨rfl, d, hd, rfl⟩⟩
    | bracket image active enclosed =>
      refine ⟨fun i a e he => ?_, .inr ⟨rfl, c, h.1, rfl⟩⟩
      obtain ⟨-, -, rfl⟩ := Opener.bracket.inj he
      exact h.2
  | cons f above ih =>
    obtain ⟨o, content⟩ := f
    rw [List.reverse_cons, changeLowest?_concat]
    cases o with
    | emphasis m n =>
      obtain ⟨d, hd, rfl⟩ := h
      obtain ⟨he, ⟨fs, hfs, hc⟩ | ⟨hn, e, hce, rfl⟩⟩ := ih hd
      · refine ⟨he, .inl ⟨_, by rw [hfs], ?_⟩⟩
        rw [List.reverse_append]
        exact ⟨d, hc, rfl⟩
      · refine ⟨he, .inr ⟨by rw [hn]; rfl, e.increment m, ⟨e, hce, rfl⟩, ?_⟩⟩
        rw [added_increment]
    | bracket image active enclosed =>
      obtain ⟨rfl, hb⟩ := h
      obtain ⟨he, ⟨fs, hfs, hc⟩ | ⟨hn, e, hce, rfl⟩⟩ := ih hb
      · refine ⟨he, .inl ⟨_, by rw [hfs], ?_⟩⟩
        rw [List.reverse_append]
        exact ⟨rfl, hc⟩
      · -- this is the lowest bracket: its counts lose what the oldest opener had added
        refine ⟨he, .inl ⟨_, by rw [hn]; rfl, ?_⟩⟩
        simp only [List.reverse_append, List.reverse_cons, List.reverse_nil, List.nil_append,
          List.reverse_reverse]
        refine ⟨rfl, ?_⟩
        rw [mergeCounts_added he]
        exact hce

theorem dropOldest {st : State} (h : Counted st.stack st.unclosed) :
    Counted st.dropOldest.stack st.dropOldest.unclosed := by
  obtain ⟨root, stack, unclosed, dropped⟩ := st
  rcases List.eq_nil_or_concat stack with rfl | ⟨above, oldest, rfl⟩
  · exact h
  · rw [List.concat_eq_append] at h ⊢
    simp only [State.dropOldest, List.reverse_append, List.reverse_cons, List.reverse_nil,
      List.nil_append, List.cons_append]
    rcases changeLowest? h with ⟨fs, hfs, hc⟩ | ⟨hn, hc⟩
    · rw [hfs]
      exact hc
    · rw [hn]
      simpa using hc

end Counted

/-! ### Along a run -/

/-- Every move keeps the counts right. -/
theorem Move.counted {limit : Nat} {st st' : State} {p : List Atom} (hm : Move limit st p st')
    (h : Counted st.stack st.unclosed) : Counted st'.stack st'.unclosed := by
  cases hm with
  | text | leaf => exact h.onTop _
  | collapse => exact h.collapse
  | dropOldest => exact h.dropOldest
  | openRun => exact ⟨st.unclosed, h, rfl⟩
  | openBracket => exact ⟨rfl, h⟩
  | @closeAll m t used content below hs =>
    rw [hs] at h
    have hbelow : Counted below (st.unclosed.decrement m) := h.below
    exact hbelow.onTop _
  | closePart hs =>
    rw [hs] at h
    exact h
  | @link t tail p enclosed content below hs =>
    rw [hs] at h
    have hbelow : Counted (below.map State.deactivate) enclosed := h.2.map_deactivate
    exact hbelow.onTop _
  | @image t tail p enclosed content below hs =>
    rw [hs] at h
    have hbelow : Counted below enclosed := h.2
    exact hbelow.onTop _

theorem Moves.counted {limit : Nat} {st st' : State} {p : List Atom} (hm : Moves limit st p st')
    (h : Counted st.stack st.unclosed) : Counted st'.stack st'.unclosed :=
  hm.keeps (fun hm => hm.counted) h

namespace State

/-- Unwinding does not touch the count of the run that it looks for. -/
theorem get_unclosed_unwindTo (m : Delimiter) (st : State) :
    (st.unwindTo m).unclosed.get m = st.unclosed.get m := by
  unfold State.unwindTo
  generalize st.stack.length = n
  induction n generalizing st with
  | zero => rfl
  | succ n ih =>
    unfold State.unwind
    split
    · rfl
    · rename_i f below hst
      split_ifs with hp
      · rfl
      · rw [ih]
        obtain ⟨root, stack, unclosed, dropped⟩ := st
        obtain rfl : stack = f :: below := hst
        obtain ⟨o, content⟩ := f
        cases o with
        | bracket => exact absurd hp (by simp)
        | emphasis k n =>
          have hk : k ≠ m := by simpa using hp
          have htop : ∀ s : State, ∀ g, (s.onTop g).unclosed = s.unclosed := by
            intro s g
            obtain ⟨root, _ | ⟨g, below⟩, unclosed, dropped⟩ := s <;> rfl
          rw [State.collapse, htop]
          exact Counts.get_decrement_of_ne _ hk

/-- The innermost frame after unwinding to `m` is such a run or a bracket. -/
theorem head_unwindTo (m : Delimiter) (st : State) :
    ∀ f ∈ (st.unwindTo m).stack.head?,
      f.opener.isBracket = true ∨ ∃ n, f.opener = .emphasis m n := by
  intro f hf
  have hp := State.unwind_head (Nat.le_refl st.stack.length) f hf
  obtain ⟨o, content⟩ := f
  cases o with
  | bracket => exact .inl rfl
  | emphasis k n =>
    obtain rfl : k = m := by simpa using hp
    exact .inr ⟨n, rfl⟩

end State

/-- A run that is counted is innermost once what is open above it is given up. -/
theorem Counted.exists_run {st : State} {m : Delimiter} (h : Counted st.stack st.unclosed)
    (hm : st.unclosed.get m ≠ 0) :
    ∃ n content below, (st.unwindTo m).stack = ⟨.emphasis m n, content⟩ :: below := by
  have hcounted : Counted (st.unwindTo m).stack (st.unwindTo m).unclosed :=
    (State.unwind_moves 0 _ _ st).counted h
  refine hcounted.head_of_get_ne_zero ?_ (st.head_unwindTo m)
  rwa [State.get_unclosed_unwindTo]

/-! ### The numbers themselves -/

/-- How many frames above the innermost bracket, or of all frames if there is none, are runs
of `m`. -/
def openRuns (m : Delimiter) (stack : List Frame) : Nat :=
  (stack.takeWhile fun f => !f.opener.isBracket).countP fun f => f.opener.isRun m

/-- Right counts are the numbers of open runs. -/
theorem Counted.get_eq {stack : List Frame} {c : Counts} (h : Counted stack c) (m : Delimiter) :
    c.get m = openRuns m stack := by
  induction stack generalizing c with
  | nil =>
    rw [show c = {} from h]
    exact Counts.get_zero m
  | cons f below ih =>
    obtain ⟨o, content⟩ := f
    cases o with
    | emphasis k n =>
      obtain ⟨d, hd, rfl⟩ := h
      have hbelow := ih hd
      unfold openRuns at hbelow ⊢
      by_cases hk : k = m
      · subst hk
        simp [Counts.get_increment_self, Opener.isBracket, Opener.isRun, hbelow]
      · simp [Counts.get_increment_of_ne _ hk, Opener.isBracket, Opener.isRun, hk, hbelow]
    | bracket image active enclosed =>
      rw [h.1]
      simp [openRuns, Opener.isBracket]

/-- A bracket keeps the counts of what is below it. -/
theorem Counted.enclosed {above below : List Frame} {image active : Bool} {enclosed c : Counts}
    {content : Content}
    (h : Counted (above ++ ⟨.bracket image active enclosed, content⟩ :: below) c) :
    Counted below enclosed := by
  induction above generalizing c with
  | nil => exact h.2
  | cons f above ih =>
    obtain ⟨o, content⟩ := f
    cases o with
    | emphasis =>
      obtain ⟨d, hd, -⟩ := h
      exact ih hd
    | bracket => exact ih h.2

end InlineParser
end MarkdownHtml
