/-
# The bookkeeping of the inline parser

Between two tokens the parser's state is always in order: no more frames are open than may
be, every run that is open has delimiters left, the counters of the parser and those that
brackets keep are the numbers of open runs, and of each content it is known how deep it nests
(`State.Booked`). So whatever is taken from a counter is there, and a run that a counter
promises is found: the reading with every count checked has a result for every text, and it is
the parser's own (`Inline.bookkeeping`).

The states between two tokens are those that the recursion over the tokens comes to
(`Reached`). There the tokens that are left are some that will be passed over, and others
that tile the rest of the text (`Stands`). One token keeps this (`Stands.skip`, `Stands.read`),
and so it holds wherever a run stands.

Key definitions: `Reached`, `State.Booked`, `Stands`.
Key theorems: `Stands.read`, `Reached.stands`, `Reached.checked_run`, `Inline.bookkeeping`.
-/
import MarkdownHtml.Proofs.CheckedReading
import MarkdownHtml.Proofs.InlineTrees

namespace MarkdownHtml
namespace InlineParser

/-! ### Where a run stands -/

/-- `Reached limit text index resume st ts closers`: while `text` is read, the parser stands
between two tokens in the state `st`. The tokens `ts`, from `index` on, are left, and those of
them that start before `resume` are read already. -/
inductive Reached (limit : Nat) (text : List Char) :
    Nat → Nat → State → List Token → List (Option Nat) → Prop
  | start : Reached limit text 0 0 {} (Token.ofText text) (CodeSpan.closers (Token.ofText text))
  | skip {index resume : Nat} {st : State} {t : Token} {ts : List Token} {closer : Option Nat}
      {closers : List (Option Nat)} :
      Reached limit text index resume st (t :: ts) (closer :: closers) → t.start < resume →
      Reached limit text (index + 1) resume st ts closers
  | read {index resume more : Nat} {st st' : State} {t : Token} {ts : List Token}
      {closer : Option Nat} {closers : List (Option Nat)} :
      Reached limit text index resume st (t :: ts) (closer :: closers) → ¬ t.start < resume →
      st.step limit t index closer ts = .ok (more, st') →
      Reached limit text (index + 1) (t.stop + more) st' ts closers

/-- What is in order between two tokens. -/
structure State.Booked (limit : Nat) (st : State) : Prop where
  bounded : st.stack.length ≤ max 1 limit
  /-- Every run that is open has delimiters left. -/
  pending : ∀ m count content, ⟨.emphasis m count, content⟩ ∈ st.stack → 1 ≤ count
  /-- The counters are the numbers of runs above the innermost bracket. -/
  unclosed : ∀ m, st.unclosed.get m = openRuns m st.stack
  /-- A bracket keeps the numbers of runs between it and the next bracket below. -/
  enclosed : ∀ above image active counts content below,
    st.stack = above ++ ⟨.bracket image active counts, content⟩ :: below →
    ∀ m, counts.get m = openRuns m below
  depth_root : st.root.depth = Inline.nesting st.root.toList
  depth : ∀ f ∈ st.stack, f.content.depth = Inline.nesting f.content.toList

/-- What a run depends on where it stands: the state is in order, and of the tokens that are
left the first are passed over, and the others tile the rest of the text. -/
structure Stands (limit index resume : Nat) (st : State) (ts : List Token)
    (closers : List (Option Nat)) : Prop where
  counted : Counted st.stack st.unclosed
  sound : st.Sound limit
  closers : closers = CodeSpan.closersFrom index ts
  ahead : ∃ us vs start before s, ts = us ++ vs ∧ (∀ u ∈ us, u.start < resume) ∧
    Token.Tiles start before s vs ∧ resume ≤ start ∧ st.Ready limit vs

namespace Stands

variable {limit index resume : Nat} {st : State} {t : Token} {ts : List Token}
  {closer : Option Nat} {closers : List (Option Nat)}

theorem start (limit : Nat) (text : List Char) :
    Stands limit 0 0 {} (Token.ofText text) (CodeSpan.closers (Token.ofText text)) where
  counted := rfl
  sound := .start limit
  closers := CodeSpan.closers_eq_closersFrom _
  ahead := ⟨[], Token.ofText text, 0, none, text, rfl, by simp, Token.tiles_ofText text,
    Nat.le_refl 0, ready_start limit _⟩

theorem closer_eq (h : Stands limit index resume st (t :: ts) (closer :: closers)) :
    closer = (CodeSpan.closer? t ts).map (index + 1 + ·) ∧
      closers = CodeSpan.closersFrom (index + 1) ts :=
  List.cons.inj h.closers

/-- A token that is not passed over is the first of those that tile the rest of the text. -/
theorem tiles (h : Stands limit index resume st (t :: ts) (closer :: closers))
    (ht : ¬ t.start < resume) :
    ∃ start before s, Token.Tiles start before s (t :: ts) ∧ st.Ready limit (t :: ts) := by
  obtain ⟨us, vs, start, before, s, hts, hus, hvs, -, hr⟩ := h.ahead
  cases us with
  | nil =>
    obtain rfl : t :: ts = vs := hts
    exact ⟨start, before, s, hvs, hr⟩
  | cons u us =>
    obtain ⟨rfl, -⟩ := List.cons.inj hts
    exact absurd (hus t List.mem_cons_self) ht

theorem skip (h : Stands limit index resume st (t :: ts) (closer :: closers))
    (ht : t.start < resume) : Stands limit (index + 1) resume st ts closers := by
  refine ⟨h.counted, h.sound, h.closer_eq.2, ?_⟩
  obtain ⟨us, vs, start, before, s, hts, hus, hvs, hstart, hr⟩ := h.ahead
  cases us with
  | nil =>
    obtain rfl : t :: ts = vs := hts
    have := hvs.start_head
    omega
  | cons u us =>
    obtain ⟨-, rfl⟩ := List.cons.inj hts
    exact ⟨us, vs, start, before, s, rfl, fun v hv => hus v (List.mem_cons_of_mem _ hv), hvs,
      hstart, hr⟩

/-- A token is read by moves, which keep the state in order, and what is read with it is what
will be passed over. -/
theorem read {more : Nat} {st' : State}
    (h : Stands limit index resume st (t :: ts) (closer :: closers)) (ht : ¬ t.start < resume)
    (hstep : st.step limit t index closer ts = .ok (more, st')) :
    Stands limit (index + 1) (t.stop + more) st' ts closers := by
  obtain ⟨start, before, s, htiles, hr⟩ := h.tiles ht
  obtain ⟨rfl, hclosers⟩ := h.closer_eq
  obtain ⟨us, vs, b, rfl, hskip, hvs, hmoves, hr'⟩ := State.step_ahead htiles hr hstep
  exact ⟨hmoves.counted h.counted, hmoves.keeps (fun hm => hm.sound) h.sound, hclosers,
    us, vs, t.stop + more, b, vs.flatMap Token.lexeme, rfl, hskip, hvs, Nat.le_refl _, hr'⟩

theorem booked (h : Stands limit index resume st ts closers) : st.Booked limit := by
  obtain ⟨us, vs, start, before, s, -, -, -, -, hr⟩ := h.ahead
  refine ⟨hr.bounded, fun m count content hf => ?_, h.counted.get_eq, ?_, ?_, fun f hf => ?_⟩
  · exact State.one_le_of_literal_ne (hr.opened _ hf)
  · intro above image active counts content below hs m
    have hcounted := h.counted
    rw [hs] at hcounted
    exact hcounted.enclosed.get_eq m
  · exact h.sound.root.holds.depth
  · exact (h.sound.frames f hf).holds.depth

end Stands

/-! ### Runs -/

namespace Reached

variable {limit index resume : Nat} {text : List Char} {st : State} {ts : List Token}
  {closers : List (Option Nat)}

theorem stands (h : Reached limit text index resume st ts closers) :
    Stands limit index resume st ts closers := by
  induction h with
  | start => exact .start limit text
  | skip _ ht ih => exact ih.skip ht
  | read _ ht hstep ih => exact ih.read ht hstep

/-- From where a run stands, no check fails up to the end. -/
theorem checked_run (h : Reached limit text index resume st ts closers) :
    Checked.run limit index resume st ts closers = some (run limit index resume st ts closers) := by
  induction ts generalizing index resume st closers with
  | nil => rfl
  | cons t ts ih =>
    cases closers with
    | nil => rfl
    | cons closer closers =>
      rw [Checked.run, run]
      split_ifs with ht
      · exact ih (h.skip ht)
      · obtain ⟨-, -, -, -, hr⟩ := h.stands.tiles ht
        rw [Checked.step_eq_some hr h.stands.counted]
        cases hstep : st.step limit t index closer ts with
        | error e => rfl
        | ok result => exact ih (h.read ht hstep)

end Reached

/-- A run that ends leaves the counters right. -/
theorem counted_of_run {limit : Nat} {text : List Char} {st : State}
    (h : run limit 0 0 {} (Token.ofText text) (CodeSpan.closers (Token.ofText text)) = .ok st) :
    Counted st.stack st.unclosed := by
  rw [CodeSpan.closers_eq_closersFrom] at h
  exact (run_moves (Token.tiles_ofText text) (ready_start limit _) (Nat.le_refl 0) h).counted rfl

end InlineParser

/-- **The bookkeeping is right.** In every state between two tokens, for every text and every
limit, the frames are bounded, and counts and depths are what they say. Reading with every
count checked has a result, the one of the parser: no counter goes below zero, and a run that
is counted is found. -/
theorem Inline.bookkeeping (limits : Limits) (text : List Char) :
    (∀ {index resume : Nat} {st : InlineParser.State} {ts : List Token}
        {closers : List (Option Nat)},
      InlineParser.Reached limits.maxNesting text index resume st ts closers →
        st.Booked limits.maxNesting) ∧
      Checked.read limits text = some (Inline.read limits text) := by
  refine ⟨fun h => h.stands.booked, ?_⟩
  have hrun : Checked.run limits.maxNesting 0 0 {} (Token.ofText text)
      (CodeSpan.closers (Token.ofText text)) =
        some (InlineParser.run limits.maxNesting 0 0 {} (Token.ofText text)
          (CodeSpan.closers (Token.ofText text))) := InlineParser.Reached.start.checked_run
  simp only [Checked.read, Inline.read, hrun, Option.bind_eq_bind, Option.bind_some]
  cases hend : InlineParser.run limits.maxNesting 0 0 {} (Token.ofText text)
    (CodeSpan.closers (Token.ofText text)) with
  | error e => rfl
  | ok st =>
    simp only [Checked.finish,
      Checked.collapseMany_eq_some _ (InlineParser.counted_of_run hend), Option.bind_eq_bind,
      Option.bind_some]
    rfl

/-- With room for two frames, the run `*` is given up for `_`. It was counted in the bracket
above it, which keeps a count of zero from then on. -/
theorem Inline.bookkeeping_of_dropped :
    ∃ index resume st ts closers,
      InlineParser.Reached 2 "*a [_b".toList index resume st ts closers ∧ st.dropped = 1 ∧
      st.stack.map Frame.opener = [.emphasis .underscore 1, .bracket false true {}] ∧
      st.Booked 2 ∧
      Checked.read { maxNesting := 2 } "*a [_b".toList =
        some (Inline.read { maxNesting := 2 } "*a [_b".toList) := by
  obtain ⟨hbooked, hread⟩ := Inline.bookkeeping { maxNesting := 2 } "*a [_b".toList
  obtain ⟨index, resume, st, ts, closers, hreached, hdropped, hopeners⟩ :
      ∃ index resume st ts closers,
        InlineParser.Reached 2 "*a [_b".toList index resume st ts closers ∧ st.dropped = 1 ∧
        st.stack.map Frame.opener = [.emphasis .underscore 1, .bracket false true {}] := by
    -- five tokens are read: the run, the word, the blank, the bracket and the other run
    refine ⟨_, _, _, _, _, .read (.read (.read (.read (.read .start ?_ rfl) ?_ rfl) ?_ rfl) ?_ rfl)
      ?_ rfl, ?_, ?_⟩
    all_goals decide
  exact ⟨index, resume, st, ts, closers, hreached, hdropped, hopeners, hbooked hreached, hread⟩

end MarkdownHtml
