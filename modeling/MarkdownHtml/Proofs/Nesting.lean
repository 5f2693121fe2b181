/-
# How deep running text can nest

Formatting is opened by `*`, `_` and `[` only. So the nesting of running text is bounded
by the number of these characters in it, and so is the number of frames that are open at
any time. A limit that is not below this number is never met: no node is too deep, no
opener is given up, and the result is the same for every such limit (`Inline.read_eq`).

The bound is kept by weighing states. A frame weighs as much as its opener has characters
left, and as much as its content nests (`State.weight`). Giving up a frame makes a state
no heavier, and neither does wrapping what a frame has collected: the node nests one
deeper, and the opener has lost a character for it. Only opening a frame adds weight, one
for each character that is read. So no state weighs more than the openers read so far.

Key definitions: `Text.openers`, `State.weight`, `State.Light`, `Steady`.
Key theorems: `State.closeMany_steady`, `State.delimiterRun_steady`,
`State.closeBracket_steady`, `State.step_steady`, `run_steady`, `Inline.read_eq`.
-/
import MarkdownHtml.Proofs.JoinedText
import MarkdownHtml.Proofs.Steps

namespace MarkdownHtml

/-! ### Openers -/

namespace Text

/-- The characters that open formatting. -/
def isOpener (c : Char) : Bool := c == '*' || c == '_' || c == '['

/-- How many characters of a text open formatting, if they are not literal. -/
def openers (s : List Char) : Nat := s.countP isOpener

theorem openers_append (s t : List Char) : openers (s ++ t) = openers s + openers t :=
  List.countP_append

theorem openers_le_of_sublist {s t : List Char} (h : s.Sublist t) : openers s ≤ openers t :=
  h.countP_le

/-- A run of delimiters is all openers. -/
theorem openers_run (m : Delimiter) (n : Nat) : openers (List.replicate n m.char) = n := by
  cases m <;> simp [openers, List.countP_replicate, isOpener, Delimiter.char]

theorem openers_le_length (s : List Char) : openers s ≤ s.length := List.countP_le_length

end Text

/-- The characters of an opener that still wait for a partner. -/
def Opener.weight : Opener → Nat
  | .emphasis _ count => count
  | .bracket .. => 1

theorem Opener.weight_pos {o : Opener} (h : o.literal ≠ "") : 1 ≤ o.weight := by
  cases o with
  | emphasis m n => exact InlineParser.State.one_le_of_literal_ne h
  | bracket => exact Nat.le_refl 1

/-- What a frame weighs. -/
def Frame.weight (f : Frame) : Nat := f.opener.weight + f.content.depth

theorem Content.depth_addNode (n : Inline) (c : Content) : (c.addNode n).depth = c.depth := by
  cases n with
  | text s => exact depth_pushText s c
  | _ => rfl

theorem Content.depth_absorb (s : String) (other c : Content) :
    (absorb s other c).depth = max c.depth other.depth := by
  have hfold : ∀ (ns : List Inline) (d : Content), (ns.foldl addNode d).depth = d.depth := by
    intro ns
    induction ns with
    | nil => exact fun _ => rfl
    | cons n ns ih =>
      intro d
      rw [List.foldl_cons, ih, depth_addNode]
  show max (other.nodes.reverse.foldl addNode (c.pushText s)).depth other.depth = _
  rw [hfold, depth_pushText]

namespace InlineParser
namespace State

/-! ### The weight of a state -/

/-- What all frames weigh, and how deep the nodes outside them nest. -/
def weight (st : State) : Nat := st.root.depth + (st.stack.map Frame.weight).sum

/-- Every frame has an opener, and the state weighs at most `n`. -/
structure Light (n : Nat) (st : State) : Prop where
  opened : st.Opened
  weight : st.weight ≤ n

theorem weight_onTop_le {f : Content → Content} {k : Nat} (hf : ∀ c, (f c).depth ≤ c.depth + k)
    (st : State) : (st.onTop f).weight ≤ st.weight + k := by
  obtain ⟨root, _ | ⟨⟨o, c⟩, below⟩, unclosed, dropped⟩ := st
  · have hroot := hf root
    simp only [weight, onTop, List.map_nil, List.sum_nil]
    omega
  · have hc := hf c
    simp only [weight, onTop, List.map_cons, List.sum_cons, Frame.weight]
    omega

theorem weight_cons {st : State} {f : Frame} {below : List Frame} (h : st.stack = f :: below)
    (unclosed : Counts) :
    st.weight = f.weight + weight { st with stack := below, unclosed } := by
  simp only [weight, h, List.map_cons, List.sum_cons]
  omega

theorem weight_deactivate (f : Frame) : (deactivate f).weight = f.weight := by
  obtain ⟨o, c⟩ := f
  rcases o with ⟨m, n⟩ | ⟨_ | _, active, enclosed⟩ <;> rfl

namespace Light

variable {n : Nat} {st : State}

theorem mono {k : Nat} (h : st.Light n) (hk : n ≤ k) : st.Light k :=
  ⟨h.opened, Nat.le_trans h.weight hk⟩

/-- There are no more frames than the state weighs. -/
theorem length_stack_le (h : st.Light n) : st.stack.length ≤ n := by
  have hall : ∀ stack : List Frame, (∀ f ∈ stack, f.opener.literal ≠ "") →
      stack.length ≤ (stack.map Frame.weight).sum := by
    intro stack
    induction stack with
    | nil => exact fun _ => Nat.le_refl 0
    | cons f below ih =>
      intro ho
      have hf : 1 ≤ f.opener.weight := Opener.weight_pos (ho f List.mem_cons_self)
      have hbelow := ih fun g hg => ho g (List.mem_cons_of_mem _ hg)
      simp only [List.length_cons, List.map_cons, List.sum_cons, Frame.weight]
      omega
  have hstack := hall st.stack h.opened
  have hweight := h.weight
  unfold State.weight at hweight
  omega

theorem onTop {f : Content → Content} {k : Nat} (h : st.Light n)
    (hf : ∀ c, (f c).depth ≤ c.depth + k) : (st.onTop f).Light (n + k) := by
  have hle := weight_onTop_le hf st
  have hweight := h.weight
  exact ⟨opened_onTop.mpr h.opened, by omega⟩

theorem pushText (h : st.Light n) (s : String) : (st.pushText s).Light n :=
  h.onTop (k := 0) fun c => Nat.le_of_eq (Content.depth_pushText s c)

theorem push (h : st.Light n) (node : Inline) (depth : Nat) :
    (st.push node depth).Light (n + depth) := by
  refine h.onTop fun c => ?_
  simp only [Content.push]
  omega

/-- Without its innermost frame a state is lighter by that frame. -/
theorem below {f : Frame} {below : List Frame} (h : st.Light n) (hs : st.stack = f :: below)
    (unclosed : Counts) :
    f.weight ≤ n ∧ Light (n - f.weight) { st with stack := below, unclosed } := by
  have hweight := h.weight
  rw [weight_cons hs unclosed] at hweight
  refine ⟨by omega, fun g hg => ?_, by omega⟩
  exact h.opened g (hs ▸ List.mem_cons_of_mem _ hg)

/-- A new frame in front. -/
theorem cons {f : Frame} (h : st.Light n) (hf : f.opener.literal ≠ "") (unclosed : Counts) :
    Light (n + f.weight) { st with stack := f :: st.stack, unclosed } := by
  have hweight := h.weight
  refine ⟨fun g hg => ?_, ?_⟩
  · rcases List.mem_cons.mp hg with rfl | hg
    · exact hf
    · exact h.opened g hg
  · rw [weight_cons rfl st.unclosed]
    show f.weight + st.weight ≤ n + f.weight
    omega

theorem map_deactivate (h : st.Light n) : Light n { st with stack := st.stack.map deactivate } := by
  refine ⟨fun f hf => ?_, ?_⟩
  · obtain ⟨g, hg, rfl⟩ := List.mem_map.mp hf
    rw [literal_deactivate]
    exact h.opened g hg
  · have hsame : Frame.weight ∘ deactivate = Frame.weight := funext weight_deactivate
    simp only [State.weight, List.map_map, hsame]
    exact h.weight

/-- Giving up a frame: its opener weighs nothing any more, and its content as much as
before. -/
theorem collapse (h : st.Light n) : st.collapse.Light n := by
  obtain ⟨root, _ | ⟨f, below⟩, unclosed, dropped⟩ := st
  · exact h
  · obtain ⟨hf, hbelow⟩ := h.below rfl (countsWithout unclosed f.opener)
    have hdepth : ∀ c : Content, (f.flatten c).depth ≤ c.depth + f.content.depth := by
      intro c
      rw [Frame.flatten, Content.depth_absorb]
      omega
    refine (hbelow.onTop hdepth).mono ?_
    unfold Frame.weight at hf ⊢
    omega

theorem unwind (h : st.Light n) (p : Opener → Bool) (k : Nat) : (st.unwind p k).Light n := by
  induction k generalizing st with
  | zero => exact h
  | succ k ih =>
    unfold State.unwind
    split
    · exact h
    · split_ifs
      · exact h
      · exact ih h.collapse

end Light
end State

/-! ### Steps that no limit changes -/

/-- Under every limit from `room` on, the step gives the one result. -/
def Steady {α : Type} (room : Nat) (step : Nat → Except TooDeep α) (result : α) : Prop :=
  ∀ limit, room ≤ limit → step limit = .ok result

namespace State

variable {room n : Nat} {st : State}

/-- The node that closing makes nests one deeper than the content, for which the opener
gives a character at least. -/
theorem closeOnce_steady {k m : Delimiter} {available used : Nat} {content : Content}
    {below : List Frame} (h : st.Light n) (hn : n ≤ room)
    (hs : st.stack = ⟨.emphasis k available, content⟩ :: below) (hu : 1 ≤ used)
    (ha : used ≤ available) :
    ∃ st', Steady room (fun limit => st.closeOnce limit m available used content below) st' ∧
      st'.Light n := by
  have hweight : Frame.weight ⟨.emphasis k available, content⟩ = available + content.depth := rfl
  obtain ⟨hf, hbelow⟩ := h.below hs (st.unclosed.decrement m)
  rw [hweight] at hf hbelow
  have hdeep : ∀ limit, room ≤ limit → ¬ limit < content.depth + 1 := by
    intro limit hlimit
    omega
  by_cases hall : available = used
  · refine ⟨push (emphasisNode used content.toList) (content.depth + 1)
      { st with stack := below, unclosed := st.unclosed.decrement m }, ?_, ?_⟩
    · intro limit hlimit
      simp only [closeOnce]
      rw [if_neg (hdeep limit hlimit), if_pos hall]
    · exact (hbelow.push _ _).mono (by omega)
  · refine ⟨{ st with
      stack := ⟨.emphasis m (available - used), ⟨[emphasisNode used content.toList],
        content.depth + 1⟩⟩ :: below }, ?_, ?_⟩
    · intro limit hlimit
      simp only [closeOnce]
      rw [if_neg (hdeep limit hlimit), if_neg hall]
    · have hleft : (Opener.emphasis m (available - used)).literal ≠ "" :=
        literal_emphasis_ne (by omega)
      have hcons := (h.below hs st.unclosed).2.cons (f := ⟨.emphasis m (available - used),
        ⟨[emphasisNode used content.toList], content.depth + 1⟩⟩) hleft st.unclosed
      refine hcons.mono ?_
      simp only [Frame.weight, Opener.weight]
      omega

theorem closeNext_steady (h : st.Light n) (hn : n ≤ room) (m : Delimiter) (count : Nat) :
    ∃ used st', Steady room (fun limit => st.closeNext limit m count) (used, st') ∧
      st'.Light n := by
  by_cases hnone : count = 0 ∨ st.unclosed.get m = 0
  · refine ⟨0, st, fun limit _ => ?_, h⟩
    simp only [closeNext]
    rw [if_pos hnone]
  · have hun : (st.unwindTo m).Light n := h.unwind _ _
    by_cases htop : ∃ k available content below,
        (st.unwindTo m).stack = ⟨.emphasis k available, content⟩ :: below
    · obtain ⟨k, available, content, below, hs⟩ := htop
      have havail : 1 ≤ available :=
        one_le_of_literal_ne (hun.opened ⟨.emphasis k available, content⟩ (by simp [hs]))
      have hused : 1 ≤ (if 2 ≤ count ∧ 2 ≤ available then 2 else 1) ∧
          (if 2 ≤ count ∧ 2 ≤ available then 2 else 1) ≤ available := by
        split_ifs <;> omega
      obtain ⟨st', hsteady, hlight⟩ := closeOnce_steady (m := m) hun hn hs hused.1 hused.2
      refine ⟨if 2 ≤ count ∧ 2 ≤ available then 2 else 1, st', fun limit hlimit => ?_, hlight⟩
      have hclose := hsteady limit hlimit
      simp only at hclose
      simp only [closeNext]
      rw [if_neg hnone]
      simp only [hs, hclose]
    · -- a bracket is innermost, or nothing is open
      refine ⟨0, st.unwindTo m, fun limit _ => ?_, hun⟩
      simp only [closeNext]
      rw [if_neg hnone]
      split
      · rename_i k available content below hs
        exact absurd ⟨k, available, content, below, hs⟩ htop
      · rfl

theorem closeMany_steady (h : st.Light n) (hn : n ≤ room) (m : Delimiter) (fuel count : Nat) :
    ∃ left st', Steady room (fun limit => closeMany limit m fuel count st) (left, st') ∧
      left ≤ count ∧ st'.Light n := by
  induction fuel generalizing count st with
  | zero => exact ⟨count, st, fun _ _ => rfl, Nat.le_refl _, h⟩
  | succ fuel ih =>
    obtain ⟨used, st₁, hnext, hlight⟩ := closeNext_steady h hn m count
    cases used with
    | zero =>
      refine ⟨count, st₁, fun limit hlimit => ?_, Nat.le_refl _, hlight⟩
      have hfirst := hnext limit hlimit
      simp only at hfirst
      simp only [closeMany]
      rw [hfirst]
      rfl
    | succ used =>
      obtain ⟨left, st₂, hmany, hle, hlight₂⟩ := ih hlight (count - (used + 1))
      refine ⟨left, st₂, fun limit hlimit => ?_, by omega, hlight₂⟩
      have hfirst := hnext limit hlimit
      simp only at hfirst
      simp only [closeMany]
      rw [hfirst]
      exact hmany limit hlimit

/-- A state that weighs less than the limit has room for one more frame. -/
theorem reserve_eq_self {limit : Nat} (h : st.Light n) (hn : n < limit) :
    st.reserve limit = st := by
  have hlength := h.length_stack_le
  unfold reserve
  rw [if_pos]
  omega

/-- A run adds as much as it has characters, at most. -/
theorem delimiterRun_steady {count : Nat} (h : st.Light n) (hn : n + count ≤ room)
    (m : Delimiter) (flanking : Flanking) :
    ∃ st', Steady room (fun limit => st.delimiterRun limit m flanking count) st' ∧
      st'.Light (n + count) := by
  obtain ⟨left, st₁, hclose, hle, hlight⟩ : ∃ left st₁,
      Steady room (fun limit =>
        if flanking.canClose then st.closeEmphasis limit m count else .ok (count, st)) (left, st₁) ∧
        left ≤ count ∧ st₁.Light n := by
    by_cases hc : flanking.canClose = true
    · obtain ⟨left, st₁, hmany, hle, hlight⟩ :=
        closeMany_steady h (show n ≤ room by omega) m count count
      refine ⟨left, st₁, fun limit hlimit => ?_, hle, hlight⟩
      simp only [hc, if_true]
      exact hmany limit hlimit
    · refine ⟨count, st, fun limit _ => ?_, Nat.le_refl _, h⟩
      simp only [hc]
      rfl
  have hrun : ∀ limit, room ≤ limit → st.delimiterRun limit m flanking count =
      if left = 0 then .ok st₁
      else if flanking.canOpen then .ok (st₁.openEmphasis limit m left)
      else .ok (st₁.pushText (String.ofList (List.replicate left m.char))) := by
    intro limit hlimit
    have hfirst := hclose limit hlimit
    simp only at hfirst
    rw [delimiterRun_eq, hfirst]
  by_cases hzero : left = 0
  · refine ⟨st₁, fun limit hlimit => ?_, hlight.mono (by omega)⟩
    simp only [hrun limit hlimit, if_pos hzero]
  · by_cases hopen : flanking.canOpen = true
    · refine ⟨{ st₁ with
        stack := ⟨.emphasis m left, {}⟩ :: st₁.stack
        unclosed := st₁.unclosed.increment m }, fun limit hlimit => ?_, ?_⟩
      · have hroom : st₁.reserve limit = st₁ := reserve_eq_self hlight (by omega)
        simp only [hrun limit hlimit, if_neg hzero, if_pos hopen, openEmphasis, hroom]
      · have hfilled : (Opener.emphasis m left).literal ≠ "" := literal_emphasis_ne (by omega)
        refine (hlight.cons (f := ⟨.emphasis m left, {}⟩) hfilled _).mono ?_
        simp only [Frame.weight, Opener.weight]
        omega
    · refine ⟨st₁.pushText (String.ofList (List.replicate left m.char)), fun limit hlimit => ?_,
        (hlight.pushText _).mono (by omega)⟩
      simp only [hrun limit hlimit, if_neg hzero, if_neg hopen]

theorem openBracket_steady (h : st.Light n) (hn : n + 1 ≤ room) (image : Bool) :
    ∃ st', (∀ limit, room ≤ limit → st.openBracket limit image = st') ∧ st'.Light (n + 1) := by
  refine ⟨{ st with stack := ⟨.bracket image true st.unclosed, {}⟩ :: st.stack, unclosed := {} },
    fun limit hlimit => ?_, ?_⟩
  · have hroom : st.reserve limit = st := reserve_eq_self h (by omega)
    simp only [openBracket, hroom]
  · exact h.cons (f := ⟨.bracket image true st.unclosed, {}⟩) (literal_bracket_ne _ _ _) _

theorem closeBracket_steady (h : st.Light n) (hn : n ≤ room) (after : List Char) :
    ∃ more st', Steady room (fun limit => st.closeBracket limit after) (more, st') ∧
      st'.Light n := by
  by_cases hany : st.stack.any (fun f => f.opener.isBracket) = true
  · have hun : st.unwindToBracket.Light n := h.unwind _ _
    obtain ⟨image, active, enclosed, content, below, hs⟩ := exists_bracket hany
    cases htail : if active = true then LinkTail.read? after else none with
    | none =>
      refine ⟨0, st.unwindToBracket.collapse.pushText "]", fun limit _ => ?_,
        hun.collapse.pushText "]"⟩
      simp only [closeBracket, hany, if_true, hs, htail]
    | some tail =>
      have hweight : Frame.weight ⟨.bracket image active enclosed, content⟩ =
          1 + content.depth := rfl
      obtain ⟨hf, hbelow⟩ := hun.below hs enclosed
      rw [hweight] at hf hbelow
      by_cases himage : image = true
      · refine ⟨tail.size, closeImage tail content
          { st.unwindToBracket with stack := below, unclosed := enclosed }, fun limit _ => ?_, ?_⟩
        · simp only [closeBracket, hany, if_true, hs, htail, himage]
        · exact (hbelow.push _ 0).mono (by omega)
      · -- the link nests one deeper than its content, and the bracket is gone for it
        refine ⟨tail.size, push (.link (String.ofList tail.destination)
            (tail.title.map String.ofList) content.toList) (content.depth + 1)
          { st.unwindToBracket with stack := below.map deactivate, unclosed := enclosed },
          fun limit hlimit => ?_, ?_⟩
        · have hdeep : ¬ limit < content.depth + 1 := by omega
          simp only [closeBracket, hany, if_true, hs, htail, closeLink]
          rw [if_neg himage, if_neg hdeep]
        · exact (hbelow.map_deactivate.push _ _).mono (by omega)
  · refine ⟨0, st.pushText "]", fun limit _ => ?_, h.pushText "]"⟩
    simp only [closeBracket]
    rw [if_neg hany]

/-- **One token.** A token makes a state heavier by its openers at most. -/
theorem step_steady {t : Token} (h : st.Light n) (hs : t.kind.Spelled t.lexeme)
    (hn : n + Text.openers t.lexeme ≤ room) (index : Nat) (closer : Option Nat)
    (rest : List Token) :
    ∃ more st', Steady room (fun limit => st.step limit t index closer rest) (more, st') ∧
      st'.Light (n + Text.openers t.lexeme) := by
  have hroom : n ≤ room := by omega
  have hsame : ∀ {st' : State}, st'.Light n → st'.Light (n + Text.openers t.lexeme) :=
    fun h' => h'.mono (by omega)
  have hrun : ∀ m : Delimiter, Text.openers t.lexeme = t.lexeme.length →
      ∃ more st', Steady room (fun limit => do
          let st ← st.delimiterRun limit m
            (Flanking.between m t.before t.after.head?) t.lexeme.length
          .ok (0, st)) (more, st') ∧
        st'.Light (n + Text.openers t.lexeme) := by
    intro m hlen
    rw [hlen] at hn ⊢
    obtain ⟨st', hsteady, hlight⟩ := delimiterRun_steady h hn m
      (Flanking.between m t.before t.after.head?)
    refine ⟨0, st', fun limit hlimit => ?_, hlight⟩
    have hfirst := hsteady limit hlimit
    simp only at hfirst ⊢
    rw [hfirst]
    rfl
  have hopen : ∀ image : Bool, Text.openers t.lexeme = 1 →
      ∃ more st', Steady room (fun limit => .ok (0, st.openBracket limit image)) (more, st') ∧
        st'.Light (n + Text.openers t.lexeme) := by
    intro image hone
    rw [hone] at hn ⊢
    obtain ⟨st', hsteady, hlight⟩ := openBracket_steady h hn image
    refine ⟨0, st', fun limit hlimit => ?_, hlight⟩
    simp only [hsteady limit hlimit]
  cases hk : t.kind with
  | backticks =>
    refine ⟨(st.backticks t index closer rest).1, (st.backticks t index closer rest).2,
      fun limit _ => by simp only [step, hk], hsame ?_⟩
    unfold backticks
    cases closer with
    | none => exact h.pushText _
    | some close => exact h.push _ 0
  | stars =>
    obtain ⟨k, hl⟩ : ∃ k, t.lexeme = List.replicate (k + 1) Delimiter.star.char := by
      rw [hk] at hs
      exact hs
    simpa only [step, hk] using hrun .star (by rw [hl, Text.openers_run, List.length_replicate])
  | underscores =>
    obtain ⟨k, hl⟩ : ∃ k, t.lexeme = List.replicate (k + 1) Delimiter.underscore.char := by
      rw [hk] at hs
      exact hs
    simpa only [step, hk] using
      hrun .underscore (by rw [hl, Text.openers_run, List.length_replicate])
  | imageOpen =>
    have hl : t.lexeme = ['!', '['] := by
      rw [hk] at hs
      exact hs
    simpa only [step, hk] using hopen true (by rw [hl]; rfl)
  | leftBracket =>
    have hl : t.lexeme = ['['] := by
      rw [hk] at hs
      exact hs
    simpa only [step, hk] using hopen false (by rw [hl]; rfl)
  | rightBracket =>
    obtain ⟨more, st', hsteady, hlight⟩ := closeBracket_steady h hroom t.after
    refine ⟨more, st', fun limit hlimit => ?_, hsame hlight⟩
    simp only [step, hk]
    exact hsteady limit hlimit
  | hardBreak =>
    refine ⟨0, st.push .lineBreak 0, fun limit _ => ?_, hsame (h.push .lineBreak 0)⟩
    simp only [step, hk]
  | escape =>
    refine ⟨0, st.pushText (String.ofList (t.lexeme.drop 1)), fun limit _ => ?_,
      hsame (h.pushText _)⟩
    simp only [step, hk]
  | softBreak =>
    refine ⟨0, st.pushText "\n", fun limit _ => ?_, hsame (h.pushText _)⟩
    simp only [step, hk]
  | leftParen | rightParen | blank | text =>
    refine ⟨0, st.pushText t.content, fun limit _ => ?_, hsame (h.pushText _)⟩
    simp only [step, hk]

end State

/-- **Any tokens.** Tokens are read in one way under every limit that is not below the
number of their openers. -/
theorem run_steady {ts : List Token} (hs : ∀ t ∈ ts, t.kind.Spelled t.lexeme) {room n : Nat}
    {st : State} (h : st.Light n) (hn : n + Text.openers (ts.flatMap Token.lexeme) ≤ room)
    (index resume : Nat) (closers : List (Option Nat)) :
    ∃ st', Steady room (fun limit => run limit index resume st ts closers) st' := by
  induction ts generalizing n st index resume closers with
  | nil => exact ⟨st, fun limit _ => by simp only [run]⟩
  | cons t ts ih =>
    cases closers with
    | nil => exact ⟨st, fun limit _ => by simp only [run]⟩
    | cons closer closers =>
      rw [List.flatMap_cons, Text.openers_append] at hn
      have hrest : ∀ u ∈ ts, u.kind.Spelled u.lexeme := fun u hu =>
        hs u (List.mem_cons_of_mem _ hu)
      by_cases hskip : t.start < resume
      · obtain ⟨st', hsteady⟩ := ih hrest h (by omega) (index + 1) resume closers
        refine ⟨st', fun limit hlimit => ?_⟩
        simp only [run]
        rw [if_pos hskip]
        exact hsteady limit hlimit
      · obtain ⟨more, st₁, hstep, hlight⟩ := State.step_steady h (hs t List.mem_cons_self)
          (show n + Text.openers t.lexeme ≤ room by omega) index closer ts
        obtain ⟨st', hsteady⟩ := ih hrest hlight (by omega) (index + 1) (t.stop + more) closers
        refine ⟨st', fun limit hlimit => ?_⟩
        have hfirst := hstep limit hlimit
        simp only at hfirst
        simp only [run]
        rw [if_neg hskip, hfirst]
        exact hsteady limit hlimit

theorem light_start : ({} : State).Light 0 := ⟨fun f hf => absurd hf (by simp), Nat.le_refl 0⟩

end InlineParser

/-- **Limits that are not met do not matter.** Running text has one reading under all limits
that are not below the number of its openers, and it is no error. -/
theorem Inline.read_eq (text : List Char) :
    ∃ dropped nodes, ∀ limits : Limits, Text.openers text ≤ limits.maxNesting →
      Inline.read limits text = ⟨dropped, .ok nodes⟩ := by
  have htext : (Token.ofText text).flatMap Token.lexeme = text := Token.flatMap_lexeme_ofText text
  have hroom : 0 + Text.openers ((Token.ofText text).flatMap Token.lexeme) ≤
      Text.openers text := by
    rw [htext]
    omega
  obtain ⟨st, hsteady⟩ := InlineParser.run_steady (Token.tiles_ofText text).spelled
    InlineParser.light_start hroom 0 0 (CodeSpan.closers (Token.ofText text))
  refine ⟨st.dropped, st.finish, fun limits hlimits => ?_⟩
  have hrun := hsteady limits.maxNesting hlimits
  simp only at hrun
  simp only [Inline.read, hrun]

end MarkdownHtml
