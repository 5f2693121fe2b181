/-
# What the inline parser does with a token

Reading a token is a sequence of moves over its atoms and those of the tokens that are
passed over with it, the rest of a code span or the tail of a link (`State.step_moves`).
So a run of the parser to the end of a text is a sequence of moves over all atoms of the
text, in order (`run_moves`), and then open frames are given up.

One fact is carried from token to token: the innermost frame, if its run could be closed
by the next token, has collected something (`State.Filled`). It holds because two runs
of one delimiter are never neighbours, and it is why emphasis is never empty.

Key definitions: `State.Filled`, `State.Ready`, `State.Reaches`.
Key theorems: `State.closeMany_moves`, `State.delimiterRun_moves`,
`State.closeBracket_moves`, `State.step_moves`, `run_skip`, `run_moves`, `Inline.moves_of_parse`.
-/
import MarkdownHtml.Proofs.LongestMatch
import MarkdownHtml.Proofs.Moves

namespace MarkdownHtml

/-! ### Content never empties -/

namespace Content

theorem nodes_pushText_ne_nil {s : String} (hs : s ≠ "") (c : Content) :
    (c.pushText s).nodes ≠ [] := by
  have he : s.isEmpty = false := by simpa using hs
  obtain ⟨nodes, depth⟩ := c
  simp only [pushText, he, Bool.false_eq_true, if_false]
  split <;> simp

theorem nodes_addNode_ne_nil {c : Content} (h : c.nodes ≠ []) (n : Inline) :
    (c.addNode n).nodes ≠ [] := by
  obtain ⟨nodes, depth⟩ := c
  unfold addNode
  split
  · unfold pushText
    split_ifs
    · exact h
    · split <;> simp
  · simp

theorem nodes_foldl_addNode_ne_nil {c : Content} (h : c.nodes ≠ []) (ns : List Inline) :
    (ns.foldl addNode c).nodes ≠ [] := by
  induction ns generalizing c with
  | nil => exact h
  | cons n ns ih => exact ih (nodes_addNode_ne_nil h n)

theorem nodes_absorb_ne_nil {s : String} (hs : s ≠ "") (other c : Content) :
    (absorb s other c).nodes ≠ [] :=
  nodes_foldl_addNode_ne_nil (nodes_pushText_ne_nil hs c) other.nodes.reverse

end Content

/-! ### Frames that have collected something -/

namespace InlineParser
namespace State

/-- The innermost frame has collected something. -/
def TopFilled (st : State) : Prop := ∀ f ∈ st.stack.head?, f.content.nodes ≠ []

/-- The innermost frame, if it is a run of `m`, has collected something. -/
def Filled (m : Delimiter) (st : State) : Prop :=
  ∀ f ∈ st.stack.head?, (∃ n, f.opener = .emphasis m n) → f.content.nodes ≠ []

theorem TopFilled.filled {st : State} (h : st.TopFilled) (m : Delimiter) : st.Filled m :=
  fun f hf _ => h f hf

theorem topFilled_onTop {f : Content → Content} (hf : ∀ c, (f c).nodes ≠ []) (st : State) :
    (st.onTop f).TopFilled := by
  obtain ⟨root, _ | ⟨⟨o, c⟩, below⟩, unclosed, dropped⟩ := st
  · intro g hg
    exact absurd hg (by simp [onTop])
  · intro g hg
    obtain rfl : (⟨o, f c⟩ : Frame) = g := by simpa [onTop] using hg
    exact hf c

theorem topFilled_pushText {s : String} (hs : s ≠ "") (st : State) :
    (st.pushText s).TopFilled :=
  topFilled_onTop (Content.nodes_pushText_ne_nil hs) st

theorem topFilled_push (n : Inline) (depth : Nat) (st : State) : (st.push n depth).TopFilled :=
  topFilled_onTop (fun c => by simp [Content.push]) st

theorem Opened.topFilled_collapse {st : State} (ho : st.Opened) : st.collapse.TopFilled := by
  obtain ⟨root, _ | ⟨f, below⟩, unclosed, dropped⟩ := st
  · intro g hg
    exact absurd hg (by simp [State.collapse])
  · have hf : f.opener.literal ≠ "" := ho f List.mem_cons_self
    exact topFilled_onTop (Content.nodes_absorb_ne_nil hf f.content) _

/-! ### Unwinding -/

theorem unwind_moves (limit : Nat) (p : Opener → Bool) (n : Nat) (st : State) :
    Moves limit st [] (st.unwind p n) := by
  induction n generalizing st with
  | zero => exact .refl st
  | succ n ih =>
    unfold unwind
    split
    · exact .refl st
    · rename_i f below hs
      split_ifs
      · exact .refl st
      · exact .cons (.collapse (by simp [hs])) (ih st.collapse)

theorem Filled.unwind {m : Delimiter} {st : State} (ho : st.Opened) (hf : st.Filled m)
    (p : Opener → Bool) (n : Nat) : (st.unwind p n).Filled m := by
  induction n generalizing st with
  | zero => exact hf
  | succ n ih =>
    unfold State.unwind
    split
    · exact hf
    · split_ifs
      · exact hf
      · exact ih ho.collapse (ho.topFilled_collapse.filled m)

theorem TopFilled.unwind {st : State} (ho : st.Opened) (hf : st.TopFilled)
    (p : Opener → Bool) (n : Nat) : (st.unwind p n).TopFilled := by
  induction n generalizing st with
  | zero => exact hf
  | succ n ih =>
    unfold State.unwind
    split
    · exact hf
    · split_ifs
      · exact hf
      · exact ih ho.collapse ho.topFilled_collapse

/-- Unwinding far enough stops at an opener that was looked for. -/
theorem unwind_head {p : Opener → Bool} {n : Nat} {st : State} (hn : st.stack.length ≤ n) :
    ∀ f ∈ (st.unwind p n).stack.head?, p f.opener = true := by
  induction n generalizing st with
  | zero =>
    have hs : st.stack = [] := List.length_eq_zero_iff.mp (by omega)
    intro f hf
    exact absurd hf (by simp [unwind, hs])
  | succ n ih =>
    unfold unwind
    split
    · rename_i hs
      simp [hs]
    · rename_i f below hs
      split_ifs with hp
      · intro g hg
        obtain rfl : f = g := by simpa [hs] using hg
        exact hp
      · refine ih ?_
        rw [length_stack_collapse]
        omega

/-- Unwinding does not pass an opener that is looked for. -/
theorem unwind_ne_nil {p : Opener → Bool} {n : Nat} {st : State}
    (h : ∃ o ∈ st.stack.map Frame.opener, p o = true) : (st.unwind p n).stack ≠ [] := by
  induction n generalizing st with
  | zero =>
    obtain ⟨o, ho, -⟩ := h
    intro hs
    exact absurd ho (by simp [show st.stack = [] from hs])
  | succ n ih =>
    unfold unwind
    split
    · rename_i hs
      obtain ⟨o, ho, -⟩ := h
      exact absurd ho (by simp [hs])
    · rename_i f below hs
      split_ifs with hp
      · simp [hs]
      · refine ih ?_
        obtain ⟨o, ho, hpo⟩ := h
        refine ⟨o, ?_, hpo⟩
        rw [openers_collapse]
        rw [hs, List.map_cons] at ho ⊢
        rcases List.mem_cons.mp ho with rfl | ho
        · exact absurd hpo hp
        · exact ho

/-- If a bracket is open, unwinding ends at the innermost one. -/
theorem exists_bracket {st : State} (h : st.stack.any (fun f => f.opener.isBracket) = true) :
    ∃ image active enclosed content below,
      st.unwindToBracket.stack = ⟨.bracket image active enclosed, content⟩ :: below := by
  have hne : st.unwindToBracket.stack ≠ [] := by
    refine unwind_ne_nil ?_
    obtain ⟨f, hf, hb⟩ := List.any_eq_true.mp h
    exact ⟨f.opener, List.mem_map_of_mem hf, hb⟩
  have hh : ∀ f ∈ st.unwindToBracket.stack.head?, f.opener.isBracket = true :=
    unwind_head (Nat.le_refl _)
  obtain ⟨⟨o, content⟩, below, hst⟩ := List.exists_cons_of_ne_nil hne
  have ho : o.isBracket = true := hh ⟨o, content⟩ (by rw [hst]; rfl)
  cases o with
  | emphasis => exact absurd ho (by simp [Opener.isBracket])
  | bracket image active enclosed => exact ⟨image, active, enclosed, content, below, hst⟩

/-! ### Closing delimiters -/

theorem closeOnce_move {limit : Nat} {m : Delimiter} {available used : Nat} {content : Content}
    {below : List Frame} {st st' : State} {t : Token}
    (hs : st.stack = ⟨.emphasis m available, content⟩ :: below)
    (hu : used = 1 ∨ used = 2) (ha : used ≤ available) (hf : content.nodes ≠ [])
    (ht : t.delimiter? = some m) (hc : (t.flanking m).canClose = true)
    (h : st.closeOnce limit m available used content below = .ok st') :
    Move limit st (List.replicate used (.mark m t)) st' ∧ st'.TopFilled := by
  simp only [closeOnce] at h
  split_ifs at h with hd he
  · obtain rfl := Except.ok.inj h
    subst he
    exact ⟨.closeAll hs ⟨hu, ht, hc, hf, by omega⟩, topFilled_push _ _ _⟩
  · obtain rfl := Except.ok.inj h
    obtain ⟨left, rfl⟩ := Nat.exists_eq_add_of_le ha
    rw [Nat.add_sub_cancel_left]
    refine ⟨.closePart hs (by omega) ⟨hu, ht, hc, hf, by omega⟩, fun f hf => ?_⟩
    simp only [List.head?_cons, Option.mem_def, Option.some.injEq] at hf
    subst hf
    simp

/-- An opener that is some text has delimiters left. -/
theorem one_le_of_literal_ne {m : Delimiter} {n : Nat} (h : (Opener.emphasis m n).literal ≠ "") :
    1 ≤ n := by
  rcases Nat.eq_zero_or_pos n with rfl | hn
  · exact absurd rfl h
  · exact hn

/-- Closing the next delimiters is unwinding, and then closing those of the innermost
frame; afterwards that frame, or the one below, has collected something. -/
theorem closeNext_moves {limit : Nat} {m : Delimiter} {count used : Nat} {st st' : State}
    {t : Token} (ho : st.Opened) (hf : st.Filled m) (ht : t.delimiter? = some m)
    (hc : (t.flanking m).canClose = true)
    (h : st.closeNext limit m count = .ok (used, st')) :
    used ≤ count ∧ Moves limit st (List.replicate used (.mark m t)) st' ∧
      (used ≠ 0 ∨ st.TopFilled → st'.TopFilled) := by
  unfold closeNext at h
  split_ifs at h with h0
  · obtain ⟨rfl, rfl⟩ := Prod.mk.inj (Except.ok.inj h)
    exact ⟨Nat.zero_le _, .refl st, fun hu => hu.resolve_left (by simp)⟩
  · have hw : Moves limit st [] (st.unwindTo m) := unwind_moves limit _ _ st
    have ho' := hw.opened ho
    have hf' : (st.unwindTo m).Filled m := Filled.unwind ho hf _ _
    have htop : st.TopFilled → (st.unwindTo m).TopFilled := fun h => h.unwind ho _ _
    have hh : ∀ f ∈ (st.unwindTo m).stack.head?, ∀ k n, f.opener = .emphasis k n → k = m := by
      intro f hf k n hk
      have hp := unwind_head (Nat.le_refl st.stack.length) f hf
      simpa [hk] using hp
    generalize st.unwindTo m = st₁ at h hw ho' hf' htop hh
    simp only at h
    split at h
    · rename_i k available content below hs
      obtain rfl : k = m := hh ⟨.emphasis k available, content⟩ (by simp [hs]) k available rfl
      have ha : 1 ≤ available := one_le_of_literal_ne (ho' _ (hs ▸ List.mem_cons_self))
      have hn : content.nodes ≠ [] := hf' ⟨.emphasis k available, content⟩ (by simp [hs]) ⟨_, rfl⟩
      split at h
      · rename_i st₂ hst₂
        obtain ⟨rfl, rfl⟩ := Prod.mk.inj (Except.ok.inj h)
        obtain ⟨hm, htop⟩ := closeOnce_move hs (by split_ifs <;> simp) (by split_ifs <;> omega)
          hn ht hc hst₂
        refine ⟨by split_ifs <;> omega, ?_, fun _ => htop⟩
        simpa using hw.trans hm.moves
      · exact absurd h (by simp)
    · obtain ⟨rfl, rfl⟩ := Prod.mk.inj (Except.ok.inj h)
      exact ⟨Nat.zero_le _, hw, fun hu => htop (hu.resolve_left (by simp))⟩

/-- Closing delimiters as often as there is something to close. -/
theorem closeMany_moves {limit : Nat} {m : Delimiter} {fuel count left : Nat} {st st' : State}
    {t : Token} (ho : st.Opened) (hf : st.Filled m) (ht : t.delimiter? = some m)
    (hc : (t.flanking m).canClose = true)
    (h : closeMany limit m fuel count st = .ok (left, st')) :
    left ≤ count ∧ Moves limit st (List.replicate (count - left) (.mark m t)) st' ∧
      (left ≠ count ∨ st.TopFilled → st'.TopFilled) := by
  induction fuel generalizing count st with
  | zero =>
    obtain ⟨rfl, rfl⟩ := Prod.mk.inj (Except.ok.inj h)
    refine ⟨Nat.le_refl _, ?_, fun hl => hl.resolve_left (by simp)⟩
    rw [Nat.sub_self]
    exact .refl st
  | succ fuel ih =>
    unfold closeMany at h
    split at h
    · exact absurd h (by simp)
    · rename_i st₁ hn
      obtain ⟨rfl, rfl⟩ := Prod.mk.inj (Except.ok.inj h)
      obtain ⟨-, hm, htop⟩ := closeNext_moves ho hf ht hc hn
      refine ⟨Nat.le_refl _, ?_, fun hl => htop (.inr (hl.resolve_left (by simp)))⟩
      rw [Nat.sub_self]
      exact hm
    · rename_i used st₁ hu hn
      obtain ⟨hle, hm, htop⟩ := closeNext_moves ho hf ht hc hn
      have htop : st₁.TopFilled := htop (.inl hu)
      obtain ⟨hle', hm', htop'⟩ := ih (hm.opened ho) (htop.filled m) h
      refine ⟨by omega, ?_, fun _ => htop' (.inr htop)⟩
      have := hm.trans hm'
      rw [List.replicate_append_replicate] at this
      rwa [show used + (count - used - left) = count - left by omega] at this

/-! ### Opening frames -/

/-- Making room leaves room for one more frame. -/
theorem reserve_moves {limit : Nat} {st : State} (hb : st.Bounded limit) :
    Moves limit st [] (st.reserve limit) ∧ (st.reserve limit).stack.length < max 1 limit := by
  unfold reserve
  unfold Bounded at hb
  split_ifs with hl
  · exact ⟨.refl st, hl⟩
  · have hn : st.stack ≠ [] := by
      intro hs
      rw [hs] at hl
      simp at hl
    have := length_stack_dropOldest hn
    exact ⟨(Move.dropOldest hn).moves, by omega⟩

/-- What the moves of the next token depend on. -/
structure Ready (limit : Nat) (ts : List Token) (st : State) : Prop where
  opened : st.Opened
  bounded : st.Bounded limit
  filled : ∀ t ∈ ts.head?, ∀ m, t.delimiter? = some m → st.Filled m

/-- The characters of a run that stay are text. -/
theorem literal_replicate_mark (m : Delimiter) (t : Token) (n : Nat) :
    Literal (List.replicate n (.mark m t)) (String.ofList (List.replicate n m.char)) where
  noBreak a ha := by
    obtain rfl := List.eq_of_mem_replicate ha
    rfl
  literal := by simp [List.flatMap_replicate, Atom.literal]
  nonempty h := by
    have := congrArg String.toList h
    simpa using this

/-- A run closes first, if it may, and then what is left opens or is text. -/
theorem delimiterRun_eq (limit : Nat) (m : Delimiter) (flanking : Flanking) (count : Nat)
    (st : State) :
    st.delimiterRun limit m flanking count =
      match if flanking.canClose then st.closeEmphasis limit m count else .ok (count, st) with
      | .error e => .error e
      | .ok (count, st) =>
        if count = 0 then .ok st
        else if flanking.canOpen then .ok (st.openEmphasis limit m count)
        else .ok (st.pushText (String.ofList (List.replicate count m.char))) := by
  unfold delimiterRun
  by_cases hc : flanking.canClose = true
  · simp only [hc, if_true]
    cases st.closeEmphasis limit m count <;> rfl
  · simp only [hc]
    rfl

/-- A run of delimiters closes what it can; what is left opens a frame or is text. -/
theorem delimiterRun_moves {limit : Nat} {m : Delimiter} {count : Nat} {st st' : State}
    {t : Token} (ho : st.Opened) (hb : st.Bounded limit) (hf : st.Filled m)
    (ht : t.delimiter? = some m) (hn : 1 ≤ count)
    (h : st.delimiterRun limit m (t.flanking m) count = .ok st') :
    Moves limit st (List.replicate count (.mark m t)) st' ∧ ∀ k, k ≠ m → st'.Filled k := by
  obtain ⟨left, st₁, hle, hm, htop, h⟩ : ∃ left st₁, left ≤ count ∧
      Moves limit st (List.replicate (count - left) (.mark m t)) st₁ ∧
      (left ≠ count → st₁.TopFilled) ∧
      (if left = 0 then .ok st₁
        else if (t.flanking m).canOpen then .ok (st₁.openEmphasis limit m left)
        else .ok (st₁.pushText (String.ofList (List.replicate left m.char)))) =
        (.ok st' : Except TooDeep State) := by
    rw [delimiterRun_eq] at h
    by_cases hc : (t.flanking m).canClose = true
    · rw [if_pos hc] at h
      split at h
      · exact absurd h (by simp)
      · rename_i left st₁ hr
        obtain ⟨hle, hm, htop⟩ := closeMany_moves ho hf ht hc hr
        exact ⟨left, st₁, hle, hm, fun hl => htop (.inl hl), h⟩
    · rw [if_neg hc] at h
      refine ⟨count, st, Nat.le_refl _, ?_, fun hl => absurd rfl hl, h⟩
      rw [Nat.sub_self]
      exact .refl st
  have hjoin : ∀ {st₂ : State}, Moves limit st₁ (List.replicate left (.mark m t)) st₂ →
      Moves limit st (List.replicate count (.mark m t)) st₂ := by
    intro st₂ h₂
    have := hm.trans h₂
    rw [List.replicate_append_replicate] at this
    rwa [show count - left + left = count by omega] at this
  split_ifs at h with h0 hop
  · obtain rfl := Except.ok.inj h
    subst h0
    exact ⟨by simpa using hm, fun k _ => (htop (by omega)).filled k⟩
  · obtain rfl := Except.ok.inj h
    obtain ⟨hr, hroom⟩ := reserve_moves (hm.bounded hb)
    refine ⟨hjoin ?_, fun k hk f hf hfk => ?_⟩
    · have hmove : Move limit (st₁.reserve limit) (List.replicate left (.mark m t))
          (st₁.openEmphasis limit m left) := .openRun (by omega) ht hop hroom
      simpa using hr.trans hmove.moves
    · -- the new frame is innermost, and its run is one of `m`
      simp only [openEmphasis, List.head?_cons, Option.mem_def, Option.some.injEq] at hf
      subst hf
      obtain ⟨n, hn⟩ := hfk
      exact absurd (Opener.emphasis.inj hn).1.symm hk
  · obtain rfl := Except.ok.inj h
    have hlit := literal_replicate_mark m t left
    have hne : String.ofList (List.replicate left m.char) ≠ "" := fun he =>
      h0 (by simpa using hlit.nonempty he)
    exact ⟨hjoin (Move.text hlit hne).moves, fun k _ => (topFilled_pushText hne _).filled k⟩

/-! ### Brackets -/

theorem openBracket_moves {limit : Nat} {st : State} {t : Token} {image : Bool}
    (hb : st.Bounded limit) (hk : t.kind = if image then .imageOpen else .leftBracket)
    (hs : t.kind.Spelled t.lexeme) :
    Moves limit st [.token t] (st.openBracket limit image) := by
  obtain ⟨hr, hroom⟩ := reserve_moves hb
  have hmove : Move limit (st.reserve limit) [.token t] (st.openBracket limit image) :=
    .openBracket hk hs hroom
  exact hr.trans hmove.moves

/-- A token other than a hard break, as text. -/
theorem literal_token {t : Token} (hs : t.kind.Spelled t.lexeme) (hk : t.kind ≠ .hardBreak) :
    Literal [.token t] (String.ofList (Atom.token t).literal) ∧
      String.ofList (Atom.token t).literal ≠ "" := by
  have hne : (Atom.token t).literal ≠ [] := by
    have hl := Token.lexeme_ne_nil_of_spelled hs
    simp only [Atom.literal]
    split
    · rename_i he
      rw [he] at hs
      obtain ⟨c, -, hc⟩ := hs
      simp [hc]
    · simp
    · exact hl
  have hne' : String.ofList (Atom.token t).literal ≠ "" := by
    intro he
    exact hne (by simpa using congrArg String.toList he)
  refine ⟨⟨?_, by simp, fun he => absurd he hne'⟩, hne'⟩
  intro a ha
  obtain rfl := List.mem_singleton.mp ha
  simpa [Atom.isHardBreak] using hk

/-- A `]` makes a link or an image of the innermost bracket, together with the tokens of
its tail, or is text. -/
theorem closeBracket_moves {limit start more : Nat} {before : Option Char} {st st' : State}
    {t : Token} {ts : List Token} (hk : t.kind = .rightBracket)
    (hs : t.kind.Spelled t.lexeme) (ht : Token.Tiles start before t.after ts)
    (h : st.closeBracket limit t.after = .ok (more, st')) :
    ∃ us vs, ts = us ++ vs ∧ Text.byteLength (us.flatMap Token.lexeme) = more ∧
      Moves limit st (.token t :: us.flatMap Token.atoms) st' ∧ st'.TopFilled := by
  have hl : t.lexeme = [']'] := by
    rw [hk] at hs
    exact hs
  have hlit : Literal [.token t] "]" := by
    have := (literal_token hs (by simp [hk])).1
    simpa [Atom.literal, hk, hl] using this
  have htext : ∀ st₁ : State, Moves limit st₁ [.token t] (st₁.pushText "]") := fun st₁ =>
    (Move.text hlit (by simp)).moves
  unfold closeBracket at h
  split_ifs at h with hany
  · have hw : Moves limit st [] st.unwindToBracket := unwind_moves limit _ _ st
    obtain ⟨image, active, enclosed, content, below, hst⟩ := exists_bracket hany
    generalize st.unwindToBracket = st₁ at h hw hst
    simp only [hst] at h
    split at h
    · -- no tail: the bracket and the `]` are text
      obtain ⟨rfl, rfl⟩ := Prod.mk.inj (Except.ok.inj h)
      refine ⟨[], ts, rfl, rfl, ?_, topFilled_pushText (by simp) _⟩
      have hcol : Moves limit st₁ [] st₁.collapse := (Move.collapse (by simp [hst])).moves
      exact hw.trans (hcol.trans (htext _))
    · rename_i tail htail
      obtain ⟨rfl, hread⟩ : active = true ∧ LinkTail.read? t.after = some tail := by
        split_ifs at htail with ha
        exact ⟨ha, htail⟩
      obtain ⟨us, vs, rfl, hu, -⟩ := LinkTail.exists_tokens_of_read? ht hread
      have htailed : Tailed t tail (us.flatMap Token.atoms) := by
        refine ⟨hl, hread, ?_⟩
        rw [← hu]
        exact Token.flatMap_written fun u hu => ht.spelled u (List.mem_append_left _ hu)
      split_ifs at h with himg
      · obtain ⟨rfl, rfl⟩ := Prod.mk.inj (Except.ok.inj h)
        subst himg
        refine ⟨us, vs, rfl, by rw [hu]; rfl, ?_, topFilled_push _ _ _⟩
        exact hw.trans (Move.image hst htailed).moves
      · obtain rfl : image = false := by simpa using himg
        split at h
        · rename_i st₂ hlink
          obtain ⟨rfl, rfl⟩ := Prod.mk.inj (Except.ok.inj h)
          simp only [closeLink] at hlink
          split_ifs at hlink with hd
          obtain rfl := Except.ok.inj hlink
          refine ⟨us, vs, rfl, by rw [hu]; rfl, ?_, topFilled_push _ _ _⟩
          exact hw.trans (Move.link hst htailed (by omega)).moves
        · exact absurd h (by simp)
  · obtain ⟨rfl, rfl⟩ := Prod.mk.inj (Except.ok.inj h)
    exact ⟨[], ts, rfl, rfl, htext st, topFilled_pushText (by simp) _⟩

/-! ### Tokens -/

/-- A run of backticks is a code span up to its closer, or text. -/
theorem backticks_moves {limit start index more : Nat} {before : Option Char} {st st' : State}
    {t : Token} {ts : List Token} (hk : t.kind = .backticks)
    (hs : Token.Tiles start before t.after ts) (ht : t.kind.Spelled t.lexeme)
    (h : st.backticks t index ((CodeSpan.closer? t ts).map (index + 1 + ·)) ts = (more, st')) :
    ∃ us vs, ts = us ++ vs ∧ Text.byteLength (us.flatMap Token.lexeme) = more ∧
      Moves limit st (.token t :: us.flatMap Token.atoms) st' ∧ st'.TopFilled := by
  unfold backticks at h
  cases hc : CodeSpan.closer? t ts with
  | none =>
    rw [hc] at h
    obtain ⟨rfl, rfl⟩ := Prod.mk.inj h
    obtain ⟨hlit, hne⟩ := literal_token ht (by simp [hk])
    have hcontent : String.ofList (Atom.token t).literal = t.content := by
      simp [Atom.literal, hk, Token.content]
    rw [hcontent] at hlit hne
    exact ⟨[], ts, rfl, rfl, (Move.text hlit hne).moves, topFilled_pushText hne _⟩
  | some n =>
    obtain ⟨-, inner, close, later, rfl, rfl, hck, hcl⟩ := CodeSpan.exists_of_closer? hc
    rw [hc] at h
    simp only [Option.map_some, show index + 1 + inner.length - index - 1 = inner.length by omega,
      List.take_left'] at h
    obtain ⟨rfl, rfl⟩ := Prod.mk.inj h
    have hsc : close.kind.Spelled close.lexeme := hs.spelled close (by simp)
    rw [hk] at ht
    rw [hck] at hsc
    obtain ⟨n, hn⟩ := ht
    obtain ⟨k, hk'⟩ := hsc
    obtain rfl : k = n := by
      have := hcl
      rw [hn, hk'] at this
      simpa using this
    have hraw : (inner.flatMap Token.atoms).flatMap Atom.written = inner.flatMap Token.lexeme :=
      Token.flatMap_written fun u hu => hs.spelled u (by simp [hu])
    have hpiece : Piece (.token t :: (inner ++ [close]).flatMap Token.atoms)
        (.code (String.ofList (CodeSpan.content (inner.flatMap Token.lexeme)))) := by
      have hca : close.atoms = [.token close] := by simp [Token.atoms, Token.delimiter?, hck]
      rw [List.flatMap_append, List.flatMap_singleton, hca, ← hraw]
      exact .code hn hk'
    refine ⟨inner ++ [close], later, by simp, ?_, (Move.leaf hpiece rfl).moves,
      topFilled_push _ _ _⟩
    simp [hn, hk']

theorem Ready.of_topFilled {limit : Nat} {st st' : State} {p : List Atom} {ts us : List Token}
    (hr : st.Ready limit ts) (h : Moves limit st p st') (ht : st'.TopFilled) :
    st'.Ready limit us :=
  ⟨h.opened hr.opened, h.bounded hr.bounded, fun _ _ m _ => ht.filled m⟩

/-- A frame that a run has opened is not closed by the token behind it, which is no run
of the same delimiter. -/
theorem Ready.of_run {limit start : Nat} {before : Option Char} {s : List Char}
    {st st' : State} {p : List Atom} {t : Token} {ts : List Token} {m : Delimiter}
    (ht : Token.Tiles start before s (t :: ts)) (hm : t.delimiter? = some m)
    (hr : st.Ready limit (t :: ts)) (h : Moves limit st p st')
    (hf : ∀ k, k ≠ m → st'.Filled k) : st'.Ready limit ts := by
  refine ⟨h.opened hr.opened, h.bounded hr.bounded, fun u hu k hk => hf k ?_⟩
  cases ts with
  | nil => exact absurd hu (by simp)
  | cons v ts =>
    obtain rfl : v = u := by simpa using hu
    rintro rfl
    rcases ht.neighbours with hn | hn
    · exact absurd hm (by simp [hn])
    · exact hn (hm.trans hk.symm)

/-- Reading the token `t` in front of `ts` takes the parser from `st` to `st'` by moves
over the atoms of `t` and of the tokens that the next `more` bytes hold, and leaves it
ready for the token behind these. -/
def Reaches (limit : Nat) (t : Token) (ts : List Token) (st : State) (more : Nat) (st' : State) :
    Prop :=
  ∃ us vs, ts = us ++ vs ∧ Text.byteLength (us.flatMap Token.lexeme) = more ∧
    Moves limit st (t.atoms ++ us.flatMap Token.atoms) st' ∧ st'.Ready limit vs

/-- A token that is taken as text. -/
theorem Ready.reaches_text {limit : Nat} {st : State} {t : Token} {ts : List Token}
    (hr : st.Ready limit (t :: ts)) (hs : t.kind.Spelled t.lexeme) (hd : t.delimiter? = none)
    (hb : t.kind ≠ .hardBreak) :
    Reaches limit t ts st 0 (st.pushText (String.ofList (Atom.token t).literal)) := by
  obtain ⟨hlit, hne⟩ := literal_token hs hb
  have hm : Moves limit st (t.atoms ++ [].flatMap Token.atoms)
      (st.pushText (String.ofList (Atom.token t).literal)) := by
    simpa [Token.atoms, hd] using (Move.text hlit hne).moves
  exact ⟨[], ts, rfl, rfl, hm, hr.of_topFilled hm (topFilled_pushText hne _)⟩

theorem Ready.reaches_run {limit start : Nat} {before : Option Char} {s : List Char}
    {st st' : State} {t : Token} {ts : List Token} {m : Delimiter}
    (ht : Token.Tiles start before s (t :: ts)) (hr : st.Ready limit (t :: ts))
    (hm : t.delimiter? = some m)
    (h : st.delimiterRun limit m (t.flanking m) t.lexeme.length = .ok st') :
    Reaches limit t ts st 0 st' := by
  have hs : t.kind.Spelled t.lexeme := ht.spelled t List.mem_cons_self
  have hlen : 1 ≤ t.lexeme.length :=
    List.length_pos_iff.mpr (Token.lexeme_ne_nil_of_spelled hs)
  obtain ⟨hmv, hf⟩ := delimiterRun_moves hr.opened hr.bounded (hr.filled t (by simp) m hm) hm
    hlen h
  refine ⟨[], ts, rfl, rfl, ?_, hr.of_run ht hm hmv hf⟩
  simpa [Token.atoms, hm] using hmv

theorem Ready.reaches_open {limit : Nat} {st : State} {t : Token} {ts : List Token}
    {image : Bool} (hr : st.Ready limit (t :: ts)) (hs : t.kind.Spelled t.lexeme)
    (hk : t.kind = if image then .imageOpen else .leftBracket) :
    Reaches limit t ts st 0 (st.openBracket limit image) := by
  have hmv := openBracket_moves hr.bounded hk hs
  have hd : t.delimiter? = none := by cases image <;> simp [Token.delimiter?, hk]
  refine ⟨[], ts, rfl, rfl, by simpa [Token.atoms, hd] using hmv, hmv.opened hr.opened,
    hmv.bounded hr.bounded, fun _ _ m _ f hf hfm => ?_⟩
  -- the new frame is innermost, and it is no run
  simp only [openBracket, List.head?_cons, Option.mem_def, Option.some.injEq] at hf
  subst hf
  obtain ⟨n, hn⟩ := hfm
  exact absurd hn (by simp)

/-- A token that other tokens are passed over with. -/
theorem Ready.reaches_passing {limit more : Nat} {st st' : State} {t : Token} {ts : List Token}
    (hr : st.Ready limit (t :: ts)) (hd : t.delimiter? = none)
    (h : ∃ us vs, ts = us ++ vs ∧ Text.byteLength (us.flatMap Token.lexeme) = more ∧
      Moves limit st (.token t :: us.flatMap Token.atoms) st' ∧ st'.TopFilled) :
    Reaches limit t ts st more st' := by
  obtain ⟨us, vs, rfl, hl, hm, htop⟩ := h
  refine ⟨us, vs, rfl, hl, ?_, hr.of_topFilled hm htop⟩
  simpa [Token.atoms, hd] using hm

/-- **What one token does.** Whatever its kind, reading a token is a sequence of moves. -/
theorem step_moves {limit start index more : Nat} {before : Option Char} {s : List Char}
    {st st' : State} {t : Token} {ts : List Token} (ht : Token.Tiles start before s (t :: ts))
    (hr : st.Ready limit (t :: ts))
    (h : st.step limit t index ((CodeSpan.closer? t ts).map (index + 1 + ·)) ts =
      .ok (more, st')) :
    Reaches limit t ts st more st' := by
  have hs : t.kind.Spelled t.lexeme := ht.spelled t List.mem_cons_self
  have htail := ht.tail
  have hrun : ∀ m, t.delimiter? = some m → (do
        let st ← st.delimiterRun limit m (t.flanking m) t.lexeme.length
        .ok (0, st)) = (.ok (more, st') : Except TooDeep (Nat × State)) →
      Reaches limit t ts st more st' := by
    intro m hm he
    cases hd : st.delimiterRun limit m (t.flanking m) t.lexeme.length with
    | error e =>
      rw [hd] at he
      exact absurd he (by simp [bind, Except.bind])
    | ok st₁ =>
      rw [hd] at he
      obtain ⟨rfl, rfl⟩ := Prod.mk.inj (Except.ok.inj he)
      exact hr.reaches_run ht hm hd
  have htext : ∀ x : String, t.delimiter? = none → t.kind ≠ .hardBreak →
      String.ofList (Atom.token t).literal = x → Except.ok (0, st.pushText x) =
        (.ok (more, st') : Except TooDeep (Nat × State)) →
      Reaches limit t ts st more st' := by
    rintro x hd hb rfl he
    obtain ⟨rfl, rfl⟩ := Prod.mk.inj (Except.ok.inj he)
    exact hr.reaches_text hs hd hb
  unfold step at h
  simp only at h
  split at h
  all_goals rename_i hk
  · exact hr.reaches_passing (by simp [Token.delimiter?, hk])
      (backticks_moves hk htail hs (Except.ok.inj h))
  · exact hrun .star (by simp [Token.delimiter?, hk]) h
  · exact hrun .underscore (by simp [Token.delimiter?, hk]) h
  · obtain ⟨rfl, rfl⟩ := Prod.mk.inj (Except.ok.inj h)
    exact hr.reaches_open hs hk
  · obtain ⟨rfl, rfl⟩ := Prod.mk.inj (Except.ok.inj h)
    exact hr.reaches_open hs hk
  · exact hr.reaches_passing (by simp [Token.delimiter?, hk]) (closeBracket_moves hk hs htail h)
  · exact htext _ (by simp [Token.delimiter?, hk]) (by simp [hk]) (by simp [Atom.literal, hk]) h
  · obtain ⟨rfl, rfl⟩ := Prod.mk.inj (Except.ok.inj h)
    refine hr.reaches_passing (by simp [Token.delimiter?, hk])
      ⟨[], ts, rfl, rfl, (Move.leaf (Piece.lineBreak hk) rfl).moves, topFilled_push _ _ _⟩
  · exact htext _ (by simp [Token.delimiter?, hk]) (by simp [hk]) (by simp [Atom.literal, hk]) h
  all_goals
    exact htext _ (by simp [Token.delimiter?, hk]) (by simp [hk])
      (by simp [Atom.literal, hk, Token.content]) h

end State

/-! ### Whole runs -/

/-- Tokens that start before the offset to resume at are passed over. -/
theorem run_skip {limit index resume : Nat} {st : State} {us : List Token} (vs : List Token)
    (closers : List (Option Nat)) (h : ∀ u ∈ us, u.start < resume) :
    run limit index resume st (us ++ vs) closers =
      run limit (index + us.length) resume st vs (closers.drop us.length) := by
  induction us generalizing index closers with
  | nil => rfl
  | cons u us ih =>
    have hu : u.start < resume := h u List.mem_cons_self
    cases closers with
    | nil =>
      rw [List.drop_nil]
      cases vs <;> rfl
    | cons closer closers =>
      rw [List.cons_append, run, if_pos hu, ih closers fun v hv => h v (List.mem_cons_of_mem _ hv),
        List.length_cons, List.drop_succ_cons, Nat.add_right_comm, Nat.add_assoc]

theorem run_append {limit index resume : Nat} {st : State} {us vs : List Token}
    (h : ∀ u ∈ us, u.start < resume) :
    run limit index resume st (us ++ vs) (CodeSpan.closersFrom index (us ++ vs)) =
      run limit (index + us.length) resume st vs
        (CodeSpan.closersFrom (index + us.length) vs) := by
  rw [run_skip vs _ h, CodeSpan.drop_closersFrom]

/-- What is read with a token is what will be passed over, and the tokens behind it tile the
rest of the text. -/
theorem State.step_ahead {limit start index more : Nat} {before : Option Char} {s : List Char}
    {st st₁ : State} {t : Token} {ts : List Token} (ht : Token.Tiles start before s (t :: ts))
    (hr : st.Ready limit (t :: ts))
    (hstep : st.step limit t index ((CodeSpan.closer? t ts).map (index + 1 + ·)) ts =
      .ok (more, st₁)) :
    ∃ us vs b, ts = us ++ vs ∧ (∀ u ∈ us, u.start < t.stop + more) ∧
      Token.Tiles (t.stop + more) b (vs.flatMap Token.lexeme) vs ∧
      Moves limit st (t.atoms ++ us.flatMap Token.atoms) st₁ ∧ st₁.Ready limit vs := by
  obtain ⟨us, vs, rfl, hlen, hm, hr₁⟩ := State.step_moves ht hr hstep
  have htail := ht.tail
  obtain ⟨b, hvs⟩ := htail.split
  have hskip := htail.start_lt
  rw [hlen] at hvs hskip
  exact ⟨us, vs, b, rfl, hskip, hvs, hm, hr₁⟩

/-- A run that reaches its end goes from the first token to a later one and on from there. -/
theorem run_cons_of_step {limit start index resume more : Nat} {before : Option Char}
    {s : List Char} {st st₁ st' : State} {t : Token} {ts : List Token}
    (ht : Token.Tiles start before s (t :: ts)) (hr : st.Ready limit (t :: ts))
    (hres : resume ≤ start)
    (hstep : st.step limit t index ((CodeSpan.closer? t ts).map (index + 1 + ·)) ts =
      .ok (more, st₁))
    (h : run limit index resume st (t :: ts) (CodeSpan.closersFrom index (t :: ts)) = .ok st') :
    ∃ us vs b, ts = us ++ vs ∧ Token.Tiles (t.stop + more) b (vs.flatMap Token.lexeme) vs ∧
      Moves limit st (t.atoms ++ us.flatMap Token.atoms) st₁ ∧ st₁.Ready limit vs ∧
      run limit (index + 1 + us.length) (t.stop + more) st₁ vs
        (CodeSpan.closersFrom (index + 1 + us.length) vs) = .ok st' := by
  have hstart := ht.start_head
  obtain ⟨us, vs, b, rfl, hskip, hvs, hm, hr₁⟩ := State.step_ahead ht hr hstep
  rw [CodeSpan.closersFrom, run, if_neg (by omega), hstep] at h
  simp only at h
  rw [run_append hskip] at h
  exact ⟨us, vs, b, rfl, hvs, hm, hr₁, h⟩

/-- **A run accounts for every atom.** Reading tokens to their end is a sequence of moves
that read all their atoms, in order. -/
theorem run_moves {limit start index resume : Nat} {before : Option Char} {s : List Char}
    {st st' : State} {ts : List Token} (ht : Token.Tiles start before s ts)
    (hr : st.Ready limit ts) (hres : resume ≤ start)
    (h : run limit index resume st ts (CodeSpan.closersFrom index ts) = .ok st') :
    Moves limit st (ts.flatMap Token.atoms) st' := by
  -- by strong induction on the number of tokens: a step can pass over several
  induction hn : ts.length using Nat.strongRecOn generalizing ts start index resume before s st with
  | ind n ih =>
    subst hn
    cases ts with
    | nil =>
      simp only [run, Except.ok.injEq] at h
      subst h
      exact .refl st
    | cons t ts =>
      cases hstep : st.step limit t index ((CodeSpan.closer? t ts).map (index + 1 + ·)) ts with
      | ok result =>
        obtain ⟨us, vs, b, rfl, hvs, hm, hr₁, hrest⟩ := run_cons_of_step ht hr hres hstep h
        have hshort : vs.length < (t :: (us ++ vs)).length := by
          rw [List.length_cons, List.length_append]
          omega
        have := hm.trans (ih vs.length hshort hvs hr₁ le_rfl hrest rfl)
        simpa [List.append_assoc] using this
      | error e =>
        have hstart := ht.start_head
        rw [CodeSpan.closersFrom, run, if_neg (by omega), hstep] at h
        exact absurd h (by simp)

/-- The parser starts ready. -/
theorem ready_start (limit : Nat) (ts : List Token) : ({} : State).Ready limit ts where
  opened f hf := absurd hf (by simp)
  bounded := Nat.zero_le _
  filled _ _ _ _ f hf := absurd hf (by simp)

end InlineParser

/-- Reading a text that does not nest too deep is a sequence of moves over its atoms, after
which all open frames are given up. -/
theorem Inline.moves_of_parse {limits : Limits} {text : List Char} {nodes : List Inline}
    (h : Inline.parse limits text = .ok nodes) :
    ∃ st : InlineParser.State,
      InlineParser.Moves limits.maxNesting {} (Atom.ofText text) st ∧ nodes = st.finish := by
  simp only [Inline.parse, Inline.read] at h
  rw [CodeSpan.closers_eq_closersFrom] at h
  split at h
  · rename_i st hrun
    refine ⟨st, ?_, (Except.ok.inj h).symm⟩
    exact InlineParser.run_moves (Token.tiles_ofText text) (InlineParser.ready_start _ _)
      (Nat.le_refl 0) hrun
  · exact absurd h (by simp)

end MarkdownHtml
