/-
# Tokens tile their text

The tokens of a text are laid end to end: each starts where the one before it
ends, and together they are the text (`Tiles`, `flatMap_lexeme_ofText`). A token is
spelled as its kind says (`Spelled`).

Everything is proved along `Tiles`, which gives the first token of a text and says
that the others tile what stands behind it; `cut` itself, with its accumulator and
its count of characters to pass over, is opened only in `tiles_cut`.

Key definitions: `Token.front`, `Token.Tiles`, `TokenKind.Spelled`.
Key theorems: `Token.tiles_ofText`, `Token.flatMap_lexeme_ofText`,
`Token.spelled_front`, `Token.Tiles.start_lt`.
-/
import MarkdownHtml.Inline.Token
import MarkdownHtml.Inline.Flanking
import Mathlib

namespace MarkdownHtml

/-! ### Sizes -/

namespace Text

theorem foldl_utf8Size (s : List Char) (n : Nat) :
    s.foldl (fun n c => n + c.utf8Size) n = n + byteLength s := by
  induction s generalizing n with
  | nil => simp [byteLength]
  | cons c s ih =>
    simp only [byteLength, List.foldl_cons]
    rw [ih, ih (0 + c.utf8Size)]
    omega

@[simp] theorem byteLength_nil : byteLength [] = 0 := rfl

@[simp] theorem byteLength_cons (c : Char) (s : List Char) :
    byteLength (c :: s) = c.utf8Size + byteLength s := by
  rw [byteLength, List.foldl_cons, foldl_utf8Size]
  omega

@[simp] theorem byteLength_append (s t : List Char) :
    byteLength (s ++ t) = byteLength s + byteLength t := by
  induction s with
  | nil => simp
  | cons c s ih => simp [ih, Nat.add_assoc]

theorem byteLength_pos {s : List Char} (h : s ≠ []) : 0 < byteLength s := by
  cases s with
  | nil => exact absurd rfl h
  | cons c s =>
    have := c.utf8Size_pos
    simp only [byteLength_cons]
    omega

end Text

namespace Token

/-! ### The first token of a text -/

/-- The token at the start of `c :: rest`, a text behind `before` at offset `start`. -/
def front (start : Nat) (before : Option Char) (c : Char) (rest : List Char) : Token :=
  ⟨(scan c rest).1, c :: rest.take (scan c rest).2, start, before, rest.drop (scan c rest).2⟩

/-- `Tiles start before s ts`: the tokens `ts` are those of the text `s`, which stands
behind `before` at offset `start`. -/
inductive Tiles : Nat → Option Char → List Char → List Token → Prop
  | nil (start : Nat) (before : Option Char) : Tiles start before [] []
  | cons {start : Nat} {before : Option Char} {c : Char} {rest : List Char} {ts : List Token} :
      Tiles (front start before c rest).stop (front start before c rest).lexeme.getLast?
        (front start before c rest).after ts →
      Tiles start before (c :: rest) (front start before c rest :: ts)

theorem cut_append (start : Nat) (before : Option Char) (done : List Token) (skip : Nat)
    (s : List Char) :
    cut start before done skip s = done.reverse ++ cut start before [] skip s := by
  induction s generalizing start before done skip with
  | nil => cases skip <;> simp [cut]
  | cons c rest ih =>
    cases skip with
    | zero =>
      simp only [cut]
      rw [ih _ _ (_ :: done), ih _ _ [_]]
      simp
    | succ skip =>
      simp only [cut]
      exact ih start before done skip

/-- What `cut` gives tiles the text behind the characters it passes over. -/
theorem tiles_cut (start : Nat) (before : Option Char) (skip : Nat) (s : List Char) :
    Tiles start before (s.drop skip) (cut start before [] skip s) := by
  induction s generalizing start before skip with
  | nil => cases skip <;> exact .nil start before
  | cons c rest ih =>
    cases skip with
    | zero =>
      simp only [cut]
      rw [cut_append]
      exact .cons (ih _ _ (scan c rest).2)
    | succ skip => exact ih start before skip

theorem tiles_ofText (s : List Char) : Tiles 0 none s (ofText s) := tiles_cut 0 none 0 s

theorem lexeme_append_after_front (start : Nat) (before : Option Char) (c : Char)
    (rest : List Char) :
    (front start before c rest).lexeme ++ (front start before c rest).after = c :: rest := by
  simp [front]

/-- The lexemes of the tokens, put together, are the text. -/
theorem Tiles.flatMap_lexeme {start : Nat} {before : Option Char} {s : List Char}
    {ts : List Token} (h : Tiles start before s ts) : ts.flatMap lexeme = s := by
  induction h with
  | nil => rfl
  | @cons start before c rest ts _ ih =>
    rw [List.flatMap_cons, ih]
    exact lexeme_append_after_front start before c rest

theorem flatMap_lexeme_ofText (s : List Char) : (ofText s).flatMap lexeme = s :=
  (tiles_ofText s).flatMap_lexeme

/-- A cut of the tokens is a cut of the text, and the later tokens tile the rest. -/
theorem Tiles.split {start : Nat} {before : Option Char} {s : List Char} {us vs : List Token}
    (h : Tiles start before s (us ++ vs)) :
    ∃ b, Tiles (start + Text.byteLength (us.flatMap lexeme)) b (vs.flatMap lexeme) vs := by
  induction us generalizing start before s with
  | nil =>
    refine ⟨before, ?_⟩
    have hs : vs.flatMap lexeme = s := h.flatMap_lexeme
    rw [hs]
    exact h
  | cons u us ih =>
    rw [List.cons_append] at h
    cases h with
    | cons h =>
      obtain ⟨b, hb⟩ := ih h
      refine ⟨b, ?_⟩
      rw [List.flatMap_cons, Text.byteLength_append, ← Nat.add_assoc]
      exact hb

/-- The first token starts where the text does. -/
theorem Tiles.start_head {start : Nat} {before : Option Char} {s : List Char} {t : Token}
    {ts : List Token} (h : Tiles start before s (t :: ts)) : t.start = start := by
  cases h
  rfl

end Token

/-! ### How a token is spelled -/

/-- The spellings of a kind of token. Of breaks, blanks and plain text only what they
do not hold matters: a backslash behind their first character, or a `)`. -/
def TokenKind.Spelled : TokenKind → List Char → Prop
  | .backticks, l => ∃ n, l = List.replicate (n + 1) '\x60'
  | .stars, l => ∃ n, l = List.replicate (n + 1) '*'
  | .underscores, l => ∃ n, l = List.replicate (n + 1) '_'
  | .imageOpen, l => l = ['!', '[']
  | .leftBracket, l => l = ['[']
  | .rightBracket, l => l = [']']
  | .leftParen, l => l = ['(']
  | .rightParen, l => l = [')']
  | .escape, l => ∃ c, Text.isPunctuation c = true ∧ l = ['\\', c]
  | _, l => ∃ c rest, l = c :: rest ∧ c ≠ ')' ∧ ∀ x ∈ rest, x ≠ '\\' ∧ x ≠ ')'

/-- Only an escape has a backslash or a `)` behind its first character. -/
theorem TokenKind.Spelled.tail_clear {kind : TokenKind} {c : Char} {rest : List Char}
    (h : kind.Spelled (c :: rest)) (hk : kind ≠ .escape) :
    ∀ x ∈ rest, x ≠ '\\' ∧ x ≠ ')' := by
  have hrun : ∀ d : Char, d ≠ '\\' → d ≠ ')' → (∃ n, c :: rest = List.replicate (n + 1) d) →
      ∀ x ∈ rest, x ≠ '\\' ∧ x ≠ ')' := by
    rintro d hd1 hd2 ⟨n, hn⟩ x hx
    rw [List.replicate_succ, List.cons.injEq] at hn
    obtain rfl := List.eq_of_mem_replicate (hn.2 ▸ hx)
    exact ⟨hd1, hd2⟩
  cases kind with
  | backticks => exact hrun _ (by decide) (by decide) h
  | stars => exact hrun _ (by decide) (by decide) h
  | underscores => exact hrun _ (by decide) (by decide) h
  | imageOpen =>
    obtain ⟨-, rfl⟩ := List.cons.inj h
    simp
  | leftBracket | rightBracket | leftParen | rightParen =>
    obtain ⟨-, rfl⟩ := List.cons.inj h
    simp
  | escape => exact absurd rfl hk
  | hardBreak | softBreak | blank | text =>
    obtain ⟨d, r, hr, -, hc⟩ := h
    obtain ⟨-, rfl⟩ := List.cons.inj hr
    exact hc

namespace Token

theorem take_countWhile (p : Char → Bool) (s : List Char) :
    s.take (countWhile p s) = s.takeWhile p := by
  induction s with
  | nil => rfl
  | cons c s ih =>
    by_cases hc : p c = true
    · simp only [countWhile, List.takeWhile_cons, hc, if_true, List.length_cons,
        List.take_succ_cons, List.cons.injEq, true_and]
      exact ih
    · simp [countWhile, hc]

theorem drop_countWhile (p : Char → Bool) (s : List Char) :
    s.drop (countWhile p s) = s.dropWhile p := by
  have h := List.take_append_drop (countWhile p s) s
  rw [take_countWhile] at h
  exact List.append_cancel_left (h.trans List.takeWhile_append_dropWhile.symm)

/-- A run that what follows cannot go on with ends with the text before it. -/
theorem countWhile_append {p : Char → Bool} {tail : List Char}
    (h : ∀ c ∈ tail.head?, p c = false) (s : List Char) :
    countWhile p (s ++ tail) = countWhile p s := by
  induction s with
  | nil =>
    cases tail with
    | nil => rfl
    | cons d tail =>
      have hd : p d = false := h d rfl
      simp [countWhile, hd]
  | cons c s ih =>
    unfold countWhile at ih ⊢
    by_cases hc : p c = true
    · simp only [List.cons_append, List.takeWhile_cons, hc, if_true, List.length_cons, ih]
    · simp only [List.cons_append, List.takeWhile_cons, hc]
      rfl

theorem countWhile_le (p : Char → Bool) (s : List Char) : countWhile p s ≤ s.length :=
  (List.takeWhile_sublist p).length_le

/-- The rest of a run of `c` is made of `c`. -/
theorem run_eq_replicate (c : Char) (rest : List Char) :
    ∃ n, c :: rest.take (countWhile (· == c) rest) = List.replicate (n + 1) c := by
  refine ⟨(rest.takeWhile (· == c)).length, ?_⟩
  rw [take_countWhile, List.replicate_succ, List.cons.injEq]
  refine ⟨rfl, List.eq_replicate_iff.mpr ⟨rfl, fun x hx => ?_⟩⟩
  simpa using List.all_eq_true.mp List.all_takeWhile x hx

/-- No backslash and no `)` in a part that a class without them allows. -/
theorem clear_takeWhile {p : Char → Bool} (hb : p '\\' = false) (hp : p ')' = false)
    (s : List Char) : ∀ x ∈ s.take (countWhile p s), x ≠ '\\' ∧ x ≠ ')' := by
  intro x hx
  rw [take_countWhile] at hx
  have hpx : p x = true := List.all_eq_true.mp List.all_takeWhile x hx
  refine ⟨?_, ?_⟩
  · rintro rfl
    exact absurd hpx (by simp [hb])
  · rintro rfl
    exact absurd hpx (by simp [hp])

theorem clear_lineEnd (s : List Char) :
    ∀ x ∈ s.take (lineEndLength s), x ≠ '\\' ∧ x ≠ ')' := by
  intro x hx
  unfold lineEndLength at hx
  split at hx
  · simp only [List.take_succ_cons, List.take_zero, List.mem_singleton] at hx
    subst hx
    decide
  · simp only [List.take_succ_cons, List.take_zero, List.mem_cons, List.not_mem_nil,
      or_false] at hx
    rcases hx with rfl | rfl <;> decide
  · simp at hx

theorem spelled_scanBackslash (rest : List Char) :
    (scanBackslash rest).1.Spelled ('\\' :: rest.take (scanBackslash rest).2) := by
  unfold scanBackslash
  split
  · exact ⟨'\\', [], rfl, by decide, by simp⟩
  · rename_i c rest
    split_ifs with hc he
    · exact ⟨c, hc, by simp⟩
    · exact ⟨'\\', [], by simp, by decide, by simp⟩
    · exact ⟨'\\', _, rfl, by decide, clear_lineEnd (c :: rest)⟩

theorem spelled_scanSpace (rest : List Char) :
    (scanSpace rest).1.Spelled (' ' :: rest.take (scanSpace rest).2) := by
  simp only [scanSpace]
  split_ifs with h
  · refine ⟨' ', _, rfl, by decide, fun x hx => ?_⟩
    rw [List.take_add, List.mem_append] at hx
    rcases hx with hx | hx
    · exact clear_takeWhile (by decide) (by decide) rest x hx
    · exact clear_lineEnd _ x hx
  · exact ⟨' ', _, rfl, by decide, clear_takeWhile (by decide) (by decide) rest⟩

/-- A token is spelled as its kind says. -/
theorem spelled_scan (c : Char) (rest : List Char) :
    (scan c rest).1.Spelled (c :: rest.take (scan c rest).2) := by
  unfold scan
  split
  · exact run_eq_replicate '\x60' rest
  · exact run_eq_replicate '*' rest
  · exact run_eq_replicate '_' rest
  · split_ifs with h
    · obtain ⟨s, rfl⟩ := List.head?_eq_some_iff.mp h
      rfl
    · exact ⟨'!', [], by simp, by decide, by simp⟩
  · rfl
  · rfl
  · rfl
  · rfl
  · exact spelled_scanBackslash rest
  · exact ⟨'\n', [], by simp, by decide, by simp⟩
  · split_ifs with h
    · obtain ⟨s, rfl⟩ := List.head?_eq_some_iff.mp h
      exact ⟨'\r', ['\n'], by simp, by decide, by simp⟩
    · exact ⟨'\r', [], by simp, by decide, by simp⟩
  · exact spelled_scanSpace rest
  · exact ⟨'\t', _, rfl, by decide, clear_takeWhile (by decide) (by decide) rest⟩
  · rename_i hparen _ _ _ _ _
    exact ⟨c, _, rfl, hparen, clear_takeWhile (by decide) (by decide) rest⟩

theorem spelled_front (start : Nat) (before : Option Char) (c : Char) (rest : List Char) :
    (front start before c rest).kind.Spelled (front start before c rest).lexeme :=
  spelled_scan c rest

/-- Every token of a text is spelled as its kind says. -/
theorem Tiles.spelled {start : Nat} {before : Option Char} {s : List Char} {ts : List Token}
    (h : Tiles start before s ts) : ∀ t ∈ ts, t.kind.Spelled t.lexeme := by
  induction h with
  | nil => simp
  | @cons start before c rest ts _ ih =>
    intro t ht
    rcases List.mem_cons.mp ht with rfl | ht
    · exact spelled_front start before c rest
    · exact ih t ht

/-- No token is empty. -/
theorem lexeme_ne_nil_of_spelled {t : Token} (h : t.kind.Spelled t.lexeme) : t.lexeme ≠ [] := by
  intro hn
  rw [hn] at h
  cases hk : t.kind <;> simp [hk, TokenKind.Spelled, List.replicate_succ] at h

/-! ### Delimiters, and the order of tokens -/

/-- The delimiter a token is a run of. -/
def delimiter? (t : Token) : Option Delimiter :=
  match t.kind with
  | .stars => some .star
  | .underscores => some .underscore
  | _ => none

/-- Neighbouring tokens are not runs of the same delimiter. -/
def Apart (t u : Token) : Prop := t.delimiter? = none ∨ t.delimiter? ≠ u.delimiter?

/-- The tokens behind the first tile the text behind it. -/
theorem Tiles.tail {start : Nat} {before : Option Char} {s : List Char} {t : Token}
    {ts : List Token} (h : Tiles start before s (t :: ts)) :
    Tiles t.stop t.lexeme.getLast? t.after ts := by
  cases h with
  | cons h => exact h

/-- No token takes up no room. -/
theorem Tiles.start_lt_stop {start : Nat} {before : Option Char} {s : List Char} {ts : List Token}
    (h : Tiles start before s ts) : ∀ t ∈ ts, t.start < t.stop := by
  intro t ht
  have hlen : 0 < Text.byteLength t.lexeme :=
    Text.byteLength_pos (lexeme_ne_nil_of_spelled (h.spelled t ht))
  rw [stop]
  omega

/-- No token starts before the text that the tokens tile. -/
theorem Tiles.le_start {start : Nat} {before : Option Char} {s : List Char} {ts : List Token}
    (h : Tiles start before s ts) : ∀ t ∈ ts, start ≤ t.start := by
  induction ts generalizing start before s with
  | nil => simp
  | cons u us ih =>
    have hstart := h.start_head
    have hu := h.start_lt_stop u List.mem_cons_self
    intro t ht
    rcases List.mem_cons.mp ht with rfl | ht
    · omega
    · have := ih h.tail t ht
      omega

/-- Of the tokens of a text the first ones end where their lexemes do. -/
theorem Tiles.stop_le {start : Nat} {before : Option Char} {s : List Char} {us vs : List Token}
    (h : Tiles start before s (us ++ vs)) :
    ∀ u ∈ us, u.stop ≤ start + Text.byteLength (us.flatMap lexeme) := by
  induction us generalizing start before s with
  | nil => simp
  | cons u us ih =>
    intro v hv
    have hstart := h.start_head
    rw [List.flatMap_cons, Text.byteLength_append]
    rcases List.mem_cons.mp hv with rfl | hv
    · rw [stop]
      omega
    · have := ih h.tail v hv
      simp only [stop] at this ⊢
      omega

/-- Tokens start in order, each before the end of the text they tile. -/
theorem Tiles.start_lt {start : Nat} {before : Option Char} {s : List Char} {us vs : List Token}
    (h : Tiles start before s (us ++ vs)) :
    ∀ u ∈ us, u.start < start + Text.byteLength (us.flatMap lexeme) := fun u hu =>
  Nat.lt_of_lt_of_le (h.start_lt_stop u (List.mem_append_left _ hu)) (h.stop_le u hu)

end Token
end MarkdownHtml
