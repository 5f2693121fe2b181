/-
# Which backslashes escape

Two readings of a backslash before punctuation meet in links. For tokens the two are a
pair: a backslash that is escaped itself escapes nothing. Unescaping a destination or a
title judges each backslash by the next character alone, so an escaped backslash before
punctuation is lost as well. This file says where the two agree (`unescape_spec`):

* the tokens of a text, less the backslashes of their escapes, spell the unescaped text
  unless two backslashes stand before punctuation somewhere. The same holds of the text read in
  pairs, which needs no tokens (`unescape_eq_resolved_iff`);
* a text that is escaped and unescaped again comes back unless it has a backslash before
  punctuation. What comes back is the text unescaped.

An unescaped text is never longer than what its tokens spell. So a backslash that is lost
and should not be is not made up for further on, and the two differ
(`Token.Tiles.length_unescape_le`).

Key definitions: `Text.escape`, `Text.resolved`, `Text.Guards`, `Token.resolve`,
`Token.resolved`.
Key theorems: `unescape_cons`, `unescape_escape`, `unescape_eq_self_iff`,
`Token.front_cases`, `Token.Tiles.unescape_eq_iff`, `unescape_eq_resolved_iff`, `unescape_spec`.
-/
import MarkdownHtml.Inline.LinkTail
import MarkdownHtml.Proofs.Tokens

namespace MarkdownHtml

/-! ### Unescaping, character by character -/

/-- Whether a text starts with punctuation. -/
def Text.startsWithPunctuation (s : List Char) : Bool := s.head?.any isPunctuation

theorem unescapeOnto_eq (done s : List Char) :
    unescapeOnto done s = done.reverse ++ unescape s := by
  unfold unescape
  induction s generalizing done with
  | nil => simp [unescapeOnto]
  | cons c rest ih =>
    rw [unescapeOnto, unescapeOnto]
    split_ifs
    · exact ih done
    · rw [ih (c :: done), ih [c], List.reverse_cons, List.append_assoc]
      rfl

/-- A backslash before punctuation goes, and every other character stays. -/
theorem unescape_cons (c : Char) (rest : List Char) :
    unescape (c :: rest) =
      if c = '\\' ∧ Text.startsWithPunctuation rest = true then unescape rest
      else c :: unescape rest := by
  have hcond : (c == '\\' && rest.head?.any Text.isPunctuation) = true ↔
      c = '\\' ∧ Text.startsWithPunctuation rest = true := by
    rw [Bool.and_eq_true, beq_iff_eq]
    rfl
  rw [unescape, unescapeOnto]
  by_cases h : c = '\\' ∧ Text.startsWithPunctuation rest = true
  · rw [if_pos (hcond.mpr h), if_pos h]
    rfl
  · rw [if_neg fun hc => h (hcond.mp hc), if_neg h, unescapeOnto_eq]
    rfl

theorem length_unescape_le (s : List Char) : (unescape s).length ≤ s.length := by
  induction s with
  | nil => exact Nat.le_refl 0
  | cons c rest ih =>
    rw [unescape_cons]
    split_ifs
    · exact Nat.le_succ_of_le ih
    · exact Nat.succ_le_succ ih

/-- Characters other than backslashes stay as they are. -/
theorem unescape_append {word : List Char} (h : ∀ c ∈ word, c ≠ '\\') (rest : List Char) :
    unescape (word ++ rest) = word ++ unescape rest := by
  induction word with
  | nil => rfl
  | cons c word ih =>
    have hc : ¬ (c = '\\' ∧ Text.startsWithPunctuation (word ++ rest) = true) := fun hc =>
      h c List.mem_cons_self hc.1
    rw [List.cons_append, unescape_cons, if_neg hc,
      ih fun d hd => h d (List.mem_cons_of_mem _ hd), List.cons_append]

/-- Nor does a first backslash go that stands before no punctuation. -/
theorem unescape_cons_append {c : Char} {word rest : List Char} (h : ∀ d ∈ word, d ≠ '\\')
    (hc : c = '\\' → Text.startsWithPunctuation (word ++ rest) = false) :
    unescape (c :: (word ++ rest)) = c :: word ++ unescape rest := by
  have hstays : ¬ (c = '\\' ∧ Text.startsWithPunctuation (word ++ rest) = true) := by
    rintro ⟨hback, hstart⟩
    rw [hc hback] at hstart
    exact absurd hstart (by simp)
  rw [unescape_cons, if_neg hstays, unescape_append h, List.cons_append]

/-! ### Escaping -/

namespace Text

/-- The text with a backslash before every character that is punctuation. -/
def escape (s : List Char) : List Char :=
  s.flatMap fun c => if isPunctuation c then ['\\', c] else [c]

theorem escape_cons (c : Char) (s : List Char) :
    escape (c :: s) = if isPunctuation c = true then '\\' :: c :: escape s else c :: escape s := by
  unfold escape
  rw [List.flatMap_cons]
  split_ifs
  · rfl
  · rfl

/-- A backslash is punctuation itself, so that escaping does not change what a text starts
with. -/
theorem startsWithPunctuation_escape (s : List Char) :
    startsWithPunctuation (escape s) = startsWithPunctuation s := by
  cases s with
  | nil => rfl
  | cons c s =>
    rw [escape_cons]
    by_cases hc : isPunctuation c = true
    · have hstart : startsWithPunctuation (c :: s) = true := hc
      rw [if_pos hc, hstart]
      rfl
    · rw [if_neg hc]
      rfl

/-- The text with each escape resolved, a backslash and the punctuation behind it as a pair. An
escaped backslash is half of a pair already, and escapes nothing. -/
def resolved : List Char → List Char
  | [] => []
  | '\\' :: c :: rest =>
    if isPunctuation c then c :: resolved rest else '\\' :: resolved (c :: rest)
  | c :: rest => c :: resolved rest

theorem resolved_escape {c : Char} (hc : isPunctuation c = true) (s : List Char) :
    resolved ('\\' :: c :: s) = c :: resolved s := by
  rw [resolved, if_pos hc]

theorem resolved_cons {c : Char} {s : List Char}
    (h : c = '\\' → startsWithPunctuation s = false) : resolved (c :: s) = c :: resolved s := by
  by_cases hc : c = '\\'
  · subst hc
    cases s with
    | nil => rfl
    | cons d s =>
      have hd : isPunctuation d = false := h rfl
      rw [resolved, hd]
      rfl
  · rw [resolved]
    intro d r heq
    exact absurd heq hc

/-- Characters other than backslashes stay as they are. -/
theorem resolved_append {word : List Char} (h : ∀ c ∈ word, c ≠ '\\') (rest : List Char) :
    resolved (word ++ rest) = word ++ resolved rest := by
  induction word with
  | nil => rfl
  | cons c word ih =>
    have hc : c ≠ '\\' := h c List.mem_cons_self
    rw [List.cons_append, resolved_cons fun heq => absurd heq hc,
      ih fun d hd => h d (List.mem_cons_of_mem _ hd), List.cons_append]

/-- `run` stands somewhere in `s` right before punctuation. -/
def Guards (run s : List Char) : Prop := ∃ p, isPunctuation p = true ∧ run ++ [p] <:+: s

/-- `run` stands at the start of `s` right before punctuation. -/
def Leads (run s : List Char) : Prop := ∃ p, isPunctuation p = true ∧ run ++ [p] <+: s

theorem leads_nil_iff {s : List Char} : Leads [] s ↔ startsWithPunctuation s = true := by
  cases s with
  | nil => simp [Leads, startsWithPunctuation]
  | cons c s => simp [Leads, startsWithPunctuation, List.cons_prefix_cons]

theorem leads_cons_iff {b c : Char} {run s : List Char} :
    Leads (b :: run) (c :: s) ↔ b = c ∧ Leads run s := by
  simp only [Leads, List.cons_append, List.cons_prefix_cons]
  constructor
  · rintro ⟨p, hp, hb, hrun⟩
    exact ⟨hb, p, hp, hrun⟩
  · rintro ⟨hb, p, hp, hrun⟩
    exact ⟨p, hp, hb, hrun⟩

/-- A backslash is punctuation. -/
theorem startsWithPunctuation_of_leads {run s : List Char} (h : Leads ('\\' :: run) s) :
    startsWithPunctuation s = true := by
  obtain ⟨p, -, hrun⟩ := h
  obtain ⟨t, rfl⟩ := hrun
  rfl

theorem not_guards_nil {b : Char} {run : List Char} : ¬ Guards (b :: run) [] := by
  rintro ⟨p, -, hinfix⟩
  exact absurd (List.infix_nil.mp hinfix) (by simp)

theorem guards_cons_iff {b c : Char} {run s : List Char} :
    Guards (b :: run) (c :: s) ↔ (b = c ∧ Leads run s) ∨ Guards (b :: run) s := by
  rw [← leads_cons_iff]
  unfold Guards Leads
  simp only [List.infix_cons_iff, and_or_left, exists_or]

/-- A run that starts with a backslash does not start in a part without any. -/
theorem guards_append_iff {run word : List Char} (h : ∀ c ∈ word, c ≠ '\\') (rest : List Char) :
    Guards ('\\' :: run) (word ++ rest) ↔ Guards ('\\' :: run) rest := by
  induction word with
  | nil => rfl
  | cons c word ih =>
    have hc : '\\' ≠ c := (h c List.mem_cons_self).symm
    rw [List.cons_append, guards_cons_iff, ih fun d hd => h d (List.mem_cons_of_mem _ hd)]
    simp [hc]

end Text

/-- Escaping has no effect on what unescaping gives. -/
theorem unescape_escape (s : List Char) : unescape (Text.escape s) = unescape s := by
  induction s with
  | nil => rfl
  | cons c s ih =>
    have hfirst : unescape (Text.escape (c :: s)) = unescape (c :: Text.escape s) := by
      rw [Text.escape_cons]
      by_cases hc : Text.isPunctuation c = true
      · have hstart : Text.startsWithPunctuation (c :: Text.escape s) = true := hc
        rw [if_pos hc, unescape_cons, if_pos ⟨rfl, hstart⟩]
      · rw [if_neg hc]
    rw [hfirst, unescape_cons, unescape_cons, Text.startsWithPunctuation_escape, ih]

/-- Only a backslash before punctuation is lost. -/
theorem unescape_eq_self_iff (s : List Char) : unescape s = s ↔ ¬ Text.Guards ['\\'] s := by
  induction s with
  | nil => exact ⟨fun _ => Text.not_guards_nil, fun _ => rfl⟩
  | cons c s ih =>
    rw [unescape_cons, Text.guards_cons_iff, Text.leads_nil_iff]
    by_cases hc : c = '\\' ∧ Text.startsWithPunctuation s = true
    · rw [if_pos hc]
      have hshort := length_unescape_le s
      refine ⟨fun heq => ?_, fun hno => absurd (.inl ⟨hc.1.symm, hc.2⟩) hno⟩
      rw [heq, List.length_cons] at hshort
      omega
    · have hc' : ¬ ('\\' = c ∧ Text.startsWithPunctuation s = true) := fun h =>
        hc ⟨h.1.symm, h.2⟩
      rw [if_neg hc, List.cons_inj_right, ih]
      simp [hc']

/-! ### What tokens spell -/

namespace Token

/-- The characters of a token, less the backslash of an escape. -/
def resolve (t : Token) : List Char := if t.kind = .escape then t.lexeme.drop 1 else t.lexeme

/-- The text that the tokens of a text spell once their escapes are resolved. -/
def resolved (s : List Char) : List Char := (ofText s).flatMap resolve

/-- The first token of a text is an escape, or one in which no backslash stands before
punctuation. -/
theorem front_cases (start : Nat) (before : Option Char) (c : Char) (rest : List Char) :
    (∃ p, Text.isPunctuation p = true ∧
        c :: rest = '\\' :: p :: (front start before c rest).after ∧
        (front start before c rest).resolve = [p]) ∨
      ∃ word, (∀ d ∈ word, d ≠ '\\') ∧
        c :: rest = c :: (word ++ (front start before c rest).after) ∧
        (c = '\\' →
          Text.startsWithPunctuation (word ++ (front start before c rest).after) = false) ∧
        (front start before c rest).resolve = c :: word := by
  have hspelled := spelled_front start before c rest
  have hparts := lexeme_append_after_front start before c rest
  by_cases hk : (front start before c rest).kind = .escape
  · rw [hk] at hspelled
    obtain ⟨p, hp, hlexeme⟩ := hspelled
    rw [hlexeme] at hparts
    refine .inl ⟨p, hp, hparts.symm, ?_⟩
    rw [resolve, if_pos hk, hlexeme]
    rfl
  · have hrest : rest.take (scan c rest).2 ++ (front start before c rest).after = rest :=
      List.take_append_drop _ _
    refine .inr ⟨rest.take (scan c rest).2, fun d hd => (hspelled.tail_clear hk d hd).1,
      by rw [hrest], ?_, ?_⟩
    · rw [hrest]
      rintro rfl
      have hscan : (scanBackslash rest).1 ≠ .escape := hk
      unfold scanBackslash at hscan
      cases rest with
      | nil => rfl
      | cons d rest =>
        by_contra hd
        have hpunct : Text.isPunctuation d = true := Bool.of_not_eq_false hd
        simp only [hpunct, if_true] at hscan
        exact absurd rfl hscan
    · rw [resolve, if_neg hk]
      rfl

/-- Unescaping loses every backslash that an escape loses. -/
theorem Tiles.length_unescape_le {start : Nat} {before : Option Char} {s : List Char}
    {ts : List Token} (h : Tiles start before s ts) :
    (unescape s).length ≤ (ts.flatMap resolve).length := by
  induction h with
  | nil => exact Nat.le_refl 0
  | @cons start before c rest ts _ ih =>
    rw [List.flatMap_cons, List.length_append]
    rcases front_cases start before c rest with
      ⟨p, hp, hs, hresolve⟩ | ⟨word, hword, hs, hc, hresolve⟩
    · have hstart : Text.startsWithPunctuation (p :: (front start before c rest).after) = true := hp
      rw [hs, hresolve, unescape_cons, if_pos ⟨rfl, hstart⟩, unescape_cons, List.length_singleton]
      split_ifs
      · omega
      · rw [List.length_cons]
        omega
    · rw [hs, hresolve, unescape_cons_append hword hc, List.length_append]
      omega

/-- Unescaping and resolving escapes differ just where two backslashes stand before
punctuation. -/
theorem Tiles.unescape_eq_iff {start : Nat} {before : Option Char} {s : List Char}
    {ts : List Token} (h : Tiles start before s ts) :
    unescape s = ts.flatMap resolve ↔ ¬ Text.Guards ['\\', '\\'] s := by
  induction h with
  | nil => exact ⟨fun _ => Text.not_guards_nil, fun _ => rfl⟩
  | @cons start before c rest ts htiles ih =>
    have hshort := htiles.length_unescape_le
    rw [List.flatMap_cons]
    rcases front_cases start before c rest with
      ⟨p, hp, hs, hresolve⟩ | ⟨word, hword, hs, hc, hresolve⟩
    · have hstart : Text.startsWithPunctuation (p :: (front start before c rest).after) = true := hp
      rw [hs, hresolve, unescape_cons, if_pos ⟨rfl, hstart⟩, unescape_cons, Text.guards_cons_iff,
        Text.guards_cons_iff, Text.leads_cons_iff, Text.leads_nil_iff]
      generalize (front start before c rest).after = after at ih hshort ⊢
      by_cases hlost : p = '\\' ∧ Text.startsWithPunctuation after = true
      · -- the escaped backslash is lost too, and cannot be made up for
        rw [if_pos hlost]
        refine ⟨fun heq => ?_, fun hno => absurd (.inl ⟨rfl, hlost.1.symm, hlost.2⟩) hno⟩
        rw [heq, List.length_append, List.length_singleton] at hshort
        omega
      · have hnext : ¬ ('\\' = p ∧ Text.startsWithPunctuation after = true) := fun h =>
          hlost ⟨h.1.symm, h.2⟩
        have hfurther : ¬ ('\\' = p ∧ Text.Leads ['\\'] after) := fun h =>
          hnext ⟨h.1, Text.startsWithPunctuation_of_leads h.2⟩
        rw [if_neg hlost, List.singleton_append, List.cons_inj_right, ih]
        simp [hnext, hfurther]
    · have hfirst : ¬ ('\\' = c ∧
          Text.Leads ['\\'] (word ++ (front start before c rest).after)) := by
        rintro ⟨hback, hleads⟩
        have hstart := Text.startsWithPunctuation_of_leads hleads
        rw [hc hback.symm] at hstart
        exact absurd hstart (by simp)
      rw [hs, hresolve, unescape_cons_append hword hc, List.append_cancel_left_eq, ih,
        Text.guards_cons_iff, Text.guards_append_iff hword]
      simp [hfirst]

/-- Tokens spell what the text says in pairs. -/
theorem Tiles.flatMap_resolve {start : Nat} {before : Option Char} {s : List Char}
    {ts : List Token} (h : Tiles start before s ts) : ts.flatMap resolve = Text.resolved s := by
  induction h with
  | nil => rfl
  | @cons start before c rest ts _ ih =>
    rw [List.flatMap_cons, ih]
    rcases front_cases start before c rest with
      ⟨p, hp, hs, hresolve⟩ | ⟨word, hword, hs, hc, hresolve⟩
    · rw [hs, hresolve, Text.resolved_escape hp]
      rfl
    · rw [hs, hresolve, Text.resolved_cons hc, Text.resolved_append hword]
      rfl

end Token

/-- Unescaping a text gives what it says in pairs just if no two backslashes stand before
punctuation in it. -/
theorem unescape_eq_resolved_iff (s : List Char) :
    unescape s = Text.resolved s ↔ ¬ Text.Guards ['\\', '\\'] s := by
  have htiles := Token.tiles_ofText s
  rw [← htiles.flatMap_resolve]
  exact htiles.unescape_eq_iff

/-- **Where unescaping agrees with escaping and with tokens.** Escaping a text and unescaping
it gives the text unescaped. This is the text itself just if no backslash stands before
punctuation in it, and it is what the tokens of the text spell just if no two do. -/
theorem unescape_spec (s : List Char) :
    unescape (Text.escape s) = unescape s ∧
      (unescape (Text.escape s) = s ↔ ¬ Text.Guards ['\\'] s) ∧
      (unescape s = Token.resolved s ↔ ¬ Text.Guards ['\\', '\\'] s) := by
  have hescape := unescape_escape s
  refine ⟨hescape, ?_, (Token.tiles_ofText s).unescape_eq_iff⟩
  rw [hescape]
  exact unescape_eq_self_iff s

/-- A backslash and a star do not come back from escaping, and of two backslashes and a star
the tokens spell more than unescaping leaves. -/
theorem unescape_star_ne :
    unescape (Text.escape "\\*".toList) ≠ "\\*".toList ∧
      unescape "\\\\*".toList ≠ Token.resolved "\\\\*".toList := by
  decide

end MarkdownHtml
