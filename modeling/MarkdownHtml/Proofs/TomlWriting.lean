/-
# Written tables are spelled

What is written line by line spells the tables (`Toml.spells_lines`). Every character of a
string is written as an escape of it or as itself (`Toml.writeChar_cases`), and the form that is
picked has room for all of them: literal forms where no character needs an escape, and in triple
quotes never more than two quotes in a row. Numbers are written without leading zeros.

With the reader's half this makes line by line a format that keeps to TOML and carries all integers
(`Format.conforms_lines`).

Key definition: `Toml.Says`.
Key theorems: `Toml.digits_upperHex`, `Toml.writeChar_cases`, `Toml.manyLines_writeLines`,
`Toml.quoted_writeString`, `Toml.integer_toString`, `Toml.spells_lines`,
`Format.conforms_lines`.
-/
import Mathlib.Data.List.Forall2
import MarkdownHtml.Proofs.TomlDocuments

namespace MarkdownHtml
namespace Toml

open Grammar

variable {keeps : List Char → Prop}

/-! ### Characters -/

/-- The digit that a number in upper case is written with. -/
theorem isDigit_upper {d : Nat} (hd : d < 16) :
    IsDigit 16 (if d < 10 then Char.ofNat (48 + d) else Char.ofNat (55 + d)) d := by
  have hall : ∀ d < 16, (if d < 10 then Char.ofNat (48 + d) else Char.ofNat (55 + d)) =
      d.digitChar.toUpper := by decide
  exact ⟨hd, .inr (hall d hd)⟩

/-- The last digit is that of the remainder. -/
theorem upperHex_succ (n : Nat) : ∀ count, upperHex n (count + 1) =
    upperHex (n / 16) count ++ [if n % 16 < 10 then Char.ofNat (48 + n % 16)
      else Char.ofNat (55 + n % 16)]
  | 0 => by simp [upperHex]
  | count + 1 => by
    have hdigit : n / Nat.pow 16 (count + 1) % 16 = n / 16 / Nat.pow 16 count % 16 := by
      rw [Nat.div_div_eq_div_mul]
      congr 2
      exact Nat.pow_succ'
    rw [upperHex, upperHex_succ n count, upperHex, hdigit]
    rfl

theorem digits_upperHex : ∀ (count n : Nat),
    Digits 16 (upperHex n (count + 1)) (n % Nat.pow 16 (count + 1))
  | 0, n => by
    have hone := Digits.one (isDigit_upper (Nat.mod_lt n (by decide : 0 < 16)))
    simpa [upperHex] using hone
  | count + 1, n => by
    have hnext := (digits_upperHex count (n / 16)).next
      (isDigit_upper (Nat.mod_lt n (by decide : 0 < 16)))
    have hvalue : n % Nat.pow 16 (count + 1 + 1) =
        16 * (n / 16 % Nat.pow 16 (count + 1)) + n % 16 := by
      have hpow : Nat.pow 16 (count + 1 + 1) = 16 * Nat.pow 16 (count + 1) := Nat.pow_succ'
      rw [hpow, Nat.mod_mul, Nat.add_comm]
    rw [upperHex_succ, hvalue]
    exact hnext

theorem length_upperHex (n : Nat) : ∀ count, (upperHex n count).length = count
  | 0 => rfl
  | count + 1 => by rw [upperHex, List.length_cons, length_upperHex n count]

theorem underscore_not_mem_upperHex (n : Nat) : ∀ count, '_' ∉ upperHex n count
  | 0 => by simp [upperHex]
  | count + 1 => by
    have hdigit := isDigit_upper (Nat.mod_lt (n / Nat.pow 16 count) (by decide : 0 < 16))
    rw [upperHex, List.mem_cons, not_or]
    exact ⟨(hdigit.ne_underscore (Nat.le_refl 16)).symm, underscore_not_mem_upperHex n count⟩

/-- Four digits are an escape of a character that has a code point below `16 ^ 4`. -/
theorem escape_upperHex {c : Char} (hc : c.toNat < Nat.pow 16 4) :
    Escape ('u' :: upperHex c.toNat 4) c := by
  have hdigits := digits_upperHex 3 c.toNat
  rw [Nat.mod_eq_of_lt hc] at hdigits
  have hsize : ('u', (upperHex c.toNat 4).length) ∈ codeSizes := by
    rw [length_upperHex]
    decide
  have hcode := Escape.code hsize hdigits (underscore_not_mem_upperHex _ _) c.valid
  rwa [Char.ofNat_toNat] at hcode

theorem isForbidden_of_not_isControl {c : Char} (h : Text.isControl c = false) :
    isForbidden c = false := by
  simp [isForbidden, h]

/-- A character is written as an escape or as itself. -/
theorem writeChar_cases (c : Char) : (∃ e, Escape e c ∧ writeChar c = '\\' :: e) ∨
    (writeChar c = [c] ∧ c ≠ '\\' ∧ isForbidden c = false) := by
  unfold writeChar
  by_cases hb : c = '\x08'
  · subst hb
    exact .inl ⟨['b'], .short (by decide), rfl⟩
  by_cases ht : c = '\t'
  · subst ht
    exact .inl ⟨['t'], .short (by decide), rfl⟩
  by_cases hf : c = '\x0c'
  · subst hf
    exact .inl ⟨['f'], .short (by decide), rfl⟩
  by_cases hr : c = '\r'
  · subst hr
    exact .inl ⟨['r'], .short (by decide), rfl⟩
  by_cases hs : c = '\\'
  · subst hs
    exact .inl ⟨['\\'], .short (by decide), rfl⟩
  by_cases hcontrol : Text.isControl c = true
  · have hsmall : c.toNat < 16 ^ 4 := by
      simp only [Text.isControl] at hcontrol
      grind
    exact .inl ⟨_, escape_upperHex hsmall, by simp [hb, ht, hf, hr, hs, hcontrol]⟩
  · exact .inr ⟨by simp [hb, ht, hf, hr, hs, hcontrol], hs,
      isForbidden_of_not_isControl (by simpa using hcontrol)⟩

/-! ### Strings -/

theorem oneLine_writeLineChar : ∀ s : List Char, OneLine true '"' (s.flatMap writeLineChar) s
  | [] => .nil
  | c :: s => by
    have ih := oneLine_writeLineChar s
    rw [List.flatMap_cons, writeLineChar]
    by_cases hq : c = '"'
    · subst hq
      exact .escape rfl (.short (by decide)) ih
    by_cases hn : c = '\n'
    · subst hn
      exact .escape rfl (.short (by decide)) ih
    simp only [beq_iff_eq, hq, hn, if_false]
    obtain ⟨e, he, htext⟩ | ⟨htext, hs, hplain⟩ := writeChar_cases c
    · rw [htext]
      exact .escape rfl he ih
    · rw [htext]
      exact .plain ⟨hq, fun _ => hs, hplain⟩ ih

/-- What needs no escape stands for itself between single quotes. -/
theorem oneLine_literal : ∀ {s : List Char}, (∀ c ∈ s, c ≠ '\x27' ∧ isForbidden c = false) →
    OneLine false '\x27' s s
  | [], _ => .nil
  | c :: s, h => by
    obtain ⟨hc, hplain⟩ := h c List.mem_cons_self
    exact .plain ⟨hc, by simp, hplain⟩ (oneLine_literal fun d hd => h d (List.mem_cons_of_mem c hd))

theorem manyLines_writeLines (hkeeps : keeps ['\n']) : ∀ (s : List Char) (run : Nat), run ≤ 2 →
    ManyLines keeps true '"' run (writeLines run s) s
  | [], _, _ => .nil
  | c :: s, run, hrun => by
    rw [writeLines]
    by_cases hq : c = '"'
    · subst hq
      by_cases hlast : run = 2
      · simp only [beq_self_eq_true, hlast, if_true]
        exact .escape rfl (.short (by decide)) (manyLines_writeLines hkeeps s 0 (Nat.zero_le 2))
      · simp only [beq_self_eq_true, hlast, if_true, if_false]
        exact .quote (by omega) (manyLines_writeLines hkeeps s (run + 1) (by omega))
    have ih := manyLines_writeLines hkeeps s 0 (Nat.zero_le 2)
    by_cases hn : c = '\n'
    · subst hn
      exact .feed (e := ['\n']) (by decide) hkeeps ih
    simp only [beq_iff_eq, hq, hn, if_false]
    obtain ⟨e, he, htext⟩ | ⟨htext, hs, hplain⟩ := writeChar_cases c
    · rw [htext]
      exact .escape rfl he ih
    · rw [htext]
      exact .plain ⟨hq, fun _ => hs, hplain⟩ ih

theorem hasTriple_tail {quote c : Char} {s : List Char} (h : hasTriple quote (c :: s) = false) :
    hasTriple quote s = false := by
  match s, h with
  | [], _ => rfl
  | [_], _ => rfl
  | _ :: _ :: _, h => exact (Bool.or_eq_false_iff.mp h).2

/-- Three in a row are nowhere in the end of a text if they are nowhere in it. -/
theorem hasTriple_of_append {quote : Char} {s : List Char} : ∀ {t : List Char},
    hasTriple quote (t ++ s) = false → hasTriple quote s = false
  | [], h => h
  | _ :: _, h => hasTriple_of_append (hasTriple_tail h)

theorem isLineEnd_of_not_isForbidden {c : Char} (h : isForbidden c = false) :
    Text.isLineEnd c = false := by
  rw [Bool.eq_false_iff]
  intro hend
  obtain rfl | rfl : c = '\n' ∨ c = '\r' := by simpa [Text.isLineEnd] using hend
  all_goals exact absurd h (by decide)

/-- What has no three quotes in a row, those before counted, stands for itself between triple
quotes. -/
theorem manyLines_literal (hkeeps : keeps ['\n']) : ∀ (s : List Char) (run : Nat),
    hasTriple '\x27' (List.replicate run '\x27' ++ s) = false →
    (∀ c ∈ s, c = '\n' ∨ isForbidden c = false) → ManyLines keeps false '\x27' run s s
  | [], _, _, _ => .nil
  | c :: s, run, htriple, hplain => by
    have hrest : ∀ d ∈ s, d = '\n' ∨ isForbidden d = false := fun d hd =>
      hplain d (List.mem_cons_of_mem c hd)
    by_cases hq : c = '\x27'
    · subst hq
      have hfew : run < 2 := by
        by_contra hmany
        obtain ⟨k, rfl⟩ := Nat.exists_eq_add_of_le' (Nat.le_of_not_lt hmany)
        rw [← List.replicate_append_replicate, List.append_assoc] at htriple
        exact absurd (hasTriple_of_append htriple) (by simp [hasTriple, List.replicate])
      refine .quote hfew (manyLines_literal hkeeps s (run + 1) ?_ hrest)
      rwa [List.replicate_succ', List.append_assoc]
    · have hnext : hasTriple '\x27' s = false := by
        rw [List.append_cons] at htriple
        exact hasTriple_of_append htriple
      have ih := manyLines_literal hkeeps s 0 hnext hrest
      obtain rfl | hc := hplain c List.mem_cons_self
      · exact .feed (e := ['\n']) (by decide) hkeeps ih
      · exact .plain ⟨hq, by simp, hc⟩ ih

/-- What a literal string on one line needs. -/
theorem formOf_literal {s : List Char} (h : formOf s = .literal) :
    ∀ c ∈ s, c ≠ '\x27' ∧ isForbidden c = false := by
  simp only [formOf] at h
  split_ifs at h with _ hliteral
  simp only [Bool.and_eq_true, Bool.not_eq_true', List.any_eq_false, List.contains_eq_mem,
    decide_eq_false_iff_not] at hliteral
  obtain ⟨⟨hcontrols, hfeeds⟩, hquotes⟩ := hliteral
  intro c hc
  refine ⟨fun h => hquotes (h ▸ hc), ?_⟩
  have hfeed : c ≠ '\n' := fun h => hfeeds (h ▸ hc)
  simpa [hfeed] using hcontrols c hc

/-- What a literal string on several lines needs. -/
theorem formOf_literalLines {s : List Char} (h : formOf s = .literalLines) :
    hasTriple '\x27' s = false ∧ ∀ c ∈ s, c = '\n' ∨ isForbidden c = false := by
  simp only [formOf] at h
  split_ifs at h with _ _ _ hlines
  simp only [Bool.and_eq_true, Bool.not_eq_true', List.any_eq_false] at hlines
  obtain ⟨hcontrols, htriple⟩ := hlines
  refine ⟨htriple, fun c hc => ?_⟩
  have := hcontrols c hc
  grind

/-- Where no line feed is written, the text does not start with a line end. -/
theorem writeLines_head {s : List Char} (hs : '\n' ∉ s) :
    ∀ c ∈ (writeLines 0 s).head?, Text.isLineEnd c = false := by
  obtain _ | ⟨c, s⟩ := s
  · simp [writeLines]
  rw [writeLines]
  by_cases hq : c = '"'
  · subst hq
    rintro d ⟨⟩
    rfl
  have hn : c ≠ '\n' := fun heq => hs (heq ▸ List.mem_cons_self)
  simp only [beq_iff_eq, hq, hn, if_false]
  obtain ⟨e, he, htext⟩ | ⟨htext, -, hplain⟩ := writeChar_cases c
  · rw [htext]
    rintro d ⟨⟩
    rfl
  · rw [htext]
    rintro d ⟨⟩
    exact isLineEnd_of_not_isForbidden hplain

/-- **A written string is spelled**, in the form that is picked for it. -/
theorem quoted_writeString (hkeeps : keeps ['\n']) (s : List Char) :
    Quoted keeps (writeString s) s := by
  unfold writeString
  cases hform : formOf s with
  | basic => exact .line (by decide) (oneLine_writeLineChar s)
  | literal => exact .line (by decide) (oneLine_literal (formOf_literal hform))
  | basicLines =>
    simp only [List.append_assoc]
    refine .lines (by decide) ?_ (manyLines_writeLines hkeeps s 0 (Nat.zero_le 2))
    by_cases hs : '\n' ∈ s
    · exact .inl (by simp [hs, lineEnds])
    · exact .inr ⟨by simp [hs], writeLines_head hs⟩
  | literalLines =>
    obtain ⟨htriple, hplain⟩ := formOf_literalLines hform
    simp only [List.append_assoc]
    refine .lines (by decide) ?_ (manyLines_literal hkeeps s 0 htriple hplain)
    by_cases hs : '\n' ∈ s
    · exact .inl (by simp [hs, lineEnds])
    · refine .inr ⟨by simp [hs], fun c hc => ?_⟩
      have hmem : c ∈ s := List.mem_of_mem_head? hc
      obtain rfl | hc := hplain c hmem
      · exact absurd hmem hs
      · exact isLineEnd_of_not_isForbidden hc

/-! ### Numbers -/

/-- Decimal digits are written from the first to the last. -/
theorem digits_toDigits (n : Nat) : Digits 10 (Nat.toDigits 10 n) n := by
  induction n using Nat.base_induction 10 (by decide) with
  | single m hm =>
    rw [Nat.toDigits_of_lt_base hm]
    exact .one ⟨hm, .inl rfl⟩
  | digit m k hk hm ih =>
    rw [← Nat.toDigits_append_toDigits (by decide) hm hk, Nat.toDigits_of_lt_base hk]
    exact ih.next ⟨hk, .inl rfl⟩

/-- Only zero is written with a zero in front. -/
theorem head?_toDigits {n : Nat} (h : (Nat.toDigits 10 n).head? = some '0') : n = 0 := by
  induction n using Nat.base_induction 10 (by decide) with
  | single m hm =>
    rw [Nat.toDigits_of_lt_base hm] at h
    have hzero : ∀ m < 10, m.digitChar = '0' → m = 0 := by decide
    exact hzero m hm (Option.some.inj h)
  | digit m k hk hm ih =>
    rw [← Nat.toDigits_append_toDigits (by decide) hm hk,
      List.head?_append_of_ne_nil _ Nat.toDigits_ne_nil] at h
    exact absurd (ih h) (by omega)

theorem decimalDigits_toString (n : Nat) : DecimalDigits (toString n).toList n := by
  rw [Nat.toString_eq_ofList_toDigits, String.toList_ofList]
  refine ⟨digits_toDigits n, fun hzero => ?_⟩
  obtain rfl := head?_toDigits hzero
  simp

/-- **A written integer is spelled.** -/
theorem integer_toString (n : Int) : Integer (toString n).toList n := by
  cases n with
  | ofNat n => exact .unsigned (decimalDigits_toString n)
  | negSucc n =>
    have htext : (toString (Int.negSucc n)).toList = '-' :: (toString (n + 1)).toList :=
      String.toList_append
    rw [htext]
    exact .negative (decimalDigits_toString (n + 1))

theorem constant_written (hkeeps : keeps ['\n']) (value : Plain) :
    Constant keeps value.written value := by
  cases value with
  | integer n => exact .integer (integer_toString n)
  | string s =>
    have hstring := Constant.string (quoted_writeString hkeeps s.toList)
    rwa [String.ofList_toList] at hstring
  | boolean b => exact .boolean b

/-! ### Lines -/

theorem pads_nil : Pads [] := by simp [Pads]

theorem pads_space : Pads [' '] := by simp [Pads, Text.isPad]

theorem key_of_isWord {name : String} (h : isWord name = true) : Key name.toList name.toList := by
  simp only [isWord, Bool.and_eq_true, Bool.not_eq_true', List.isEmpty_eq_false_iff,
    List.all_eq_true] at h
  exact .bare h.1 h.2

theorem statement_headerLine {name : String} (h : isWord name = true) :
    Statement keeps (headerLine name) (.header name) := by
  have hline : Statement keeps _ _ :=
    .header pads_nil pads_nil (key_of_isWord h) pads_nil (.pads pads_nil)
  rwa [String.ofList_toList] at hline

theorem statement_rowLine (hkeeps : keeps ['\n']) {row : String × Plain}
    (h : isWord row.1 = true) : Statement keeps (rowLine row) (.row row.1 row.2) := by
  have hline := Statement.row pads_nil (key_of_isWord h) pads_space pads_space
    (constant_written hkeeps row.2) (.pads pads_nil)
  rw [String.ofList_toList] at hline
  simpa [rowLine] using hline

/-- The lines say these items, and perhaps nothing in between. -/
def Says (keeps : List Char → Prop) (lines : List (List Char)) (items : List Item) : Prop :=
  ∃ all, List.Forall₂ (Statement keeps) lines all ∧ all.filter Item.speaks = items

theorem Says.nil : Says keeps [] [] := ⟨[], .nil, rfl⟩

theorem Says.append {lines more : List (List Char)} {items others : List Item}
    (h : Says keeps lines items) (hmore : Says keeps more others) :
    Says keeps (lines ++ more) (items ++ others) := by
  obtain ⟨all, hall, rfl⟩ := h
  obtain ⟨rest, hrest, rfl⟩ := hmore
  exact ⟨all ++ rest, List.rel_append hall hrest, List.filter_append ..⟩

theorem Says.blank {lines : List (List Char)} {items : List Item} (h : Says keeps lines items) :
    Says keeps ([] :: lines) items := by
  obtain ⟨all, hall, rfl⟩ := h
  exact ⟨.blank :: all, .cons (.blank (.pads pads_nil)) hall, rfl⟩

theorem Says.cons {line : List Char} {lines : List (List Char)} {item : Item} {items : List Item}
    (h : Says keeps lines items) (hline : Statement keeps line item) (hitem : item.speaks = true) :
    Says keeps (line :: lines) (item :: items) := by
  obtain ⟨all, hall, rfl⟩ := h
  exact ⟨item :: all, .cons hline hall, List.filter_cons_of_pos hitem⟩

theorem says_tableLines (hkeeps : keeps ['\n']) {table : String × Rows}
    (hname : isWord table.1 = true) (hrows : ∀ row ∈ table.2, isWord row.1 = true) :
    Says keeps (tableLines table) (.header table.1 :: table.2.map fun row => .row row.1 row.2) := by
  have hall : ∀ {rows : Rows}, (∀ row ∈ rows, isWord row.1 = true) →
      Says keeps (rows.map rowLine) (rows.map fun row => .row row.1 row.2) := by
    intro rows hrows
    induction rows with
    | nil => exact .nil
    | cons row rows ih =>
      exact (ih fun other hmem => hrows other (List.mem_cons_of_mem row hmem)).cons
        (statement_rowLine hkeeps (hrows row List.mem_cons_self)) rfl
  exact (hall hrows).cons (statement_headerLine hname) rfl

theorem Tables.areWords_cons {table : String × Rows} {tables : Tables}
    (h : Tables.areWords (table :: tables) = true) :
    isWord table.1 = true ∧ (∀ row ∈ table.2, isWord row.1 = true) ∧ tables.areWords = true := by
  simpa [areWords, and_assoc] using h

/-- Tables with an empty line before each. -/
theorem says_parted (hkeeps : keeps ['\n']) : ∀ {tables : Tables}, tables.areWords = true →
    Says keeps (tables.flatMap fun table => [] :: tableLines table) (itemsOf tables)
  | [], _ => .nil
  | table :: tables, h => by
    obtain ⟨hname, hrows, hrest⟩ := Tables.areWords_cons h
    exact (says_tableLines hkeeps hname hrows).blank.append (says_parted hkeeps hrest)

theorem says_lines (hkeeps : keeps ['\n']) {tables : Tables} (h : tables.areWords = true) :
    Says keeps tables.lines (itemsOf tables) := by
  cases tables with
  | nil => exact .nil
  | cons table tables =>
    obtain ⟨hname, hrows, hrest⟩ := Tables.areWords_cons h
    exact (says_tableLines hkeeps hname hrows).append (says_parted hkeeps hrest)

/-- Lines with line feeds behind them are the lines of the text, before an empty one. -/
theorem statements_lines {lines : List (List Char)} {items : List Item}
    (h : List.Forall₂ (Statement keeps) lines items) :
    Statements keeps (lines.flatMap fun line => line ++ ['\n']) (items ++ [.blank]) := by
  induction h with
  | nil => exact .last (.blank (.pads pads_nil))
  | @cons line item lines items hline _ ih =>
    rw [List.flatMap_cons, List.append_assoc]
    exact .cons (e := ['\n']) hline (by decide) ih

/-- **Written tables are spelled.** -/
theorem spells_lines (hkeeps : keeps ['\n']) {tables : Tables}
    (hdistinct : tables.areDistinct = true) (hwords : tables.areWords = true) :
    Spells keeps (tables.lines.flatMap fun line => line ++ ['\n']) tables := by
  obtain ⟨items, hitems, hsays⟩ := says_lines hkeeps hwords
  refine ⟨⟨_, statements_lines hitems, ?_⟩, hdistinct⟩
  rw [List.filter_append, hsays]
  exact List.append_nil _

/-! ### Line by line is a format that keeps to TOML -/

/-- What a map does to the values does not change what is found. -/
theorem lookup_map {α β : Type} (f : α → β) (key : String) : ∀ l : List (String × α),
    (l.map fun e => (e.1, f e.2)).lookup key = (l.lookup key).map f
  | [] => rfl
  | (k, v) :: l => by
    rw [List.map_cons, List.lookup_cons, List.lookup_cons, lookup_map f key l]
    cases key == k <;> rfl

/-- The entries of tables show them. -/
theorem Tables.shows_entries (tables : Tables) : tables.entries.Shows tables := by
  intro name
  have hget : Entries.get? tables.entries name =
      (tables.lookup name).map fun rows => .table .header (Rows.entries rows) :=
    lookup_map (fun rows => Value.table .header (Rows.entries rows)) name tables
  cases hfound : tables.lookup name with
  | none => exact .inl ⟨lookup_eq_none_iff_not_mem.mp hfound, by rw [hget, hfound]; rfl⟩
  | some rows =>
    refine .inr ⟨mem_of_lookup_eq_some hfound, .header, Rows.entries rows, ?_, fun key => ?_⟩
    · rw [hget, hfound]
      rfl
    · rw [Tables.value?, hfound]
      exact lookup_map Plain.value key rows

theorem Tables.Same.refl (tables : Tables) : tables.Same tables :=
  ⟨fun _ => Iff.rfl, fun _ _ => rfl⟩

/-- **Line by line is a format that keeps to TOML.** It carries all integers, and writes only line
feeds into strings. -/
theorem Format.conforms_lines (hkeeps : keeps ['\n']) :
    Format.lines.Conforms (fun _ => True) keeps where
  writes tables text hwrite := by
    obtain ⟨hplain, htext⟩ := Option.ite_none_right_eq_some.mp hwrite
    obtain ⟨hdistinct, hwords⟩ := Bool.and_eq_true_iff.mp hplain
    obtain rfl := Option.some.inj htext
    exact ⟨tables, .refl tables, spells_lines hkeeps hdistinct hwords⟩
  refuses _ _ _ _ _ _ _ := trivial
  reads text tables htext _ :=
    ⟨tables, tables.entries, htext, parse?_of_spells htext, tables.shows_entries⟩

end Toml
end MarkdownHtml
