/-
# Spelled documents are read

A text that spells plain tables is read as these tables (`Toml.parse?_of_spells`), whatever
blanks, comments and line ends stand in it and however its keys and values are spelled. The reader
goes line by line. Each line does to the draft what it says (`Draft.take?`), and is read up to the
start of the next (`Toml.statements?_of_statement`); so a text does what its lines say
(`Toml.statements?_of_statements`), and the lines of tables with distinct names put these tables
behind one another (`Toml.foldlM_itemsOf`).

Since this reader has one answer, no text spells two documents (`Grammar.Spells.unique`). So any
format that keeps to TOML reads what it has written (`Format.Conforms.read_of_write`).

Key definitions: `Draft.take?`, `Tables.entries`, `Grammar.Follows`.
Key theorems: `Toml.key?_of_key`, `Toml.value?_of_constant`, `Toml.statements?_of_statements`,
`Toml.parse?_of_spells`, `Grammar.Spells.unique`, `Format.Conforms.read_of_write`.
-/
import Mathlib.Data.List.Basic
import MarkdownHtml.Proofs.TomlNumbers

namespace MarkdownHtml
namespace Toml

open Grammar

variable {keeps : List Char → Prop}

/-! ### The characters of words -/

theorem ne_of_isKeyChar {c d : Char} (hc : isKeyChar c = true) (hd : isKeyChar d = false) :
    c ≠ d := by
  rintro rfl
  simp [hd] at hc

/-- A character that starts no blank, comment or value in brackets, and is no byte order mark. -/
structure Starts (c : Char) : Prop where
  pad : Text.isPad c = false
  lineEnd : Text.isLineEnd c = false
  comment : c ≠ '#'
  bracket : c ≠ '['
  brace : c ≠ '\x7b'
  mark : c.toNat ≠ 0xFEFF

theorem starts_of_isKeyChar {c : Char} (hc : isKeyChar c = true) : Starts c where
  pad := by simp (disch := decide) [Text.isPad, ne_of_isKeyChar hc]
  lineEnd := by simp (disch := decide) [Text.isLineEnd, ne_of_isKeyChar hc]
  comment := ne_of_isKeyChar hc rfl
  bracket := ne_of_isKeyChar hc rfl
  brace := ne_of_isKeyChar hc rfl
  mark hmark := by
    have hne : c ≠ Char.ofNat 0xFEFF := ne_of_isKeyChar hc rfl
    rw [← hmark, Char.ofNat_toNat] at hne
    exact hne rfl

theorem starts_quote {quote : Char} {escapes : Bool} (h : (quote, escapes) ∈ quotes) :
    Starts quote := by
  obtain ⟨rfl, -⟩ | ⟨rfl, -⟩ : quote = '"' ∧ escapes = true ∨ quote = '\x27' ∧ escapes = false := by
    simpa [quotes] using h
  · exact ⟨rfl, rfl, by decide, by decide, by decide, by decide⟩
  · exact ⟨rfl, rfl, by decide, by decide, by decide, by decide⟩

theorem quoteStyle?_of_isKeyChar {c : Char} (hc : isKeyChar c = true) : quoteStyle? c = none := by
  simp (disch := decide) [quoteStyle?, ne_of_isKeyChar hc]

/-- A stretch of characters ends where the next is none of them. -/
theorem stretch_append {p : Char → Bool} {s rest : List Char} (hs : ∀ c ∈ s, p c = true)
    (hrest : ∀ c ∈ rest.head?, p c = false) :
    (s ++ rest).takeWhile p = s ∧ (s ++ rest).dropWhile p = rest := by
  rw [List.takeWhile_append_of_pos hs, List.dropWhile_append_of_pos hs]
  cases rest with
  | nil => simp
  | cons c rest => simp [hrest c rfl]

/-! ### Blanks and comments -/

theorem skipPads_append {a : List Char} (ha : Pads a) (s : List Char) :
    skipPads (a ++ s) = skipPads s := List.dropWhile_append_of_pos ha

theorem skipPads_cons {c : Char} (hc : Text.isPad c = false) (s : List Char) :
    skipPads (c :: s) = c :: s := by
  simp [skipPads, hc]

theorem skipLines_start {c : Char} (hc : Starts c) (rest : List Char) :
    skipLines false (c :: rest) = some (c :: rest) := by
  have hfeed : c ≠ '\n' ∧ c ≠ '\r' := by simpa [Text.isLineEnd] using hc.lineEnd
  have hpad := hc.pad
  have hmark := hc.comment
  rw [skipLines] <;> simp_all

theorem skipLines_pads (s : List Char) : ∀ {a : List Char}, Pads a →
    skipLines false (a ++ s) = skipLines false s
  | [], _ => rfl
  | c :: a, ha => by
    obtain ⟨hc, ha⟩ := Pads.of_cons ha
    have ih := skipLines_pads s ha
    obtain rfl | rfl := Text.isPad_iff.mp hc
    · simpa [skipLines, hc] using ih
    · simpa [skipLines, hc] using ih

/-- What follows a line: a line end and the next lines, or nothing. -/
def Grammar.Follows (after next : List Char) : Prop :=
  (after = [] ∧ next = []) ∨ ∃ e ∈ lineEnds, after = e ++ next

theorem Grammar.Follows.cases {after next : List Char} (h : Follows after next) :
    (after = [] ∧ next = []) ∨ after = '\n' :: next ∨ after = '\r' :: '\n' :: next := by
  obtain h | ⟨e, he, rfl⟩ := h
  · exact .inl h
  · obtain rfl | rfl := mem_lineEnds.mp he
    · exact .inr (.inl rfl)
    · exact .inr (.inr rfl)

theorem skipLines_follows {after next : List Char} (h : Follows after next) :
    skipLines false after = skipLines false next := by
  obtain ⟨rfl, rfl⟩ | rfl | rfl := h.cases
  · rfl
  · rfl
  · rfl

/-- A comment is passed over with the end of its line. -/
theorem skipLines_comment {after next : List Char} (h : Follows after next) :
    ∀ {t : List Char}, (∀ c ∈ t, isForbidden c = false) →
    skipLines true (t ++ after) = skipLines false next
  | [], _ => by
    obtain ⟨rfl, rfl⟩ | rfl | rfl := h.cases
    · rfl
    · rfl
    · rfl
  | c :: t, ht => by
    have hc : isForbidden c = false := ht c List.mem_cons_self
    have ih := skipLines_comment h (t := t) fun d hd => ht d (List.mem_cons_of_mem c hd)
    have hfeed : c ≠ '\n' := by
      rintro rfl
      exact absurd hc (by decide)
    have hreturn : c ≠ '\r' := by
      rintro rfl
      exact absurd hc (by decide)
    rw [List.cons_append, skipLines]
    · simpa [hc] using ih
    · rintro r rfl
      exact absurd rfl hreturn
    · rintro rfl
      exact absurd rfl hfeed

/-- A line that says nothing is passed over. -/
theorem skipLines_trail {t after next : List Char} (ht : Trail t) (h : Follows after next) :
    skipLines false (t ++ after) = skipLines false next := by
  cases ht with
  | pads hs => rw [skipLines_pads _ hs, skipLines_follows h]
  | @comment s t hs ht =>
    have hmark : Text.isPad '#' = false := rfl
    rw [List.append_assoc, skipLines_pads _ hs, List.cons_append]
    simpa [skipLines, hmark] using skipLines_comment h ht

/-- What may end a line ends it. -/
theorem lineEnd?_of_trail {t after next : List Char} (ht : Trail t) (h : Follows after next) :
    lineEnd? (t ++ after) = some next := by
  cases ht with
  | pads hs =>
    rw [lineEnd?, skipPads_append hs]
    obtain ⟨rfl, rfl⟩ | rfl | rfl := h.cases
    · rfl
    · rfl
    · rfl
  | @comment s t hs ht =>
    have hkept : ∀ c ∈ t, (!isForbidden c) = true := fun c hc => by simp [ht c hc]
    rw [lineEnd?, List.append_assoc, skipPads_append hs, List.cons_append, skipPads_cons rfl]
    simp only
    rw [List.dropWhile_append_of_pos hkept]
    obtain ⟨rfl, rfl⟩ | rfl | rfl := h.cases
    · rfl
    · rfl
    · rfl

/-! ### Keys -/

theorem Grammar.Key.head {k name : List Char} (h : Key k name) : ∃ c t, k = c :: t ∧ Starts c := by
  cases h with
  | bare hne hs =>
    obtain ⟨c, t, rfl⟩ := List.exists_cons_of_ne_nil hne
    exact ⟨c, t, rfl, starts_of_isKeyChar (hs c List.mem_cons_self)⟩
  | quoted hquote => exact ⟨_, _, rfl, starts_quote hquote⟩

theorem simpleKey?_of_key {k name rest : List Char} (h : Key k name)
    (hrest : ∀ c ∈ rest.head?, isKeyChar c = false) :
    simpleKey? (k ++ rest) = some (String.ofList name, rest) := by
  cases h with
  | bare hne hs =>
    obtain ⟨c, t, rfl⟩ := List.exists_cons_of_ne_nil hne
    have hc : isKeyChar c = true := hs c List.mem_cons_self
    obtain ⟨htake, hdrop⟩ := stretch_append hs hrest
    rw [List.cons_append] at htake hdrop ⊢
    simp only [simpleKey?, quoteStyle?_of_isKeyChar hc, hc, htake, hdrop]
    rfl
  | @quoted quote escapes t s hquote h =>
    rw [List.cons_append, List.append_assoc, List.singleton_append]
    simp only [simpleKey?, quoteStyle?_of_mem hquote, Option.isSome_some, if_true]
    exact lineString?_of_oneLine hquote h rest

/-- A key of one part is read up to what does not belong to it. -/
theorem key?_of_key {k name rest : List Char} (h : Key k name)
    (hrest : ∀ c ∈ rest.head?, isKeyChar c = false) (hdot : (skipPads rest).head? ≠ some '.') :
    key? (k ++ rest) = some (([], String.ofList name), rest) := by
  rw [key?, keyFrom, simpleKey?_of_key h hrest]
  simp only
  split
  · rename_i r hr
    simp [hr] at hdot
  · rfl

/-- Blanks and a character that is in no key end a key. -/
theorem key?_of_pads {k name c : List Char} (h : Key k name) (hc : Pads c) {d : Char}
    (hd : isKeyChar d = false) (hpad : Text.isPad d = false) (hdot : d ≠ '.') (rest : List Char) :
    key? (k ++ (c ++ d :: rest)) = some (([], String.ofList name), c ++ d :: rest) := by
  refine key?_of_key h ?_ ?_
  · cases c with
    | nil =>
      rintro e ⟨⟩
      exact hd
    | cons b c =>
      rintro e ⟨⟩
      obtain rfl | rfl := Text.isPad_iff.mp (hc b List.mem_cons_self)
      · rfl
      · rfl
  · rw [skipPads_append hc, skipPads_cons hpad]
    simpa using hdot

/-! ### Values -/

/-- Behind a value come blanks, and then what ends a value without quotes and ends the line. -/
theorem Grammar.Trail.split {t after next : List Char} (ht : Trail t) (h : Follows after next) :
    ∃ pads more, t ++ after = pads ++ more ∧ Pads pads ∧ (∀ c ∈ more.head?, endsScalar c = true) ∧
      lineEnd? more = some next := by
  have hnil : Pads [] := by simp [Pads]
  cases ht with
  | pads hs =>
    refine ⟨t, after, rfl, hs, ?_, lineEnd?_of_trail (.pads hnil) h⟩
    obtain ⟨rfl, -⟩ | rfl | rfl := h.cases
    · simp
    · rintro c ⟨⟩
      rfl
    · rintro c ⟨⟩
      rfl
  | @comment s t hs ht =>
    refine ⟨s, '#' :: t ++ after, by simp, hs, ?_, lineEnd?_of_trail (.comment hnil ht) h⟩
    rintro c ⟨⟩
    rfl

/-- A text without quotes that holds nothing that could end it. -/
structure Solid (s : List Char) : Prop where
  head : ∃ c t, s = c :: t ∧ Starts c ∧ quoteStyle? c = none
  inner : ∀ c ∈ s, endsScalar c = false ∧ Text.isPad c = false

theorem solid_of_isKeyChar {c : Char} {s : List Char} (hc : c = '+' ∨ isKeyChar c = true)
    (hs : ∀ d ∈ s, isKeyChar d = true) : Solid (c :: s) := by
  have hkey : ∀ {d}, isKeyChar d = true → endsScalar d = false ∧ Text.isPad d = false := by
    intro d hd
    have hstarts := starts_of_isKeyChar hd
    refine ⟨?_, hstarts.pad⟩
    simp (disch := decide) [endsScalar, hstarts.lineEnd, ne_of_isKeyChar hd]
  obtain rfl | hc := hc
  · refine ⟨⟨'+', s, rfl, ⟨rfl, rfl, by decide, by decide, by decide, by decide⟩, rfl⟩, ?_⟩
    intro d hd
    obtain rfl | hd := List.mem_cons.mp hd
    · exact ⟨rfl, rfl⟩
    · exact hkey (hs d hd)
  · refine ⟨⟨c, s, rfl, starts_of_isKeyChar hc, quoteStyle?_of_isKeyChar hc⟩, ?_⟩
    intro d hd
    obtain rfl | hd := List.mem_cons.mp hd
    · exact hkey hc
    · exact hkey (hs d hd)

theorem solid_toString (b : Bool) : Solid (toString b).toList := by
  cases b
  · have htail : ['a', 'l', 's', 'e'].all isKeyChar = true := rfl
    exact solid_of_isKeyChar (.inr rfl) (List.all_eq_true.mp htail)
  · have htail : ['r', 'u', 'e'].all isKeyChar = true := rfl
    exact solid_of_isKeyChar (.inr rfl) (List.all_eq_true.mp htail)

theorem Grammar.Integer.solid {t : List Char} {n : Int} (h : Integer t n) : Solid t := by
  have htail := h.tail
  obtain ⟨c, r, rfl, hc⟩ := h.head
  refine solid_of_isKeyChar ?_ fun d hd => (htail d hd).1
  obtain rfl | rfl | hc := hc
  · exact .inl rfl
  · exact .inr rfl
  · exact .inr (by simp [isKeyChar, Char.isAlphanum, hc])

/-- A value without quotes is read up to what ends it. -/
theorem value?_of_solid {s : List Char} (hs : Solid s) {v : Value} (hv : scalar? s = some v)
    {pads more : List Char} (hpads : Pads pads) (hmore : ∀ c ∈ more.head?, endsScalar c = true) :
    value? (s ++ (pads ++ more)) = some (v, more) := by
  have hinner : ∀ c ∈ s ++ pads, (!endsScalar c) = true := by
    intro c hc
    obtain hc | hc := List.mem_append.mp hc
    · simp [(hs.inner c hc).1]
    · obtain rfl | rfl := Text.isPad_iff.mp (hpads c hc)
      · rfl
      · rfl
  have hbare : bareValue? (s ++ (pads ++ more)) = some (v, more) := by
    have hends : ∀ c ∈ more.head?, (!endsScalar c) = false := fun c hc => by simp [hmore c hc]
    obtain ⟨htake, hdrop⟩ := stretch_append hinner hends
    rw [bareValue?, ← List.append_assoc, htake, hdrop, Text.dropEndWhile_append (fun c hc => (hs.inner c hc).2) hpads, hv]
    rfl
  obtain ⟨c, t, rfl, hstarts, hquote⟩ := hs.head
  rw [List.cons_append] at hbare ⊢
  rw [value?, valueFrom]
  simp [hquote, hstarts.bracket, hstarts.brace, hbare]

theorem Grammar.Quoted.head {t s : List Char} (h : Quoted keeps t s) :
    ∃ c r, t = c :: r ∧ Starts c ∧ (quoteStyle? c).isSome = true := by
  cases h with
  | line hq => exact ⟨_, _, rfl, starts_quote hq, by simp [quoteStyle?_of_mem hq]⟩
  | lines hq => exact ⟨_, _, rfl, starts_quote hq, by simp [quoteStyle?_of_mem hq]⟩

/-- A value is read, and the end of its line behind it. -/
theorem value?_of_constant {v : List Char} {value : Plain} (h : Constant keeps v value)
    {t after next : List Char} (ht : Trail t) (hf : Follows after next) :
    ∃ behind, value? (v ++ (t ++ after)) = some (value.value, behind) ∧
      lineEnd? behind = some next := by
  obtain ⟨pads, more, hsplit, hpads, hmore, hend⟩ := ht.split hf
  cases h with
  | integer h =>
    rw [hsplit]
    exact ⟨more, value?_of_solid h.solid (scalar?_of_integer h) hpads hmore, hend⟩
  | boolean b =>
    have hscalar : scalar? (toString b).toList = some (.boolean b) := by
      cases b
      · rfl
      · rfl
    rw [hsplit]
    exact ⟨more, value?_of_solid (solid_toString b) hscalar hpads hmore, hend⟩
  | @string v s h =>
    have hnone : ∀ c ∈ (t ++ after).head?, quoteStyle? c = none := by
      have hends : ∀ c, endsScalar c = true → quoteStyle? c = none := by
        intro c hc
        unfold quoteStyle?
        split_ifs with hdouble hsingle
        · exact absurd hc (by simp [eq_of_beq hdouble, endsScalar, Text.isLineEnd])
        · exact absurd hc (by simp [eq_of_beq hsingle, endsScalar, Text.isLineEnd])
        · rfl
      rw [hsplit]
      cases pads with
      | nil => exact fun c hc => hends c (hmore c hc)
      | cons c pads =>
        rintro d ⟨⟩
        obtain rfl | rfl := Text.isPad_iff.mp (hpads c List.mem_cons_self)
        · rfl
        · rfl
    have hread := string?_of_quoted h hnone
    refine ⟨t ++ after, ?_, lineEnd?_of_trail ht hf⟩
    obtain ⟨c, r, rfl, -, hquote⟩ := h.head
    rw [List.cons_append] at hread ⊢
    rw [value?, valueFrom]
    simp [hquote, hread, Plain.value]

/-- No value starts with a blank. -/
theorem Grammar.Constant.head {v : List Char} {value : Plain} (h : Constant keeps v value) :
    ∃ c r, v = c :: r ∧ Text.isPad c = false := by
  cases h with
  | integer h =>
    obtain ⟨c, r, hv, hc, -⟩ := h.solid.head
    exact ⟨c, r, hv, hc.pad⟩
  | string h =>
    obtain ⟨c, r, hv, hc, -⟩ := h.head
    exact ⟨c, r, hv, hc.pad⟩
  | boolean b =>
    obtain ⟨c, r, hv, hc, -⟩ := (solid_toString b).head
    exact ⟨c, r, hv, hc.pad⟩

/-! ### Lines -/

/-- What a line does to the document so far. -/
def Draft.take? (draft : Draft) : Item → Option Draft
  | .blank => some draft
  | .header name => draft.enter? addTable [] name
  | .row key value => draft.add? [] key value.value

section Lines

variable {draft : Draft} {fuel : Nat} {after next : List Char}

/-- A line that is read up to the next, and then the others. -/
theorem statements?_cons {a s : List Char} {c : Char} {taken : Option Draft}
    (ha : Pads a) (hs : s.head? = some c) (hc : Starts c ∨ c = '[')
    (hstep : statement? draft s = taken.map fun draft => (draft, next)) :
    statements? draft (fuel + 1) (a ++ s) = taken.bind fun draft => statements? draft fuel next := by
  obtain ⟨r, rfl⟩ := List.head?_eq_some_iff.mp hs
  have hskip : skipLines false (a ++ c :: r) = some (c :: r) := by
    rw [skipLines_pads _ ha]
    obtain hc | rfl := hc
    · exact skipLines_start hc r
    · simp [skipLines, Text.isPad]
  rw [statements?, hskip]
  simp only [hstep]
  cases taken <;> rfl

/-- A header goes on with its table. -/
theorem statement?_header {b k name c t : List Char} (hb : Pads b) (hk : Key k name) (hc : Pads c)
    (ht : Trail t) (hf : Follows after next) :
    statement? draft ('[' :: (b ++ (k ++ (c ++ ']' :: (t ++ after))))) =
      (draft.take? (.header (String.ofList name))).map fun draft => (draft, next) := by
  have hread : key? (k ++ (c ++ ']' :: (t ++ after))) =
      some (([], String.ofList name), c ++ ']' :: (t ++ after)) :=
    key?_of_pads hk hc rfl rfl (by decide) _
  obtain ⟨d, r, rfl, hd⟩ := hk.head
  have hheader : header? [']'] (b ++ (d :: r ++ (c ++ ']' :: (t ++ after)))) =
      some (([], String.ofList name), t ++ after) := by
    rw [List.cons_append] at hread ⊢
    rw [header?, skipPads_append hb, skipPads_cons hd.pad, hread]
    simp only
    rw [skipPads_append hc, skipPads_cons rfl]
    rfl
  have hend := lineEnd?_of_trail ht hf
  rw [statement?]
  · simp only [hheader, hend, Option.bind_eq_bind, Option.bind_some, Draft.take?]
    cases draft.enter? addTable [] (String.ofList name) <;> rfl
  · -- one bracket only opens the header
    intro s heq
    cases b with
    | nil => exact hd.bracket (List.cons.inj heq).1
    | cons e b =>
      have he : Text.isPad e = true := hb e List.mem_cons_self
      rw [(List.cons.inj heq).1] at he
      exact absurd he (by decide)

/-- A key adds its value to the current table. -/
theorem statement?_row {k key b c v t : List Char} {value : Plain} (hk : Key k key) (hb : Pads b)
    (hc : Pads c) (hv : Constant keeps v value) (ht : Trail t) (hf : Follows after next) :
    statement? draft (k ++ (b ++ '=' :: (c ++ (v ++ (t ++ after))))) =
      (draft.take? (.row (String.ofList key) value)).map fun draft => (draft, next) := by
  have hread : key? (k ++ (b ++ '=' :: (c ++ (v ++ (t ++ after))))) =
      some (([], String.ofList key), b ++ '=' :: (c ++ (v ++ (t ++ after)))) :=
    key?_of_pads hk hb rfl rfl (by decide) _
  have hequals : equals? (b ++ '=' :: (c ++ (v ++ (t ++ after)))) = some (v ++ (t ++ after)) := by
    obtain ⟨d, r, rfl, hd⟩ := hv.head
    rw [equals?, skipPads_append hb, skipPads_cons rfl]
    simp only
    rw [skipPads_append hc, List.cons_append, skipPads_cons hd]
  obtain ⟨behind, hvalue, hend⟩ := value?_of_constant hv ht hf
  obtain ⟨d, r, rfl, hd⟩ := hk.head
  rw [List.cons_append] at hread ⊢
  rw [statement?]
  · simp only [hread, hequals, hvalue, hend, Option.bind_eq_bind, Option.bind_some, Draft.take?]
    cases draft.add? [] (String.ofList key) value.value <;> rfl
  · intro s heq
    exact hd.bracket (List.cons.inj heq).1
  · intro s heq
    exact hd.bracket (List.cons.inj heq).1

/-- A line that says something is read up to the next. -/
theorem statements?_of_speaks {t : List Char} {i : Item} (ht : Statement keeps t i)
    (hf : Follows after next) (hi : i.speaks = true) :
    statements? draft (fuel + 1) (t ++ after) =
      (draft.take? i).bind fun draft => statements? draft fuel next := by
  cases ht with
  | blank => exact absurd hi (by simp [Item.speaks])
  | header ha hb hk hc ht =>
    simp only [List.append_assoc, List.cons_append]
    exact statements?_cons ha rfl (.inr rfl) (statement?_header hb hk hc ht hf)
  | row ha hk hb hc hv ht =>
    simp only [List.append_assoc, List.cons_append]
    obtain ⟨d, r, hr, hd⟩ := hk.head
    refine statements?_cons ha ?_ (.inl hd) (statement?_row hk hb hc hv ht hf)
    rw [hr]
    rfl

/-- A line that says nothing is passed over. -/
theorem statements?_of_blank {t : List Char} (ht : Trail t) (hf : Follows after next) :
    statements? draft fuel (t ++ after) = statements? draft fuel next := by
  cases fuel with
  | zero => rfl
  | succ fuel => simp only [statements?, skipLines_trail ht hf]

/-- A line and what follows it do what both say. -/
theorem statements?_of_statement {t : List Char} {i : Item} {items : List Item}
    (ht : Statement keeps t i) (hf : Follows after next)
    (hnext : ∀ draft fuel, (items.filter Item.speaks).length < fuel →
      statements? draft fuel next =
        ((items.filter Item.speaks).foldlM Draft.take? draft).map Draft.entries) :
    ∀ draft fuel, ((i :: items).filter Item.speaks).length < fuel →
      statements? draft fuel (t ++ after) =
        (((i :: items).filter Item.speaks).foldlM Draft.take? draft).map Draft.entries := by
  intro draft fuel hfuel
  by_cases hi : i.speaks = true
  · rw [List.filter_cons_of_pos hi] at hfuel ⊢
    obtain _ | fuel := fuel
    · exact absurd hfuel (Nat.not_lt_zero _)
    rw [statements?_of_speaks ht hf hi, List.foldlM_cons]
    cases htaken : draft.take? i with
    | none => rfl
    | some taken => exact hnext taken fuel (by simpa using hfuel)
  · rw [List.filter_cons_of_neg hi] at hfuel ⊢
    cases ht with
    | blank ht => exact (statements?_of_blank ht hf).trans (hnext draft fuel hfuel)
    | header => exact absurd rfl hi
    | row => exact absurd rfl hi

end Lines

/-- **A text does what its lines say.** -/
theorem statements?_of_statements {text : List Char} {items : List Item}
    (h : Statements keeps text items) :
    ∀ draft fuel, (items.filter Item.speaks).length < fuel →
      statements? draft fuel text =
        ((items.filter Item.speaks).foldlM Draft.take? draft).map Draft.entries := by
  induction h with
  | @last t i ht =>
    have hend : ∀ draft fuel, 0 < fuel → statements? draft fuel [] = some draft.entries := by
      rintro draft (_ | fuel) hfuel
      · exact absurd hfuel (Nat.lt_irrefl 0)
      · rfl
    rw [← List.append_nil t]
    exact statements?_of_statement ht (.inl ⟨rfl, rfl⟩) hend
  | cons ht he _ ih => exact statements?_of_statement ht (.inr ⟨_, he, rfl⟩) ih

/-- There are no more lines that say something than characters. -/
theorem Grammar.Statements.length_le {text : List Char} {items : List Item}
    (h : Statements keeps text items) : (items.filter Item.speaks).length ≤ text.length := by
  have hline : ∀ {t i}, Statement keeps t i → i.speaks = true → 1 ≤ t.length := by
    intro t i ht hi
    cases ht with
    | blank => exact absurd hi (by simp [Item.speaks])
    | header =>
      simp only [List.length_append, List.length_cons]
      omega
    | row =>
      simp only [List.length_append, List.length_cons]
      omega
  induction h with
  | @last t i ht =>
    by_cases hi : i.speaks = true
    · simpa [hi] using hline ht hi
    · simp [hi]
  | @cons t e s i is ht _ _ ih =>
    rw [List.length_append, List.length_append]
    by_cases hi : i.speaks = true
    · have := hline ht hi
      rw [List.filter_cons_of_pos hi, List.length_cons]
      omega
    · rw [List.filter_cons_of_neg hi]
      omega

/-! ### Tables -/

section Entries

variable {entries : Entries} {key : String}

theorem lookup_eq_none_iff_not_mem {α : Type} {l : List (String × α)} :
    l.lookup key = none ↔ key ∉ l.map Prod.fst := by
  rw [List.lookup_eq_none_iff, List.mem_map, not_exists]
  constructor
  · rintro h e ⟨he, rfl⟩
    exact absurd (h e he) (by simp)
  · intro h e he
    have hne : key ≠ e.1 := fun heq => h e ⟨he, heq.symm⟩
    simpa using hne

theorem mem_of_lookup_eq_some {α : Type} {l : List (String × α)} {v : α}
    (h : l.lookup key = some v) : key ∈ l.map Prod.fst := by
  by_contra hnot
  rw [lookup_eq_none_iff_not_mem.mpr hnot] at h
  cases h

theorem Entries.get?_new (h : key ∉ entries.map Prod.fst) : entries.get? key = none :=
  lookup_eq_none_iff_not_mem.mpr h

/-- A key is looked for behind entries that do not have it. -/
theorem Entries.get?_append (h : key ∉ entries.map Prod.fst) (more : Entries) :
    Entries.get? (entries ++ more) key = Entries.get? more key := by
  rw [Entries.get?, List.lookup_append, lookup_eq_none_iff_not_mem.mpr h]
  rfl

/-- A key is set behind entries that do not have it. -/
theorem Entries.set_append (v : Value) (more : Entries) : ∀ {entries : Entries},
    key ∉ entries.map Prod.fst →
    Entries.set key v (entries ++ more) = entries ++ Entries.set key v more
  | [], _ => rfl
  | (k, w) :: entries, h => by
    obtain ⟨hne, hrest⟩ : key ≠ k ∧ key ∉ entries.map Prod.fst := by simpa using h
    simp [Entries.set, hne.symm, Entries.set_append v more hrest]

theorem Entries.set_new (h : key ∉ entries.map Prod.fst) (v : Value) :
    entries.set key v = entries ++ [(key, v)] := by
  have := Entries.set_append v [] h
  rwa [List.append_nil] at this

theorem Entries.get?_last (h : key ∉ entries.map Prod.fst) (v : Value) :
    Entries.get? (entries ++ [(key, v)]) key = some v := by
  rw [Entries.get?_append h, Entries.get?, List.lookup_cons_self]

theorem Entries.set_last (h : key ∉ entries.map Prod.fst) (v w : Value) :
    Entries.set key w (entries ++ [(key, v)]) = entries ++ [(key, w)] := by
  rw [Entries.set_append w _ h, Entries.set, if_pos (beq_self_eq_true key)]

end Entries

/-- A header starts a table that is not there yet. -/
theorem Draft.enter?_new {draft : Draft} {name : String}
    (h : name ∉ draft.entries.map Prod.fst) :
    draft.enter? addTable [] name =
      some ⟨draft.entries ++ [(name, .table .header [])], [name]⟩ := by
  simp [Draft.enter?, within, addTable, Entries.get?_new h, Entries.set_new h]

/-- A key that is not there yet goes to the end of the current table. -/
theorem Draft.add?_new {done entries : Entries} {name key : String} (v : Value)
    (hname : name ∉ done.map Prod.fst) (hkey : key ∉ entries.map Prod.fst) :
    Draft.add? ⟨done ++ [(name, .table .header entries)], [name]⟩ [] key v =
      some ⟨done ++ [(name, .table .header (entries ++ [(key, v)]))], [name]⟩ := by
  simp [Draft.add?, within, addKey, addNew, Way.passes, Entries.get?_last hname,
    Entries.set_last hname, Entries.get?_new hkey, Entries.set_new hkey]

/-- The keys of a table as a reader returns them. -/
def Rows.entries (rows : Rows) : Entries := rows.map fun row => (row.1, row.2.value)

/-- Tables as a reader returns them. -/
def Tables.entries (tables : Tables) : Entries :=
  tables.map fun t => (t.1, .table .header (Rows.entries t.2))

/-- The lines of a table are read as its entries, behind those that are there. -/
theorem foldlM_rows {done : Entries} {name : String} (hname : name ∉ done.map Prod.fst) :
    ∀ (rows : Rows) (entries : Entries), (entries.map Prod.fst ++ rows.map Prod.fst).Nodup →
      (rows.map fun row => Item.row row.1 row.2).foldlM Draft.take?
          ⟨done ++ [(name, .table .header entries)], [name]⟩ =
        some ⟨done ++ [(name, .table .header (entries ++ Rows.entries rows))], [name]⟩
  | [], entries, _ => by simp [Rows.entries]
  | (key, value) :: rows, entries, hnodup => by
    have hnew : key ∉ entries.map Prod.fst := by
      intro hmem
      exact (List.nodup_append.mp hnodup).2.2 key hmem key (by simp) rfl
    rw [List.map_cons, List.foldlM_cons, Draft.take?, Draft.add?_new value.value hname hnew]
    refine (foldlM_rows hname rows _ ?_).trans ?_
    · simpa using hnodup
    · simp [Rows.entries]

theorem Tables.areDistinct_cons {table : String × Rows} {tables : Tables}
    (h : Tables.areDistinct (table :: tables) = true) :
    table.1 ∉ tables.map Prod.fst ∧ (table.2.map Prod.fst).Nodup ∧ tables.areDistinct = true := by
  simp only [areDistinct, List.map_cons, List.nodup_cons, List.all_cons, Bool.and_eq_true,
    decide_eq_true_eq] at h ⊢
  exact ⟨h.1.1, h.2.1, h.1.2, h.2.2⟩

/-- The lines of tables put these tables behind those that are there. -/
theorem foldlM_itemsOf : ∀ {tables : Tables} (draft : Draft), tables.areDistinct = true →
    (∀ name ∈ tables.map Prod.fst, name ∉ draft.entries.map Prod.fst) →
    ∃ current, (itemsOf tables).foldlM Draft.take? draft =
      some ⟨draft.entries ++ tables.entries, current⟩
  | [], draft, _, _ => ⟨draft.current, by simp [itemsOf, Tables.entries]⟩
  | (name, rows) :: tables, draft, hdistinct, hnew => by
    obtain ⟨hname, hrows, htables⟩ := Tables.areDistinct_cons hdistinct
    have hfirst : name ∉ draft.entries.map Prod.fst := hnew name List.mem_cons_self
    have hothers : ∀ other ∈ tables.map Prod.fst, other ∉
        (draft.entries ++ [(name, Value.table .header (Rows.entries rows))]).map Prod.fst := by
      intro other hother
      have hne : other ≠ name := by
        rintro rfl
        exact hname hother
      simpa [hne] using hnew other (List.mem_cons_of_mem _ hother)
    obtain ⟨current, hrest⟩ := foldlM_itemsOf ⟨_, [name]⟩ htables hothers
    refine ⟨current, ?_⟩
    have hadded := foldlM_rows hfirst rows [] (by simpa using hrows)
    have htable : (Item.header name :: rows.map fun row => Item.row row.1 row.2).foldlM Draft.take?
        draft = some ⟨draft.entries ++ [(name, .table .header (Rows.entries rows))], [name]⟩ := by
      rw [List.foldlM_cons, Draft.take?, Draft.enter?_new hfirst]
      exact hadded
    rw [itemsOf, List.flatMap_cons, List.foldlM_append, htable]
    refine hrest.trans ?_
    simp [Tables.entries]

/-! ### Documents -/

/-- No byte order mark stands at the start. -/
def Unmarked (s : List Char) : Prop := ∀ c ∈ s.head?, c.toNat ≠ 0xFEFF

theorem Unmarked.pads {a s : List Char} (ha : Pads a) (hs : Unmarked s) : Unmarked (a ++ s) := by
  cases a with
  | nil => exact hs
  | cons c a =>
    rintro d ⟨⟩
    obtain rfl | rfl := Text.isPad_iff.mp (ha c List.mem_cons_self)
    · decide
    · decide

theorem Unmarked.follows {after next : List Char} (h : Follows after next) : Unmarked after := by
  obtain ⟨rfl, -⟩ | rfl | rfl := h.cases
  · simp [Unmarked]
  · rintro c ⟨⟩
    decide
  · rintro c ⟨⟩
    decide

theorem Unmarked.statement {t after next : List Char} {i : Item} (ht : Statement keeps t i)
    (h : Follows after next) : Unmarked (t ++ after) := by
  cases ht with
  | blank ht =>
    cases ht with
    | pads hs => exact (Unmarked.follows h).pads hs
    | comment hs =>
      rw [List.append_assoc]
      refine Unmarked.pads hs ?_
      rintro c ⟨⟩
      decide
  | header ha =>
    rw [List.append_assoc]
    refine Unmarked.pads ha ?_
    rintro c ⟨⟩
    decide
  | row ha hk =>
    rw [List.append_assoc]
    refine Unmarked.pads ha ?_
    obtain ⟨d, r, rfl, hd⟩ := hk.head
    rintro c ⟨⟩
    exact hd.mark

/-- A text that spells a document is read from its first character. -/
theorem Grammar.Statements.dropMark {text : List Char} {items : List Item}
    (h : Statements keeps text items) : dropMark text = text := by
  have hunmarked : Unmarked text := by
    cases h with
    | last ht =>
      have hline := Unmarked.statement ht (.inl ⟨rfl, rfl⟩)
      rwa [List.append_nil] at hline
    | cons ht he => exact Unmarked.statement ht (.inr ⟨_, he, rfl⟩)
  cases text with
  | nil => rfl
  | cons c text => rw [Toml.dropMark, if_neg (hunmarked c rfl)]

/-- **A spelled document is read** as the tables that it spells. -/
theorem parse?_of_spells {text : List Char} {tables : Tables} (h : Spells keeps text tables) :
    parse? text = some tables.entries := by
  obtain ⟨⟨items, hspelled, hitems⟩, hdistinct⟩ := h
  obtain ⟨current, hfold⟩ := foldlM_itemsOf {} hdistinct (by simp)
  have hfuel := Nat.lt_succ_of_le hspelled.length_le
  rw [parse?, hspelled.dropMark, statements?_of_statements hspelled {} _ hfuel, hitems, hfold]
  simp

/-- **A text spells one document at most.** -/
theorem Grammar.Spells.unique {text : List Char} {tables other : Tables}
    (h : Spells keeps text tables) (hother : Spells keeps text other) : tables = other := by
  have hsame : tables.entries = other.entries :=
    Option.some.inj ((parse?_of_spells h).symm.trans (parse?_of_spells hother))
  have hvalue : Function.Injective Plain.value := by
    rintro (n | s | b) (m | t | c) heq
    all_goals simp_all [Plain.value]
  have hrows : Function.Injective Rows.entries := List.map_injective_iff.mpr (by
    intro row row' heq
    obtain ⟨hkey, hv⟩ := Prod.mk.inj heq
    exact Prod.ext hkey (hvalue hv))
  refine List.map_injective_iff.mpr ?_ hsame
  intro table table' heq
  obtain ⟨hname, htable⟩ := Prod.mk.inj heq
  exact Prod.ext hname (hrows (Value.table.inj htable).2)

/-! ### What is written is read back -/

/-- Tables that differ in their order only are shown by the same entries. -/
theorem Entries.Shows.of_same {entries : Entries} {tables other : Tables}
    (h : entries.Shows tables) (hsame : tables.Same other) : entries.Shows other := by
  intro name
  obtain ⟨hname, hnone⟩ | ⟨hname, origin, inner, hsome, hkeys⟩ := h name
  · exact .inl ⟨fun hmem => hname ((hsame.names name).mpr hmem), hnone⟩
  · refine .inr ⟨(hsame.names name).mp hname, origin, inner, hsome, fun key => ?_⟩
    rw [hkeys key, hsame.values name key]

/-- A table that is shown stands under its name. -/
theorem Entries.Shows.table {entries : Entries} {tables : Tables} {name : String}
    (h : entries.Shows tables) (hname : name ∈ tables.map Prod.fst) :
    ∃ origin inner, entries.get? name = some (.table origin inner) ∧
      ∀ key, Entries.get? inner key = (tables.value? name key).map Plain.value := by
  obtain ⟨hnot, -⟩ | ⟨-, htable⟩ := h name
  · exact absurd hname hnot
  · exact htable

/-- Nothing stands under other names. -/
theorem Entries.Shows.none {entries : Entries} {tables : Tables} {name : String}
    (h : entries.Shows tables) (hname : name ∉ tables.map Prod.fst) : entries.get? name = none := by
  obtain ⟨-, hnone⟩ | ⟨hmem, -⟩ := h name
  · exact hnone
  · exact absurd hmem hname

/-- **A format that keeps to TOML reads what it has written.** The text spells the tables and is
read as tables that it spells, and those are the same. -/
theorem Format.Conforms.read_of_write {format : Format} {carried : Int → Prop} {tables : Tables}
    {text : List Char} (hformat : format.Conforms carried keeps)
    (hwrite : format.write tables = some text) :
    ∃ entries, format.read text = some entries ∧ entries.Shows tables := by
  obtain ⟨spelled, hsame, htext⟩ := hformat.writes tables text hwrite
  have hcarried : ∀ name key n, spelled.value? name key = some (.integer n) → carried n := by
    intro name key n hn
    rw [hsame.values name key] at hn
    exact hformat.refuses tables text hwrite name key n hn
  obtain ⟨found, entries, hfound, hread, hshows⟩ := hformat.reads text spelled htext hcarried
  obtain rfl := hfound.unique htext
  exact ⟨entries, hread, hshows.of_same hsame⟩

end Toml
end MarkdownHtml
