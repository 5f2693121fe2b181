/-
# Spelled strings are read

Whatever form a string is spelled in, reading gives the string and leaves what stands behind it
(`Toml.string?_of_quoted`), as long as no quote stands there. Each proof goes along the spelling:
the reader takes every part of it in one step, and the rest is the induction hypothesis.

On several lines the reader looks ahead at every quote: three of them or more close the string.
Three quotes in a row are never spelled before the end, so a quote either belongs to the last few,
which the closing ones follow directly, or starts a run that is too short.

Key theorems: `Toml.escape?_of_escape`, `Toml.line?_of_oneLine`, `Toml.lines?_of_manyLines`,
`Toml.string?_of_quoted`.
-/
import Mathlib.Data.List.TakeWhile
import Mathlib.Tactic.SplitIfs
import MarkdownHtml.Proofs.TomlGrammar

namespace MarkdownHtml
namespace Toml

open Grammar

variable {keeps : List Char → Prop}

/-! ### Digits -/

namespace Grammar

variable {base d : Nat} {c : Char}

/-- What holds of all digits holds of a digit, in either case. -/
theorem IsDigit.holds {P : Char → Nat → Prop} (hbase : base ≤ 16)
    (hP : ∀ d < 16, P d.digitChar d ∧ P d.digitChar.toUpper d) (h : IsDigit base c d) : P c d := by
  obtain ⟨hd, rfl | rfl⟩ := h
  · exact (hP d (by omega)).1
  · exact (hP d (by omega)).2

theorem IsDigit.hexValue? (hbase : base ≤ 16) (h : IsDigit base c d) :
    Toml.hexValue? c = some d :=
  h.holds hbase (P := fun c d => Toml.hexValue? c = some d) (by decide)

theorem IsDigit.isAlphanum (hbase : base ≤ 16) (h : IsDigit base c d) : c.isAlphanum = true :=
  h.holds hbase (P := fun c _ => c.isAlphanum = true) (by decide)

end Grammar

/-- Hexadecimal digits without underscores are read as the number they write. -/
theorem codePoint?_digits {s : List Char} {n : Nat} (h : Digits 16 s n) (hs : '_' ∉ s) :
    ∀ (count : Nat) (rest : List Char),
      codePoint? 0 (s.length + count) (s ++ rest) = codePoint? n count rest := by
  induction h with
  | one hc =>
    intro count rest
    rw [List.length_singleton, Nat.add_comm, List.singleton_append, codePoint?,
      hc.hexValue? (Nat.le_refl 16)]
    simp
  | @next s n c d _ hc ih =>
    intro count rest
    have hfront : '_' ∉ s := fun hmem => hs (List.mem_append_left _ hmem)
    rw [List.append_assoc, List.length_append, List.length_singleton, Nat.add_assoc,
      ih hfront, Nat.add_comm 1, List.singleton_append, codePoint?, hc.hexValue? (Nat.le_refl 16)]
  | group _ _ _ => exact absurd (by simp) hs

/-! ### Escapes -/

/-- An escape is read as the character that it stands for. -/
theorem escape?_of_escape {e : List Char} {c : Char} (h : Escape e c) (rest : List Char) :
    escape? (e ++ rest) = some (c, rest) := by
  cases h with
  | @short k c hk =>
    have hall : ∀ e ∈ shortEscapes, ∀ rest, escape? (e.1 :: rest) = some (e.2, rest) := by
      simp [shortEscapes, escape?]
    exact hall (k, c) hk rest
  | @code k s n hk hs hplain hvalid =>
    have hcode := codePoint?_digits hs hplain 0 rest
    rw [Nat.add_zero, codePoint?, if_pos hvalid] at hcode
    have hsizes : (k = 'u' ∧ s.length = 4) ∨ (k = 'U' ∧ s.length = 8) := by
      simpa [codeSizes] using hk
    obtain ⟨rfl, hlength⟩ | ⟨rfl, hlength⟩ := hsizes
    · rw [hlength] at hcode
      exact hcode
    · rw [hlength] at hcode
      exact hcode

/-- The backslash of an escape does not stand at the end of a line. -/
theorem Grammar.Escape.head {e : List Char} {c : Char} (h : Escape e c) :
    ∃ k t, e = k :: t ∧ (Text.isPad k || Text.isLineEnd k) = false := by
  cases h with
  | @short k c hk =>
    have hall : ∀ e ∈ shortEscapes, (Text.isPad e.1 || Text.isLineEnd e.1) = false := by decide
    exact ⟨k, [], rfl, hall (k, c) hk⟩
  | @code k s n hk _ _ _ =>
    have hall : ∀ e ∈ codeSizes, (Text.isPad e.1 || Text.isLineEnd e.1) = false := by decide
    exact ⟨k, s, rfl, hall (k, s.length) hk⟩

/-! ### Quotes -/

section Quote

variable {quote : Char} {escapes : Bool}

theorem quoteStyle?_of_mem (h : (quote, escapes) ∈ quotes) : quoteStyle? quote = some escapes := by
  have hall : ∀ q ∈ quotes, quoteStyle? q.1 = some q.2 := by decide
  exact hall _ h

/-- A quote is no backslash and no part of a line end. -/
theorem ne_quote_of_mem (h : (quote, escapes) ∈ quotes) :
    '\\' ≠ quote ∧ '\n' ≠ quote ∧ '\r' ≠ quote := by
  have hall : ∀ q ∈ quotes, '\\' ≠ q.1 ∧ '\n' ≠ q.1 ∧ '\r' ≠ q.1 := by decide
  exact hall _ h

theorem not_blank_of_mem (h : (quote, escapes) ∈ quotes) :
    Text.isPad quote = false ∧ Text.isLineEnd quote = false := by
  have hall : ∀ q ∈ quotes, Text.isPad q.1 = false ∧ Text.isLineEnd q.1 = false := by decide
  exact hall _ h

theorem not_slash_of_stands {c : Char} (h : Stands escapes quote c) :
    (c == '\\' && escapes) = false := by
  cases escapes with
  | false => simp
  | true => simpa using h.2.1 rfl

end Quote

/-! ### Strings on one line -/

/-- A string on one line is read up to its closing quote. -/
theorem line?_of_oneLine {quote : Char} {escapes : Bool} (hquote : (quote, escapes) ∈ quotes)
    {t s : List Char} (h : OneLine escapes quote t s) (rest : List Char) :
    ∀ (done : List Char) (fuel : Nat), t.length < fuel →
      line? escapes quote done fuel (t ++ quote :: rest) = some (done.reverse ++ s, rest) := by
  have hslash := (ne_quote_of_mem hquote).1
  induction h with
  | nil =>
    rintro done (_ | fuel) hfuel
    · exact absurd hfuel (Nat.not_lt_zero _)
    · simp [line?]
  | @plain c t s hc _ ih =>
    rintro done (_ | fuel) hfuel
    · exact absurd hfuel (Nat.not_lt_zero _)
    · have hnext := ih (c :: done) fuel (by simpa using hfuel)
      simp [line?, hc.1, not_slash_of_stands hc, hc.2.2, hnext]
  | @escape e c t s hescapes he _ ih =>
    subst hescapes
    rintro done (_ | fuel) hfuel
    · exact absurd hfuel (Nat.not_lt_zero _)
    · have hshort : t.length < fuel := by
        simp only [List.length_cons, List.length_append] at hfuel
        omega
      have hread := escape?_of_escape he (t ++ quote :: rest)
      simp [line?, hslash, hread, ih (c :: done) fuel hshort]

/-! ### Strings on several lines -/

section Lines

variable {escapes : Bool} {quote : Char} {done rest : List Char} {fuel : Nat}

/-- A character that stands for itself. -/
theorem lines?_plain {c : Char} (hquote : c ≠ quote) (hslash : (c == '\\' && escapes) = false)
    (hplain : c = '\n' ∨ isForbidden c = false) :
    lines? escapes quote done (fuel + 1) (c :: rest) =
      lines? escapes quote (c :: done) fuel rest := by
  rw [lines?]
  obtain rfl | hplain := hplain <;> simp_all

/-- A line end stands for itself, be it one character or two. -/
theorem lines?_feed {e : List Char} (he : e ∈ lineEnds) (hquote : (quote, escapes) ∈ quotes) :
    lines? escapes quote done (fuel + e.length) (e ++ rest) =
      lines? escapes quote (e.reverse ++ done) fuel rest := by
  obtain ⟨-, hfeed, hreturn⟩ := ne_quote_of_mem hquote
  obtain rfl | rfl := mem_lineEnds.mp he
  · exact lines?_plain hfeed rfl (.inl rfl)
  · refine Eq.trans ?_ (lines?_plain hfeed rfl (.inl rfl))
    simp [lines?, hreturn]

/-- An escape. -/
theorem lines?_escape {c : Char} {e : List Char} (hquote : '\\' ≠ quote) (he : Escape e c) :
    lines? true quote done (fuel + 1) ('\\' :: (e ++ rest)) =
      lines? true quote (c :: done) fuel rest := by
  have hread := escape?_of_escape he rest
  obtain ⟨k, t, rfl, hk⟩ := he.head
  rw [List.cons_append] at hread ⊢
  rw [lines?]
  simp [hquote, hk, hread]

/-- Up to two quotes before the closing ones belong to the string. -/
theorem lines?_close (hrest : rest.head? ≠ some quote) {k : Nat} (hk : k ≤ 2) :
    lines? escapes quote done (fuel + 1)
        (List.replicate k quote ++ (List.replicate 3 quote ++ rest)) =
      some (done.reverse ++ List.replicate k quote, rest) := by
  have hstop : rest.takeWhile (· == quote) = [] := by
    cases rest with
    | nil => rfl
    | cons c rest =>
      have hc : c ≠ quote := by simpa using hrest
      simp [hc]
  have hrun : ((List.replicate (k + 2) quote ++ rest).takeWhile (· == quote)).length = k + 2 := by
    simp [List.takeWhile_append_of_pos, hstop]
  rw [← List.append_assoc, List.replicate_append_replicate,
    show k + 3 = k + 2 + 1 from rfl, List.replicate_succ, List.cons_append, lines?]
  simp only [beq_self_eq_true, if_true, hrun, closing?]
  rw [if_neg (by omega), show min (k + 2 + 1 - 3) 2 = k by omega]
  simp

/-- Quotes of a run that another character ends are part of the string, if they are too few. -/
theorem lines?_quote {w : List Char} (hshort : (w.takeWhile (· == quote)).length < 2)
    (hmore : ∃ c ∈ w, c ≠ quote) :
    lines? escapes quote done (fuel + 1) (quote :: (w ++ rest)) =
      lines? escapes quote (quote :: done) fuel (w ++ rest) := by
  have hrun : (w ++ rest).takeWhile (· == quote) = w.takeWhile (· == quote) := by
    rw [List.takeWhile_append, if_neg]
    intro hlength
    obtain ⟨c, hc, hne⟩ := hmore
    rw [← (List.takeWhile_prefix (· == quote)).eq_of_length hlength] at hc
    exact hne (by simpa using List.mem_takeWhile_imp hc)
  rw [lines?]
  simp only [beq_self_eq_true, if_true, hrun, closing?]
  rw [if_pos (by omega)]

end Lines

/-- Blanks are passed over behind a line end, up to what is none. -/
theorem skipFold_blanks {b : List Char} (hb : Blanks b) {rest : List Char} (hrest : NoBlank rest) :
    skipFold true (b ++ rest) = some rest := by
  induction hb with
  | nil =>
    cases rest with
    | nil => rfl
    | cons c rest =>
      obtain ⟨hpad, hend⟩ := hrest c rfl
      obtain ⟨hfeed, hreturn⟩ : c ≠ '\n' ∧ c ≠ '\r' := by simpa [Text.isLineEnd] using hend
      rw [List.nil_append, skipFold]
      · simp [hpad]
      · rintro r rfl
        exact absurd rfl hreturn
      · rintro rfl
        exact absurd rfl hfeed
  | @pad c s hc _ ih =>
    obtain rfl | rfl := Text.isPad_iff.mp hc
    · simpa [skipFold, hc] using ih
    · simpa [skipFold, hc] using ih
  | @feed e s he _ ih =>
    obtain rfl | rfl := mem_lineEnds.mp he
    · exact ih
    · exact ih

theorem Grammar.Pads.of_cons {c : Char} {s : List Char} (h : Pads (c :: s)) :
    Text.isPad c = true ∧ Pads s := List.forall_mem_cons.mp h

/-- Up to the end of the line only blanks stand behind a backslash that says nothing. -/
theorem skipFold_pads {e t : List Char} (he : e ∈ lineEnds) {rest : List Char}
    (ht : skipFold true t = some rest) : ∀ {pads : List Char}, Pads pads →
    skipFold false (pads ++ (e ++ t)) = some rest
  | [], _ => by
    obtain rfl | rfl := mem_lineEnds.mp he
    · exact ht
    · exact ht
  | c :: pads, hpads => by
    obtain ⟨hc, hpads⟩ := Pads.of_cons hpads
    have ih := skipFold_pads he ht hpads
    obtain rfl | rfl := Text.isPad_iff.mp hc
    · simpa [skipFold, hc] using ih
    · simpa [skipFold, hc] using ih

/-- A backslash at the end of a line says nothing. -/
theorem lines?_fold {quote : Char} {done rest : List Char} {fuel : Nat} (hquote : '\\' ≠ quote)
    {pads e blanks : List Char} (hpads : Pads pads) (he : e ∈ lineEnds) (hblanks : Blanks blanks)
    (hrest : NoBlank rest) :
    lines? true quote done (fuel + 1) ('\\' :: (pads ++ (e ++ (blanks ++ rest)))) =
      lines? true quote done fuel rest := by
  have hskip := skipFold_pads he (skipFold_blanks hblanks hrest) hpads
  have hhead : (pads ++ (e ++ (blanks ++ rest))).head?.any
      (fun d => Text.isPad d || Text.isLineEnd d) = true := by
    cases pads with
    | nil =>
      obtain rfl | rfl := mem_lineEnds.mp he
      · rfl
      · rfl
    | cons c pads =>
      have hc : Text.isPad c = true := hpads c List.mem_cons_self
      simp [hc]
  generalize pads ++ (e ++ (blanks ++ rest)) = w at hskip hhead
  rw [lines?]
  simp [hquote, hhead, hskip]

namespace Grammar

variable {escapes : Bool} {quote : Char} {run : Nat} {t s : List Char}

/-- A line end does not start with a quote. -/
theorem ne_quote_of_lineEnd (hquote : (quote, escapes) ∈ quotes) {e : List Char}
    (he : e ∈ lineEnds) : ∃ c r, e = c :: r ∧ c ≠ quote ∧ Text.isLineEnd c = true := by
  obtain ⟨-, hfeed, hreturn⟩ := ne_quote_of_mem hquote
  obtain rfl | rfl := mem_lineEnds.mp he
  · exact ⟨'\n', [], rfl, hfeed, rfl⟩
  · exact ⟨'\r', ['\n'], rfl, hreturn, rfl⟩

/-- Never more than two quotes in a row are spelled, those before counted. -/
theorem ManyLines.run_le (hquote : (quote, escapes) ∈ quotes)
    (h : ManyLines keeps escapes quote run t s) (hrun : run ≤ 2) :
    (t.takeWhile (· == quote)).length + run ≤ 2 := by
  have hslash := (ne_quote_of_mem hquote).1
  induction h with
  | nil => simpa using hrun
  | @quote run t s hfew _ ih =>
    have := ih (by omega)
    simp only [List.takeWhile_cons, beq_self_eq_true, if_true, List.length_cons]
    omega
  | plain hc => simpa [hc.1] using hrun
  | feed he _ _ =>
    obtain ⟨c, r, rfl, hc, -⟩ := ne_quote_of_lineEnd hquote he
    simpa [hc] using hrun
  | escape => simpa [hslash] using hrun
  | fold => simpa [hslash] using hrun

/-- Where only quotes are spelled, they are the string. -/
theorem ManyLines.eq_of_quotes (hquote : (quote, escapes) ∈ quotes)
    (h : ManyLines keeps escapes quote run t s) (hall : ∀ c ∈ t, c = quote) : t = s := by
  have hslash := (ne_quote_of_mem hquote).1
  induction h with
  | nil => rfl
  | quote _ _ ih => rw [ih fun c hc => hall c (List.mem_cons_of_mem _ hc)]
  | plain hc => exact absurd (hall _ List.mem_cons_self) hc.1
  | feed he _ _ =>
    obtain ⟨c, r, rfl, hc, -⟩ := ne_quote_of_lineEnd hquote he
    exact absurd (hall c (by simp)) hc
  | escape => exact absurd (hall _ List.mem_cons_self) hslash
  | fold => exact absurd (hall _ List.mem_cons_self) hslash

end Grammar

/-- A string on several lines is read up to its closing quotes. -/
theorem lines?_of_manyLines {quote : Char} {escapes : Bool} (hquote : (quote, escapes) ∈ quotes)
    {run : Nat} {t s rest : List Char} (hrest : rest.head? ≠ some quote)
    (h : ManyLines keeps escapes quote run t s) (hrun : run ≤ 2) :
    ∀ (done : List Char) (fuel : Nat), t.length < fuel →
      lines? escapes quote done fuel (t ++ (List.replicate 3 quote ++ rest)) =
        some (done.reverse ++ s, rest) := by
  have hslash := (ne_quote_of_mem hquote).1
  induction h with
  | nil =>
    rintro done (_ | fuel) hfuel
    · exact absurd hfuel (Nat.not_lt_zero _)
    · exact lines?_close hrest (Nat.zero_le 2)
  | @quote run t s hfew h ih =>
    rintro done (_ | fuel) hfuel
    · exact absurd hfuel (Nat.not_lt_zero _)
    have hshort := h.run_le hquote (by omega)
    by_cases hall : ∀ c ∈ t, c = quote
    · -- only quotes are left, and the closing ones follow them
      obtain rfl := h.eq_of_quotes hquote hall
      rw [List.takeWhile_eq_self_iff.mpr (by simpa using hall)] at hshort
      have ht : quote :: t = List.replicate (t.length + 1) quote := by
        rw [List.replicate_succ, ← List.eq_replicate_of_mem hall]
      rw [ht]
      exact lines?_close hrest (by omega)
    · have hmore : ∃ c ∈ t, c ≠ quote := by simpa using hall
      rw [List.cons_append, lines?_quote (by omega) hmore,
        ih (by omega) (quote :: done) fuel (by simpa using hfuel)]
      simp
  | @plain run c t s hc _ ih =>
    rintro done (_ | fuel) hfuel
    · exact absurd hfuel (Nat.not_lt_zero _)
    rw [List.cons_append, lines?_plain hc.1 (not_slash_of_stands hc) (.inr hc.2.2),
      ih (Nat.zero_le 2) (c :: done) fuel (by simpa using hfuel)]
    simp
  | @feed run e t s he _ _ ih =>
    intro done fuel hfuel
    rw [List.length_append] at hfuel
    obtain ⟨fuel, rfl⟩ := Nat.exists_eq_add_of_le' (show e.length ≤ fuel by omega)
    rw [List.append_assoc, lines?_feed he hquote,
      ih (Nat.zero_le 2) (e.reverse ++ done) fuel (by omega)]
    simp
  | @escape run e c t s hescapes he _ ih =>
    subst hescapes
    rintro done (_ | fuel) hfuel
    · exact absurd hfuel (Nat.not_lt_zero _)
    have hshort : t.length < fuel := by
      simp only [List.length_cons, List.length_append] at hfuel
      omega
    rw [List.cons_append, List.append_assoc, lines?_escape hslash he,
      ih (Nat.zero_le 2) (c :: done) fuel hshort]
    simp
  | @fold run pads e blanks t s hescapes hpads he hblanks ht _ ih =>
    subst hescapes
    rintro done (_ | fuel) hfuel
    · exact absurd hfuel (Nat.not_lt_zero _)
    have hshort : t.length < fuel := by
      simp only [List.length_cons, List.length_append] at hfuel
      omega
    have hnoBlank : NoBlank (t ++ (List.replicate 3 quote ++ rest)) := by
      cases t with
      | nil =>
        rintro c ⟨⟩
        exact not_blank_of_mem hquote
      | cons c t => exact ht
    simp only [List.cons_append, List.append_assoc]
    rw [lines?_fold hslash hpads he hblanks hnoBlank, ih (Nat.zero_le 2) done fuel hshort]

/-! ### Strings of every form -/

theorem dropFirstLineEnd_eq_self {s : List Char} (h : ∀ c ∈ s.head?, Text.isLineEnd c = false) :
    dropFirstLineEnd s = s := by
  match s, h with
  | [], _ => rfl
  | c :: s, h =>
    have hc : c ≠ '\n' ∧ c ≠ '\r' := by simpa [Text.isLineEnd] using h c rfl
    unfold dropFirstLineEnd
    split
    · simp_all
    · simp_all
    · rfl

/-- What triple quotes open is read as several lines, without the line end in front. -/
theorem string?_lines {escapes : Bool} {quote : Char} (hquote : quoteStyle? quote = some escapes)
    {start w s rest : List Char} (hinner : dropFirstLineEnd (start ++ w) = w)
    (hw : lines? escapes quote [] (w.length + 1) w = some (s, rest)) :
    string? (List.replicate 3 quote ++ (start ++ w)) = some (String.ofList s, rest) := by
  have hescapes : (quote == '"') = escapes := by
    unfold quoteStyle? at hquote
    grind
  simp only [List.replicate, List.cons_append, List.nil_append, string?, hquote, hinner, hescapes]
  simp [hw]

/-- What is not opened by triple quotes is read as one line. -/
theorem string?_line {quote : Char} {w : List Char} (hfew : ∀ t, w ≠ quote :: quote :: t) :
    string? (quote :: w) = lineString? (quote :: w) := by
  match w, hfew with
  | [], _ | [_], _ => rfl
  | b :: c :: w, hfew =>
    have hne : ¬ (quote = b ∧ b = c) := by
      rintro ⟨rfl, rfl⟩
      exact hfew w rfl
    rw [string?, if_neg (by simpa using fun _ => hne)]

/-- A string on one line. -/
theorem lineString?_of_oneLine {quote : Char} {escapes : Bool} (hquote : (quote, escapes) ∈ quotes)
    {t s : List Char} (h : OneLine escapes quote t s) (rest : List Char) :
    lineString? (quote :: (t ++ quote :: rest)) = some (String.ofList s, rest) := by
  have hlength : t.length < (t ++ quote :: rest).length + 1 := by
    rw [List.length_append]
    omega
  have hread := line?_of_oneLine hquote h rest [] _ hlength
  simp only [lineString?, quoteStyle?_of_mem hquote, hread]
  rfl

/-- **A spelled string is read**, in whatever form it is spelled, and what stands behind it is
left. -/
theorem string?_of_quoted {t s : List Char} (h : Quoted keeps t s) {rest : List Char}
    (hrest : ∀ c ∈ rest.head?, quoteStyle? c = none) :
    string? (t ++ rest) = some (String.ofList s, rest) := by
  cases h with
  | @line quote escapes t s hquote h =>
    have hstyle := quoteStyle?_of_mem hquote
    have hfew : ∀ u, t ++ quote :: rest ≠ quote :: quote :: u := by
      intro u heq
      cases h with
      | nil =>
        obtain ⟨-, rfl⟩ := List.cons.inj heq
        exact absurd (hrest quote rfl) (by simp [hstyle])
      | plain hc => exact hc.1 (List.cons.inj heq).1
      | escape => exact (ne_quote_of_mem hquote).1 (List.cons.inj heq).1
    rw [List.cons_append, List.append_assoc, List.singleton_append, string?_line hfew]
    exact lineString?_of_oneLine hquote h rest
  | @lines quote escapes start t s hquote hstart h =>
    have hstyle := quoteStyle?_of_mem hquote
    have hstop : rest.head? ≠ some quote := fun hhead =>
      absurd (hrest quote hhead) (by simp [hstyle])
    have hlength : t.length < (t ++ (List.replicate 3 quote ++ rest)).length + 1 := by
      rw [List.length_append]
      omega
    have hread := lines?_of_manyLines hquote hstop h (Nat.zero_le 2) [] _ hlength
    have hinner : dropFirstLineEnd (start ++ (t ++ (List.replicate 3 quote ++ rest))) =
        t ++ (List.replicate 3 quote ++ rest) := by
      obtain hstart | ⟨rfl, hhead⟩ := hstart
      · obtain rfl | rfl := mem_lineEnds.mp hstart
        · rfl
        · rfl
      · refine dropFirstLineEnd_eq_self ?_
        cases t with
        | nil =>
          rintro c ⟨⟩
          exact (not_blank_of_mem hquote).2
        | cons c t => exact hhead
    simp only [List.append_assoc]
    exact string?_lines hstyle hinner hread

end Toml
end MarkdownHtml
