/-
# Spelled integers are read

An integer that is spelled with a sign or in another base, with its digits in groups or not, is
read as that integer (`Toml.scalar?_of_integer`). Digits are read from the left and are spelled from
the left, so the reader that has passed the digits of a spelling stands at their number
(`Toml.digitsFrom_digits`). The reader tries other kinds of values first; dates and times have a
dash or a colon where no integer has one.

Key theorems: `Toml.digitsFrom_digits`, `Toml.magnitude?_of_decimal`, `Toml.integer?_of_integer`,
`Toml.scalar?_of_integer`.
-/
import MarkdownHtml.Proofs.TomlStrings

namespace MarkdownHtml
namespace Toml

open Grammar

/-! ### Digits -/

namespace Grammar

variable {base d n : Nat} {c : Char} {s : List Char}

theorem IsDigit.digit? (hbase : base ≤ 16) (h : IsDigit base c d) : Toml.digit? base c = some d := by
  have hwide : Toml.digit? 16 c = some d :=
    h.holds hbase (P := fun c d => Toml.digit? 16 c = some d) (by decide)
  have hd : d < base := h.1
  unfold Toml.digit? at hwide ⊢
  obtain ⟨-, hvalue⟩ := Option.ite_none_right_eq_some.mp hwide
  rw [Option.some.inj hvalue, if_pos hd]

theorem IsDigit.isDigit (h : IsDigit 10 c d) : c.isDigit = true := by
  obtain ⟨hd, hc⟩ := h
  have hall : ∀ d < 10, d.digitChar.isDigit = true ∧ d.digitChar.toUpper.isDigit = true := by decide
  obtain rfl | rfl := hc
  · exact (hall d hd).1
  · exact (hall d hd).2

theorem IsDigit.ne_underscore (hbase : base ≤ 16) (h : IsDigit base c d) : c ≠ '_' := by
  rintro rfl
  exact absurd (h.isAlphanum hbase) (by decide)

/-- What holds of digits and of the underscore holds of all characters. -/
theorem Digits.forall_mem {P : Char → Prop} (h : Digits base s n)
    (hdigit : ∀ c d, IsDigit base c d → P c) (hgroup : P '_') : ∀ c ∈ s, P c := by
  induction h with
  | one hc => simpa using hdigit _ _ hc
  | next _ hc ih => simpa [or_imp, forall_and] using ⟨ih, hdigit _ _ hc⟩
  | group _ hc ih => simpa [or_imp, forall_and] using ⟨ih, hgroup, hdigit _ _ hc⟩

theorem Digits.head (h : Digits base s n) : ∃ c t d, s = c :: t ∧ IsDigit base c d := by
  induction h with
  | one hc => exact ⟨_, [], _, rfl, hc⟩
  | @next s n c d _ _ ih =>
    obtain ⟨first, t, e, rfl, hfirst⟩ := ih
    exact ⟨first, t ++ [c], e, rfl, hfirst⟩
  | @group s n c d _ _ ih =>
    obtain ⟨first, t, e, rfl, hfirst⟩ := ih
    exact ⟨first, t ++ ['_', c], e, rfl, hfirst⟩

/-- Underscores do not matter to the number. -/
theorem Digits.filter (hbase : base ≤ 16) (h : Digits base s n) :
    Digits base (s.filter (· != '_')) n := by
  induction h with
  | one hc => simpa [hc.ne_underscore hbase] using Digits.one hc
  | next _ hc ih => simpa [hc.ne_underscore hbase] using ih.next hc
  | group _ hc ih => simpa [hc.ne_underscore hbase] using ih.next hc

end Grammar

section Digits

variable {base d n : Nat} {c : Char} {s : List Char}

theorem digitsFrom_cons (hbase : base ≤ 16) (hc : IsDigit base c d) (value : Nat)
    (rest : List Char) :
    digitsFrom base value (c :: rest) = digitsFrom base (base * value + d) rest := by
  have hne : c ≠ '_' := hc.ne_underscore hbase
  rw [digitsFrom, hc.digit? hbase]
  grind

theorem digitsFrom_group (hbase : base ≤ 16) (hc : IsDigit base c d) (value : Nat)
    (rest : List Char) :
    digitsFrom base value ('_' :: c :: rest) = digitsFrom base (base * value + d) rest := by
  rw [digitsFrom, hc.digit? hbase]

/-- Behind digits the reader stands at their number. -/
theorem digitsFrom_digits (hbase : base ≤ 16) (h : Digits base s n) :
    ∀ rest, digitsFrom base 0 (s ++ rest) = digitsFrom base n rest := by
  induction h with
  | one hc =>
    intro rest
    rw [List.singleton_append, digitsFrom_cons hbase hc, Nat.mul_zero, Nat.zero_add]
  | next _ hc ih =>
    intro rest
    rw [List.append_assoc, ih, List.singleton_append, digitsFrom_cons hbase hc]
  | group _ hc ih =>
    intro rest
    rw [List.append_assoc, ih]
    exact digitsFrom_group hbase hc _ rest

theorem digits?_of_digits (hbase : base ≤ 16) (h : Digits base s n) : digits? base s = some n := by
  have hread : digitsFrom base 0 s = some n := by
    have hfrom := digitsFrom_digits hbase h []
    rwa [List.append_nil] at hfrom
  obtain ⟨c, t, d, rfl, hc⟩ := h.head
  have hne : c ≠ '_' := hc.ne_underscore hbase
  rw [digits?, hread]
  · simp
  · rintro r heq
    exact hne (List.cons.inj heq).1

/-- A decimal number is read whether its digits stand in groups or not. -/
theorem magnitude?_of_decimal (h : DecimalDigits s n) : magnitude? s = some (some n) := by
  obtain ⟨hdigits, hzero⟩ := h
  unfold magnitude?
  split_ifs
  · rw [digits?_of_digits (by decide) (hdigits.filter (by decide))]
  · have hdecimal : decimal? s = digits? 10 s := by
      unfold decimal?
      split
      · exact absurd (hzero rfl) (by simp)
      · rfl
    rw [hdecimal, digits?_of_digits (by decide) hdigits]
    rfl

end Digits

/-! ### Integers -/

/-- The characters of decimal numbers are digits and underscores. -/
theorem Grammar.DecimalDigits.not_mem {s : List Char} {n : Nat} (h : DecimalDigits s n) {c : Char}
    (hdigit : c.isDigit = false) (hgroup : c ≠ '_') : c ∉ s := by
  intro hmem
  refine h.1.forall_mem (P := fun d => d ≠ c) ?_ (Ne.symm hgroup) c hmem rfl
  rintro d e hd rfl
  exact absurd hd.isDigit (by simp [hdigit])

/-- An integer is read as what it spells. -/
theorem integer?_of_integer {t : List Char} {n : Int} (h : Integer t n) :
    integer? t = some (some n) := by
  cases h with
  | @unsigned s n h =>
    have hsign : sign t = (false, t) := by
      unfold sign
      split
      · exact absurd (by simp) (h.not_mem (c := '+') rfl (by decide))
      · exact absurd (by simp) (h.not_mem (c := '-') rfl (by decide))
      · rfl
    unfold integer?
    split
    · exact absurd (by simp) (h.not_mem (c := 'x') rfl (by decide))
    · exact absurd (by simp) (h.not_mem (c := 'o') rfl (by decide))
    · exact absurd (by simp) (h.not_mem (c := 'b') rfl (by decide))
    · simp only [hsign, magnitude?_of_decimal h]
      rfl
  | @positive s n h =>
    have hread := magnitude?_of_decimal h
    simp [integer?, sign, hread, signed]
  | @negative s n h =>
    have hread := magnitude?_of_decimal h
    simp [integer?, sign, hread, signed]
  | @based mark base s n hmark h =>
    have hmarks : (mark = 'x' ∧ base = 16) ∨ (mark = 'o' ∧ base = 8) ∨ (mark = 'b' ∧ base = 2) := by
      simpa [bases] using hmark
    have hne : s.isEmpty = false := by
      obtain ⟨c, t, d, rfl, -⟩ := h.head
      rfl
    obtain ⟨rfl, rfl⟩ | ⟨rfl, rfl⟩ | ⟨rfl, rfl⟩ := hmarks
    all_goals simp [integer?, based?, hne, digits?_of_digits (by decide) h]

namespace Grammar

variable {t : List Char} {n : Int}

/-- Behind its first character an integer has letters, digits and underscores. -/
theorem Integer.tail (h : Integer t n) : ∀ c ∈ t.drop 1, isKeyChar c = true ∧ c ≠ '-' := by
  have hdigits : ∀ {base s n}, base ≤ 16 → Digits base s n →
      ∀ c ∈ s, isKeyChar c = true ∧ c ≠ '-' := by
    intro base s n hbase h
    refine h.forall_mem (fun c d hc => ⟨?_, ?_⟩) ⟨rfl, by decide⟩
    · simp [isKeyChar, hc.isAlphanum hbase]
    · rintro rfl
      exact absurd (hc.isAlphanum hbase) (by decide)
  cases h with
  | unsigned h => exact fun c hc => hdigits (by decide) h.1 c (List.mem_of_mem_drop hc)
  | positive h => exact hdigits (by decide) h.1
  | negative h => exact hdigits (by decide) h.1
  | @based mark base s n hmark h =>
    have hall : ∀ m ∈ bases, m.2 ≤ 16 ∧ isKeyChar m.1 = true ∧ m.1 ≠ '-' := by decide
    obtain ⟨hbase, hfirst⟩ := hall _ hmark
    intro c hc
    obtain rfl | hc := List.mem_cons.mp hc
    · exact hfirst
    · exact hdigits hbase h c hc

/-- An integer starts with a sign or a digit. -/
theorem Integer.head (h : Integer t n) :
    ∃ c r, t = c :: r ∧ (c = '+' ∨ c = '-' ∨ c.isDigit = true) := by
  cases h with
  | unsigned h =>
    obtain ⟨c, r, d, rfl, hc⟩ := h.1.head
    exact ⟨c, r, rfl, .inr (.inr hc.isDigit)⟩
  | positive => exact ⟨'+', _, rfl, .inl rfl⟩
  | negative => exact ⟨'-', _, rfl, .inr (.inl rfl)⟩
  | based => exact ⟨'0', _, rfl, .inr (.inr rfl)⟩

end Grammar

/-- A text without a dash behind its first character and without a colon is no date and no
time. -/
theorem isDateTime_eq_false {s : List Char} (hdash : '-' ∉ s.drop 1) (hcolon : ':' ∉ s) :
    isDateTime s = false := by
  have hdate : afterDate? s = none := by
    unfold afterDate?
    split
    · exact absurd (by simp) hdash
    · rfl
  have htime : afterTime? s = none := by
    unfold afterTime?
    split
    · exact absurd (by simp) hcolon
    · rfl
  simp [isDateTime, hdate, htime]

/-- **A spelled integer is read.** -/
theorem scalar?_of_integer {t : List Char} {n : Int} (h : Integer t n) :
    scalar? t = some (.integer (some n)) := by
  have hdash : '-' ∉ t.drop 1 := fun hmem => (h.tail '-' hmem).2 rfl
  obtain ⟨c, r, rfl, hc⟩ := h.head
  have hcolon : ':' ∉ c :: r := by
    intro hmem
    obtain rfl | hmem := List.mem_cons.mp hmem
    · exact absurd hc (by decide)
    · exact absurd (h.tail ':' hmem).1 (by decide)
  have htrue : c ≠ 't' := by
    rintro rfl
    exact absurd hc (by decide)
  have hfalse : c ≠ 'f' := by
    rintro rfl
    exact absurd hc (by decide)
  unfold scalar?
  rw [if_neg (by simp [htrue]), if_neg (by simp [hfalse]), isDateTime_eq_false hdash hcolon,
    integer?_of_integer h]
  rfl

end Toml
end MarkdownHtml
