/-
# Percent-encoding is a normal form

Some bytes do not stand in an address as they are (`Url.Plain` tells which do), and are written
as `%` and two digits. What is written needs no further encoding, and an address that needs none
is written as it is (`Url.percentEncode_eq_self_iff`).

A `%` that is there already passes through, also where no two digits follow it, and a code that
is written next to it must not turn into one with it. It does not: a byte that is encoded is no
digit, and neither is the `%` written for it, so a `%` stands before two digits in what is
written exactly where it stood before two digits (`Url.startsCode_written`). Reading codes
therefore gives the same bytes before and after (`Url.percentDecode_written`).

Key definitions: `Url.Plain`, `Url.percentDecode`, `Url.written`.
Key theorems: `Url.encode_percentEncode`, `Url.startsCode_written`, `Url.percentDecode_written`,
`Url.percentEncode_normal`.
-/
import MarkdownHtml.Proofs.Addresses
import MarkdownHtml.Proofs.ByteInput

namespace MarkdownHtml
namespace Url

/-- Bytes that stand in an address as they are: visible ASCII but for the backslash, the angle
brackets, the double quote and the backtick. -/
def Plain (b : UInt8) : Prop :=
  0x20 < b.toNat ∧ b.toNat < 0x7F ∧ b ∉ [0x5C, 0x3C, 0x3E, 0x22, (0x60 : UInt8)]

instance (b : UInt8) : Decidable (Plain b) := inferInstanceAs (Decidable (_ ∧ _ ∧ _))

/-- The value of a hexadecimal digit, in upper or lower case. -/
def hexValue? (b : UInt8) : Option Nat :=
  let n := b.toNat
  if 0x30 ≤ n ∧ n ≤ 0x39 then some (n - 0x30)
  else if 0x41 ≤ n ∧ n ≤ 0x46 then some (n - 0x37)
  else if 0x61 ≤ n ∧ n ≤ 0x66 then some (n - 0x57)
  else none

/-- Reads percent codes: from left to right, every `%` in front of two hexadecimal digits is
replaced, with them, by the byte they write. -/
def percentDecode : List UInt8 → List UInt8
  | a :: hi :: lo :: rest =>
    if a = 0x25 then
      match hexValue? hi, hexValue? lo with
      | some x, some y => UInt8.ofNat (16 * x + y) :: percentDecode rest
      | _, _ => a :: percentDecode (hi :: lo :: rest)
    else a :: percentDecode (hi :: lo :: rest)
  | short => short

/-- Whether two hexadecimal digits stand in front. -/
def startsCode : List UInt8 → Bool
  | hi :: lo :: _ => (hexValue? hi).isSome && (hexValue? lo).isSome
  | _ => false

/-- The bytes that are written for a byte of an address. -/
def written (b : UInt8) : List UInt8 := (encodeByte b).map fun c => UInt8.ofNat c.toNat

/-! ### What is written for one byte -/

theorem needsEncoding_eq_false_iff (b : UInt8) : needsEncoding b = false ↔ Plain b := by
  simp only [needsEncoding, Plain, List.mem_cons, List.not_mem_nil, or_false, not_or,
    ← UInt8.toNat_inj, Bool.or_eq_false_iff, beq_eq_false_iff_ne, decide_eq_false_iff_not]
  simp only [UInt8.reduceToNat]
  omega

theorem written_of_plain {b : UInt8} (h : Plain b) : written b = [b] := by
  have hb : (Char.ofNat b.toNat).toNat = b.toNat := Browser.toNat_ofNat (Nat.lt_succ_of_lt h.2.1)
  rw [written, encodeByte, (needsEncoding_eq_false_iff b).mpr h]
  simp [hb]

theorem hexValue?_hexDigit : ∀ n < 16, hexValue? (UInt8.ofNat (hexDigit n).toNat) = some n := by
  decide

/-- A byte that is not plain is written as a code for it. -/
theorem exists_code_of_not_plain {b : UInt8} (h : ¬ Plain b) :
    ∃ hi lo, written b = [0x25, hi, lo] ∧ hexValue? hi = some (b.toNat / 16) ∧
      hexValue? lo = some (b.toNat % 16) := by
  have hneeds : needsEncoding b = true := by
    rw [← needsEncoding_eq_false_iff] at h
    simpa using h
  have hb : b.toNat < 256 := UInt8.toNat_lt_size b
  refine ⟨_, _, ?_, hexValue?_hexDigit _ (by omega), hexValue?_hexDigit _ (by omega)⟩
  rw [written, encodeByte, if_pos hneeds]
  rfl

theorem plain_of_hexValue? {b : UInt8} {n : Nat} (h : hexValue? b = some n) : Plain b := by
  rw [← needsEncoding_eq_false_iff]
  simp only [needsEncoding, Bool.or_eq_false_iff, beq_eq_false_iff_ne, decide_eq_false_iff_not]
  unfold hexValue? at h
  dsimp only at h
  split_ifs at h
  all_goals omega

theorem plain_percent : Plain 0x25 := by decide

theorem plain_written (b : UInt8) : ∀ c ∈ written b, Plain c := by
  intro c hc
  by_cases h : Plain b
  · rw [written_of_plain h, List.mem_singleton] at hc
    rwa [hc]
  · obtain ⟨hi, lo, hw, hhi, hlo⟩ := exists_code_of_not_plain h
    rw [hw] at hc
    simp only [List.mem_cons, List.not_mem_nil, or_false] at hc
    rcases hc with rfl | rfl | rfl
    · exact plain_percent
    · exact plain_of_hexValue? hhi
    · exact plain_of_hexValue? hlo

/-! ### Reading codes -/

theorem percentDecode_cons_of_ne {a : UInt8} (h : a ≠ 0x25) (s : List UInt8) :
    percentDecode (a :: s) = a :: percentDecode s := by
  rcases s with _ | ⟨hi, _ | ⟨lo, rest⟩⟩
  · rfl
  · rfl
  · rw [percentDecode, if_neg h]

/-- A `%` without two digits behind it stays. -/
theorem percentDecode_percent {s : List UInt8} (h : startsCode s = false) :
    percentDecode (0x25 :: s) = 0x25 :: percentDecode s := by
  rcases s with _ | ⟨hi, _ | ⟨lo, rest⟩⟩
  · rfl
  · rfl
  · rw [percentDecode, if_pos rfl]
    cases hhi : hexValue? hi with
    | none => rfl
    | some x =>
      cases hlo : hexValue? lo with
      | none => rfl
      | some y => simp [startsCode, hhi, hlo] at h

theorem percentDecode_code {hi lo : UInt8} {x y : Nat} (hhi : hexValue? hi = some x)
    (hlo : hexValue? lo = some y) (rest : List UInt8) :
    percentDecode (0x25 :: hi :: lo :: rest) = UInt8.ofNat (16 * x + y) :: percentDecode rest := by
  rw [percentDecode, if_pos rfl, hhi, hlo]

theorem startsCode_percent (s : List UInt8) : startsCode (0x25 :: s) = false := by
  cases s with
  | nil => rfl
  | cons b s => rfl

/-- Reading passes over what is written for a byte that is no `%`. -/
theorem percentDecode_written_append {b : UInt8} (h : b ≠ 0x25) (s : List UInt8) :
    percentDecode (written b ++ s) = b :: percentDecode s := by
  by_cases hb : Plain b
  · rw [written_of_plain hb, List.singleton_append, percentDecode_cons_of_ne h]
  · obtain ⟨hi, lo, hw, hhi, hlo⟩ := exists_code_of_not_plain hb
    have hvalue : 16 * (b.toNat / 16) + b.toNat % 16 = b.toNat := by omega
    rw [hw, List.cons_append, List.cons_append, List.cons_append, List.nil_append,
      percentDecode_code hhi hlo, hvalue, UInt8.ofNat_toNat]

/-! ### Codes of an address and of what is written for it -/

theorem startsCode_cons (b : UInt8) (s : List UInt8) :
    startsCode (b :: s) =
      ((hexValue? b).isSome && (s.head?.any fun c => (hexValue? c).isSome)) := by
  cases s with
  | nil => simp [startsCode]
  | cons c s => rfl

/-- Whether a digit comes first does not change. -/
theorem head?_written (s : List UInt8) :
    ((s.flatMap written).head?.any fun c => (hexValue? c).isSome) =
      s.head?.any fun c => (hexValue? c).isSome := by
  cases s with
  | nil => rfl
  | cons b s =>
    rw [List.flatMap_cons]
    by_cases hb : Plain b
    · rw [written_of_plain hb]
      rfl
    · have hnone : hexValue? b = none := by
        cases hx : hexValue? b with
        | none => rfl
        | some x => exact absurd (plain_of_hexValue? hx) hb
      obtain ⟨hi, lo, hw, -, -⟩ := exists_code_of_not_plain hb
      rw [hw]
      simp only [List.cons_append, List.head?_cons, Option.any_some, hnone]
      rfl

/-- Two digits come first in what is written exactly if they do in the address. -/
theorem startsCode_written (s : List UInt8) :
    startsCode (s.flatMap written) = startsCode s := by
  cases s with
  | nil => rfl
  | cons b s =>
    by_cases hb : Plain b
    · rw [List.flatMap_cons, written_of_plain hb, List.singleton_append, startsCode_cons,
        startsCode_cons, head?_written]
    · obtain ⟨hi, lo, hw, -, -⟩ := exists_code_of_not_plain hb
      have hhead := head?_written (b :: s)
      rw [List.flatMap_cons, hw] at hhead ⊢
      have hnone : (hexValue? b).isSome = false := hhead.symm
      rw [startsCode_cons b, hnone]
      exact startsCode_percent _

/-- **Encoding keeps what is read.** The codes of what is written are those of the address and
those of the bytes that were encoded. -/
theorem percentDecode_written (s : List UInt8) :
    percentDecode (s.flatMap written) = percentDecode s := by
  induction hlength : s.length using Nat.strongRecOn generalizing s with
  | ind length ih =>
    cases s with
    | nil => rfl
    | cons a s =>
      have hrest : percentDecode (s.flatMap written) = percentDecode s :=
        ih s.length (by simp [← hlength]) s rfl
      rw [List.flatMap_cons]
      by_cases ha : a = 0x25
      · subst ha
        rw [written_of_plain plain_percent, List.singleton_append]
        by_cases hcode : startsCode s = true
        · -- a code of the address is written as it is
          rcases s with _ | ⟨hi, _ | ⟨lo, s⟩⟩
          · exact absurd hcode (by simp [startsCode])
          · exact absurd hcode (by simp [startsCode])
          · obtain ⟨hhi, hlo⟩ := Bool.and_eq_true_iff.mp hcode
            obtain ⟨x, hx⟩ := Option.isSome_iff_exists.mp hhi
            obtain ⟨y, hy⟩ := Option.isSome_iff_exists.mp hlo
            rw [List.flatMap_cons, List.flatMap_cons, written_of_plain (plain_of_hexValue? hx),
              written_of_plain (plain_of_hexValue? hy), List.singleton_append,
              List.singleton_append, percentDecode_code hx hy, percentDecode_code hx hy]
            congr 1
            exact ih s.length (by simp only [List.length_cons] at hlength; omega) s rfl
        · have hnone : startsCode s = false := by simpa using hcode
          rw [percentDecode_percent hnone,
            percentDecode_percent ((startsCode_written s).trans hnone), hrest]
      · rw [percentDecode_written_append ha, hrest, percentDecode_cons_of_ne ha]

/-! ### Whole addresses -/

theorem encode_encodeByte (b : UInt8) :
    (encodeByte b).flatMap String.utf8EncodeChar = written b := by
  have hone : ∀ c ∈ encodeByte b, String.utf8EncodeChar c = [UInt8.ofNat c.toNat] := by
    intro c hc
    have hlow := (Browser.toNat_encodeByte b c hc).2
    exact Text.encodeChar_one (by omega) rfl (Text.toNat_byte (by omega))
  rw [written, List.flatMap_congr hone, ← List.map_eq_flatMap]

/-- The bytes of the encoded address. -/
theorem encode_percentEncode (url : String) :
    Text.encode (percentEncode url) = (Text.encode url).flatMap written := by
  rw [percentEncode, Text.encode_ofList, List.flatMap_assoc]
  exact List.flatMap_congr fun b _ => encode_encodeByte b

theorem plain_percentEncode (url : String) : ∀ b ∈ Text.encode (percentEncode url), Plain b := by
  intro b hb
  rw [encode_percentEncode] at hb
  obtain ⟨c, -, hb⟩ := List.mem_flatMap.mp hb
  exact plain_written c b hb

/-- An address stays as it is exactly if all its bytes are plain. -/
theorem percentEncode_eq_self_iff (url : String) :
    percentEncode url = url ↔ ∀ b ∈ Text.encode url, Plain b := by
  constructor
  · intro h
    rw [← h]
    exact plain_percentEncode url
  · intro h
    have hsame : Text.encode (percentEncode url) = Text.encode url := by
      rw [encode_percentEncode, List.flatMap_congr fun b hb => written_of_plain (h b hb)]
      simp
    have htext := Text.decode_encode url.toList
    rw [String.ofList_toList, ← hsame] at htext
    have hcoded := Text.decode_encode (percentEncode url).toList
    rw [String.ofList_toList, htext] at hcoded
    exact String.toList_inj.mp (Except.ok.inj hcoded).symm

/-- **Percent-encoding is a normal form that keeps the meaning.** All bytes of an encoded address
are plain, an address is left alone exactly if its bytes are, so that a second encoding changes
nothing, and reading codes gives the same bytes before and after, wherever a `%` stands. -/
theorem percentEncode_normal (url : String) :
    (∀ b ∈ Text.encode (percentEncode url), Plain b) ∧
      (percentEncode url = url ↔ ∀ b ∈ Text.encode url, Plain b) ∧
      percentEncode (percentEncode url) = percentEncode url ∧
      percentDecode (Text.encode (percentEncode url)) = percentDecode (Text.encode url) := by
  have hplain := plain_percentEncode url
  refine ⟨hplain, percentEncode_eq_self_iff url, (percentEncode_eq_self_iff _).mpr hplain, ?_⟩
  rw [encode_percentEncode, percentDecode_written]

/-- A `%` before a byte that is encoded, one before a single digit, and a code. -/
example : percentEncode "%é%4 %41" = "%%C3%A9%4%20%41" := by decide

end Url
end MarkdownHtml
