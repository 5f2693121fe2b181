/-
# Bytes of a text

A text is encoded character by character, each with one to four bytes. Decoding reads them
back, so that `decode` inverts `encode` (`Text.decode_encode`). A cut between two characters is
a cut of the bytes at the size of what is in front of it: the bytes between two such cuts encode
the characters between them (`Cursor.slice?_between`).

Key theorems: `Text.encode_ofList`, `Text.decodeHead?_encodeChar`, `Text.decodeFrom_encode`,
`Text.decode_encode`, `Text.splitAtBytes_append`, `Cursor.slice?_between`.
-/
import MarkdownHtml.Text.Cursor
import MarkdownHtml.Proofs.Tokens

namespace MarkdownHtml
namespace Text

/-- A text is encoded character by character. -/
theorem encode_ofList (s : List Char) :
    encode (String.ofList s) = s.flatMap String.utf8EncodeChar := by
  unfold encode
  rw [String.toUTF8_eq_toByteArray, ← String.utf8Encode_toList, String.toList_ofList]
  simp [List.utf8Encode]

theorem encode_append (s t : List Char) :
    encode (String.ofList (s ++ t)) = encode (String.ofList s) ++ encode (String.ofList t) := by
  rw [encode_ofList, encode_ofList, encode_ofList, List.flatMap_append]

theorem length_encode (s : List Char) : (encode (String.ofList s)).length = byteLength s := by
  rw [encode_ofList]
  induction s with
  | nil => rfl
  | cons c s ih =>
    rw [List.flatMap_cons, List.length_append, ih, String.length_utf8EncodeChar, byteLength_cons]

/-! ### One character -/

section Char

variable {c : Char} {hi mid lo : Nat}

theorem toNat_byte {n : Nat} (h : n < 256) : (UInt8.ofNat n).toNat = n := UInt8.toNat_ofNat_of_lt' h

theorem continuation?_ofNat {n : Nat} (h : n < 64) :
    continuation? (UInt8.ofNat (n + 128)) = some n := by
  unfold continuation?
  rw [toNat_byte (by omega), if_pos (by omega), Nat.add_sub_cancel]

theorem scalar?_eq_some {least n : Nat} (hn : c.toNat = n) (h : least ≤ n) :
    scalar? least n = some c := by
  subst hn
  rw [scalar?, if_pos ⟨h, c.valid⟩, Char.ofNat_toNat]

theorem decodeHead?_one {n : Nat} (h : n < 128) (hc : c.toNat = n) (rest : List UInt8) :
    decodeHead? (UInt8.ofNat n :: rest) = some (c, 1) := by
  subst hc
  unfold decodeHead?
  simp only [toNat_byte (Nat.lt_trans h (by decide))]
  rw [if_pos h, Char.ofNat_toNat]

theorem decodeHead?_two (hhi : hi < 32) (hlo : lo < 64) (hc : c.toNat = hi * 64 + lo)
    (h : 0x80 ≤ hi * 64 + lo) (rest : List UInt8) :
    decodeHead? (UInt8.ofNat (hi + 192) :: UInt8.ofNat (lo + 128) :: rest) = some (c, 2) := by
  rw [decodeHead?]
  simp only [toNat_byte (show hi + 192 < 256 by omega)]
  rw [if_neg (by omega), if_pos (by omega), continuation?_ofNat hlo, Nat.add_sub_cancel]
  simp only [Option.bind_eq_bind, Option.bind_some]
  rw [scalar?_eq_some hc h]
  rfl

theorem decodeHead?_three (hhi : hi < 16) (hmid : mid < 64) (hlo : lo < 64)
    (hc : c.toNat = (hi * 64 + mid) * 64 + lo) (h : 0x800 ≤ (hi * 64 + mid) * 64 + lo)
    (rest : List UInt8) :
    decodeHead? (UInt8.ofNat (hi + 224) :: UInt8.ofNat (mid + 128) :: UInt8.ofNat (lo + 128) ::
      rest) = some (c, 3) := by
  rw [decodeHead?]
  simp only [toNat_byte (show hi + 224 < 256 by omega)]
  rw [if_neg (by omega), if_neg (by omega), if_pos (by omega), continuation?_ofNat hmid,
    continuation?_ofNat hlo, Nat.add_sub_cancel]
  simp only [Option.bind_eq_bind, Option.bind_some]
  rw [scalar?_eq_some hc h]
  rfl

theorem decodeHead?_four {top : Nat} (htop : top < 8) (hhi : hi < 64) (hmid : mid < 64)
    (hlo : lo < 64) (hc : c.toNat = ((top * 64 + hi) * 64 + mid) * 64 + lo)
    (h : 0x10000 ≤ ((top * 64 + hi) * 64 + mid) * 64 + lo) (rest : List UInt8) :
    decodeHead? (UInt8.ofNat (top + 240) :: UInt8.ofNat (hi + 128) :: UInt8.ofNat (mid + 128) ::
      UInt8.ofNat (lo + 128) :: rest) = some (c, 4) := by
  rw [decodeHead?]
  simp only [toNat_byte (show top + 240 < 256 by omega)]
  rw [if_neg (by omega), if_neg (by omega), if_neg (by omega), if_pos (by omega),
    continuation?_ofNat hhi, continuation?_ofNat hmid, continuation?_ofNat hlo, Nat.add_sub_cancel]
  simp only [Option.bind_eq_bind, Option.bind_some]
  rw [scalar?_eq_some hc h]
  rfl

/-- The first character that is decoded is the first that was encoded. -/
theorem decodeHead?_encodeChar (c : Char) (rest : List UInt8) :
    decodeHead? (String.utf8EncodeChar c ++ rest) = some (c, c.utf8Size) := by
  have hval : c.toNat = c.val.toNat := rfl
  have hlt : c.val.toNat < 0x110000 := by
    rcases c.valid with h | ⟨-, h⟩
    · exact Nat.lt_trans h (by decide)
    · exact h
  rw [← String.length_utf8EncodeChar]
  unfold String.utf8EncodeChar
  generalize c.val.toNat = v at hval hlt
  dsimp only
  split_ifs with h₁ h₂ h₃
  · exact decodeHead?_one (by omega) hval rest
  · exact decodeHead?_two (by omega) (by omega) (by omega) (by omega) rest
  · exact decodeHead?_three (by omega) (by omega) (by omega) (by omega) (by omega) rest
  · exact decodeHead?_four (by omega) (by omega) (by omega) (by omega) (by omega) (by omega) rest

end Char

/-! ### Whole texts -/

theorem decodeFrom_skip (valid : Nat) (done : List Char) (bytes rest : List UInt8) :
    decodeFrom valid done bytes.length (bytes ++ rest) = decodeFrom valid done 0 rest := by
  induction bytes with
  | nil => rfl
  | cons b bytes ih =>
    rw [List.length_cons, List.cons_append, decodeFrom, ih]

theorem decodeFrom_encodeChar (valid : Nat) (done : List Char) (c : Char) (rest : List UInt8) :
    decodeFrom valid done 0 (String.utf8EncodeChar c ++ rest) =
      decodeFrom (valid + c.utf8Size) (c :: done) 0 rest := by
  have hhead := decodeHead?_encodeChar c rest
  have hlength := String.length_utf8EncodeChar c
  cases hbytes : String.utf8EncodeChar c with
  | nil =>
    rw [hbytes] at hlength
    exact absurd hlength (Nat.ne_of_lt c.utf8Size_pos)
  | cons b bytes =>
    rw [hbytes] at hhead hlength
    rw [List.cons_append] at hhead ⊢
    have hmore : c.utf8Size - 1 = bytes.length := by
      rw [← hlength, List.length_cons, Nat.add_sub_cancel]
    rw [decodeFrom, hhead]
    simp only [hmore]
    rw [decodeFrom_skip]

/-- Decoding passes over the bytes of a text and goes on behind them. -/
theorem decodeFrom_encode (valid : Nat) (done s : List Char) (rest : List UInt8) :
    decodeFrom valid done 0 (s.flatMap String.utf8EncodeChar ++ rest) =
      decodeFrom (valid + byteLength s) (s.reverse ++ done) 0 rest := by
  induction s generalizing valid done with
  | nil => rfl
  | cons c s ih =>
    rw [List.flatMap_cons, List.append_assoc, decodeFrom_encodeChar, ih, byteLength_cons,
      List.reverse_cons, List.append_assoc, Nat.add_assoc]
    rfl

/-- **Decoding inverts encoding.** -/
theorem decode_encode (s : List Char) : decode (encode (String.ofList s)) = .ok s := by
  have hall := decodeFrom_encode 0 [] s []
  rw [List.append_nil, List.append_nil] at hall
  rw [encode_ofList, decode, hall, decodeFrom, List.reverse_reverse]

/-- A text is cut behind as many bytes as its first part takes. -/
theorem splitAtBytes_append (s t : List Char) : splitAtBytes (byteLength s) (s ++ t) = (s, t) := by
  have hall : ∀ before : List Char,
      splitFrom before (byteLength s) (s ++ t) = (before.reverse ++ s, t) := by
    induction s with
    | nil =>
      intro before
      cases t with
      | nil => simp [splitFrom]
      | cons c t => simp [splitFrom]
    | cons c s ih =>
      intro before
      have hpos := c.utf8Size_pos
      rw [List.cons_append, splitFrom, byteLength_cons, if_neg (by omega),
        Nat.add_sub_cancel_left, ih, List.reverse_cons, List.append_assoc]
      rfl
  rw [splitAtBytes, hall]
  rfl

end Text

/-- **Slices between characters are whole.** The slice from the end of `a` to the end of `s` is
`s`. -/
theorem Cursor.slice?_between (a s b : List Char) (base : Nat) :
    (Cursor.ofText (String.ofList (a ++ s ++ b)) base).slice? (Text.byteLength a)
      (Text.byteLength a + Text.byteLength s) = some (String.ofList s) := by
  have htake : ((Text.encode (String.ofList (a ++ s ++ b))).take
      (Text.byteLength a + Text.byteLength s)).drop (Text.byteLength a) =
      Text.encode (String.ofList s) := by
    rw [Text.encode_append, Text.encode_append, ← Text.length_encode a, ← Text.length_encode s,
      ← List.length_append, List.take_left, List.drop_left]
  rw [Cursor.slice?, Cursor.ofText]
  simp only
  rw [htake, Text.decode_encode]

end MarkdownHtml
