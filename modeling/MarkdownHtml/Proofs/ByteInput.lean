/-
# Bytes that are a text, and bytes that are none

Decoding accepts just the bytes that encode a text. A character that is read is written with the
bytes it was read from (`Text.exists_of_decodeHead?`): the form is the shortest, and the value is
that of a character, so overlong forms, surrogates and values past the last code point are not
read. Bytes are therefore a text and a rest that starts with no character (`Text.exists_valid`),
and no text that is encoded at their front is longer (`Text.isPrefix_of_encode`): encodings of
characters do not start each other.

The size of the bytes is looked at first. Bytes that are a text are converted as the text, and
for others the error tells the longest part in front that is one (`convertBytes_result`).

Key definition: `Text.validLengths`.
Key theorems: `Text.exists_of_decodeHead?`, `Text.exists_valid`, `Text.decode_append`,
`Text.isPrefix_of_encode`, `convertBytes_result`.
-/
import MarkdownHtml.Convert
import MarkdownHtml.Proofs.Encoding

namespace MarkdownHtml
namespace Text

/-- The lengths of the parts at the front of `bytes` that encode a text. -/
def validLengths (bytes : List UInt8) : Set Nat :=
  {n | ∃ s : String, encode s <+: bytes ∧ (encode s).length = n}

/-! ### The bytes of a character that is read -/

section Char

variable {c : Char} {a b d e : UInt8} {hi mid lo : Nat}

theorem ofNat_eq_of_toNat {n : Nat} (h : a.toNat = n) : UInt8.ofNat n = a := by
  rw [← h, UInt8.ofNat_toNat]

theorem continuation?_eq_some {n : Nat} (h : continuation? a = some n) :
    n < 64 ∧ a.toNat = n + 128 := by
  unfold continuation? at h
  split_ifs at h with hrange
  have hn := Option.some.inj h
  omega

theorem toNat_of_scalar? {least n : Nat} (h : scalar? least n = some c) :
    least ≤ n ∧ c.toNat = n := by
  unfold scalar? at h
  split_ifs at h with hvalid
  obtain rfl := Option.some.inj h
  refine ⟨hvalid.1, ?_⟩
  rw [Char.toNat_ofNat, if_pos hvalid.2]

theorem encodeChar_one {n : Nat} (h : n < 128) (hc : c.toNat = n) (ha : a.toNat = n) :
    String.utf8EncodeChar c = [a] := by
  have hval : c.val.toNat = n := hc
  unfold String.utf8EncodeChar
  simp only [hval]
  rw [if_pos (by omega), ofNat_eq_of_toNat ha]

theorem encodeChar_two (hhi : hi < 32) (hlo : lo < 64) (h : 0x80 ≤ hi * 64 + lo)
    (hc : c.toNat = hi * 64 + lo) (ha : a.toNat = hi + 192) (hb : b.toNat = lo + 128) :
    String.utf8EncodeChar c = [a, b] := by
  have hval : c.val.toNat = hi * 64 + lo := hc
  unfold String.utf8EncodeChar
  simp only [hval]
  rw [if_neg (by omega), if_pos (by omega), ofNat_eq_of_toNat (a := a) (by omega),
    ofNat_eq_of_toNat (a := b) (by omega)]

theorem encodeChar_three (hhi : hi < 16) (hmid : mid < 64) (hlo : lo < 64)
    (h : 0x800 ≤ (hi * 64 + mid) * 64 + lo) (hc : c.toNat = (hi * 64 + mid) * 64 + lo)
    (ha : a.toNat = hi + 224) (hb : b.toNat = mid + 128) (hd : d.toNat = lo + 128) :
    String.utf8EncodeChar c = [a, b, d] := by
  have hval : c.val.toNat = (hi * 64 + mid) * 64 + lo := hc
  unfold String.utf8EncodeChar
  simp only [hval]
  rw [if_neg (by omega), if_neg (by omega), if_pos (by omega),
    ofNat_eq_of_toNat (a := a) (by omega), ofNat_eq_of_toNat (a := b) (by omega),
    ofNat_eq_of_toNat (a := d) (by omega)]

theorem encodeChar_four {top : Nat} (htop : top < 8) (hhi : hi < 64) (hmid : mid < 64)
    (hlo : lo < 64) (h : 0x10000 ≤ ((top * 64 + hi) * 64 + mid) * 64 + lo)
    (hc : c.toNat = ((top * 64 + hi) * 64 + mid) * 64 + lo) (ha : a.toNat = top + 240)
    (hb : b.toNat = hi + 128) (hd : d.toNat = mid + 128) (he : e.toNat = lo + 128) :
    String.utf8EncodeChar c = [a, b, d, e] := by
  have hval : c.val.toNat = ((top * 64 + hi) * 64 + mid) * 64 + lo := hc
  unfold String.utf8EncodeChar
  simp only [hval]
  rw [if_neg (by omega), if_neg (by omega), if_neg (by omega),
    ofNat_eq_of_toNat (a := a) (by omega), ofNat_eq_of_toNat (a := b) (by omega),
    ofNat_eq_of_toNat (a := d) (by omega), ofNat_eq_of_toNat (a := e) (by omega)]

/-- **A character is read from no other bytes than it is written with.** -/
theorem exists_of_decodeHead? {bytes : List UInt8} {size : Nat}
    (h : decodeHead? bytes = some (c, size)) : ∃ rest, bytes = String.utf8EncodeChar c ++ rest := by
  cases bytes with
  | nil => exact absurd h (by simp [decodeHead?])
  | cons a rest =>
    unfold decodeHead? at h
    dsimp only at h
    split_ifs at h with hone htwo hthree hfour
    · obtain ⟨rfl, -⟩ := Prod.mk.inj (Option.some.inj h)
      have hc : (Char.ofNat a.toNat).toNat = a.toNat := by
        rw [Char.toNat_ofNat, if_pos (.inl (by omega))]
      exact ⟨rest, by rw [encodeChar_one hone hc rfl, List.singleton_append]⟩
    · rcases rest with _ | ⟨b, rest⟩
      · exact absurd h (by simp)
      · obtain ⟨x, hx, h⟩ := Option.bind_eq_some_iff.mp h
        obtain ⟨c', hc', h⟩ := Option.bind_eq_some_iff.mp h
        obtain ⟨rfl, -⟩ := Prod.mk.inj (Option.some.inj h)
        obtain ⟨hxlt, hb⟩ := continuation?_eq_some hx
        obtain ⟨hleast, hc⟩ := toNat_of_scalar? hc'
        have ha : a.toNat = a.toNat - 0xC0 + 192 := by omega
        refine ⟨rest, ?_⟩
        rw [encodeChar_two (by omega) hxlt hleast hc ha hb]
        rfl
    · rcases rest with _ | ⟨b, _ | ⟨d, rest⟩⟩
      · exact absurd h (by simp)
      · exact absurd h (by simp)
      · obtain ⟨x, hx, h⟩ := Option.bind_eq_some_iff.mp h
        obtain ⟨y, hy, h⟩ := Option.bind_eq_some_iff.mp h
        obtain ⟨c', hc', h⟩ := Option.bind_eq_some_iff.mp h
        obtain ⟨rfl, -⟩ := Prod.mk.inj (Option.some.inj h)
        obtain ⟨hxlt, hb⟩ := continuation?_eq_some hx
        obtain ⟨hylt, hd⟩ := continuation?_eq_some hy
        obtain ⟨hleast, hc⟩ := toNat_of_scalar? hc'
        have ha : a.toNat = a.toNat - 0xE0 + 224 := by omega
        refine ⟨rest, ?_⟩
        rw [encodeChar_three (by omega) hxlt hylt hleast hc ha hb hd]
        rfl
    · rcases rest with _ | ⟨b, _ | ⟨d, _ | ⟨e, rest⟩⟩⟩
      · exact absurd h (by simp)
      · exact absurd h (by simp)
      · exact absurd h (by simp)
      · obtain ⟨x, hx, h⟩ := Option.bind_eq_some_iff.mp h
        obtain ⟨y, hy, h⟩ := Option.bind_eq_some_iff.mp h
        obtain ⟨z, hz, h⟩ := Option.bind_eq_some_iff.mp h
        obtain ⟨c', hc', h⟩ := Option.bind_eq_some_iff.mp h
        obtain ⟨rfl, -⟩ := Prod.mk.inj (Option.some.inj h)
        obtain ⟨hxlt, hb⟩ := continuation?_eq_some hx
        obtain ⟨hylt, hd⟩ := continuation?_eq_some hy
        obtain ⟨hzlt, he⟩ := continuation?_eq_some hz
        obtain ⟨hleast, hc⟩ := toNat_of_scalar? hc'
        have ha : a.toNat = a.toNat - 0xF0 + 240 := by omega
        refine ⟨rest, ?_⟩
        rw [encodeChar_four (by omega) hxlt hylt hzlt hleast hc ha hb hd he]
        rfl

end Char

/-! ### The text in front -/

/-- Any bytes are a text and a rest at whose start there is no character. -/
theorem exists_valid (bytes : List UInt8) :
    ∃ (s : List Char) (rest : List UInt8), bytes = s.flatMap String.utf8EncodeChar ++ rest ∧
      decodeHead? rest = none := by
  induction hlength : bytes.length using Nat.strongRecOn generalizing bytes with
  | ind length ih =>
    cases hhead : decodeHead? bytes with
    | none => exact ⟨[], bytes, rfl, hhead⟩
    | some head =>
      obtain ⟨tail, rfl⟩ := exists_of_decodeHead? hhead
      have hshorter : tail.length < length := by
        rw [← hlength, List.length_append, String.length_utf8EncodeChar]
        have hsize := head.1.utf8Size_pos
        omega
      obtain ⟨s, rest, rfl, hrest⟩ := ih tail.length hshorter tail rfl
      refine ⟨head.1 :: s, rest, ?_, hrest⟩
      rw [List.flatMap_cons, List.append_assoc]

/-- Decoding gives the text, or stops behind it if there is a rest. -/
theorem decode_append (s : List Char) {rest : List UInt8} (h : decodeHead? rest = none) :
    decode (s.flatMap String.utf8EncodeChar ++ rest) =
      if rest = [] then .ok s else .error (byteLength s) := by
  rw [decode, decodeFrom_encode, Nat.zero_add, List.append_nil]
  cases rest with
  | nil => rw [decodeFrom, if_pos rfl, List.reverse_reverse]
  | cons a rest =>
    rw [decodeFrom, h, if_neg (by simp)]

/-- No other text at the front goes further. -/
theorem isPrefix_of_encode {s t : List Char} {rest more : List UInt8} (h : decodeHead? rest = none)
    (heq : t.flatMap String.utf8EncodeChar ++ more = s.flatMap String.utf8EncodeChar ++ rest) :
    t <+: s := by
  induction t generalizing s with
  | nil => exact List.nil_prefix
  | cons c t ih =>
    rw [List.flatMap_cons, List.append_assoc] at heq
    have hc := decodeHead?_encodeChar c (t.flatMap String.utf8EncodeChar ++ more)
    rw [heq] at hc
    cases s with
    | nil =>
      rw [List.flatMap_nil, List.nil_append, h] at hc
      exact absurd hc (by simp)
    | cons d s =>
      rw [List.flatMap_cons, List.append_assoc] at heq hc
      rw [decodeHead?_encodeChar] at hc
      obtain rfl : d = c := (Prod.mk.inj (Option.some.inj hc)).1
      exact List.cons_prefix_cons.mpr ⟨rfl, ih (List.append_cancel_left heq)⟩

/-- The text in front is the longest there is. -/
theorem isGreatest_validLengths (s : List Char) {rest : List UInt8} (h : decodeHead? rest = none) :
    IsGreatest (validLengths (s.flatMap String.utf8EncodeChar ++ rest)) (byteLength s) := by
  constructor
  · refine ⟨String.ofList s, ?_, length_encode s⟩
    rw [encode_ofList]
    exact List.prefix_append _ _
  · rintro n ⟨t, ⟨more, heq⟩, rfl⟩
    rw [← String.ofList_toList (s := t), encode_ofList] at heq
    obtain ⟨more', hs⟩ := isPrefix_of_encode h heq
    rw [← String.ofList_toList (s := t), length_encode, ← hs, byteLength_append]
    exact Nat.le_add_right _ _

end Text

/-! ### The entry -/

/-- **Bytes are converted as the text they encode.** Too many bytes are refused, whatever they
are. Of others, those that encode a text are converted as the text, and for those that encode
none the error tells how long the longest text at their front is. -/
theorem convertBytes_result (options : Options) (bytes : List UInt8) :
    (options.limits.maxInputBytes < bytes.length →
      (convertBytes options bytes).result =
        .error (.tooLarge bytes.length options.limits.maxInputBytes)) ∧
    (bytes.length ≤ options.limits.maxInputBytes →
      (∀ s : String, Text.encode s = bytes → convertBytes options bytes = convert options s) ∧
      ((∀ s : String, Text.encode s ≠ bytes) →
        ∃ n, IsGreatest (Text.validLengths bytes) n ∧
          (convertBytes options bytes).result = .error (.notUtf8 n))) := by
  refine ⟨?_, ?_⟩
  · intro hlarge
    have hrefusal : options.limits.refusal? bytes.length =
        some (.tooLarge bytes.length options.limits.maxInputBytes) := if_pos hlarge
    simp only [convertBytes, hrefusal]
  · intro hfits
    have hrefusal := Limits.refusal?_eq_none_iff.mpr hfits
    refine ⟨?_, ?_⟩
    · rintro s rfl
      have htext := Text.decode_encode s.toList
      rw [String.ofList_toList] at htext
      simp only [convertBytes, hrefusal, htext, String.ofList_toList]
    · intro hnone
      obtain ⟨s, rest, rfl, hrest⟩ := Text.exists_valid bytes
      have hne : rest ≠ [] := by
        rintro rfl
        exact hnone (String.ofList s) (by rw [Text.encode_ofList, List.append_nil])
      have hstops := Text.decode_append s hrest
      rw [if_neg hne] at hstops
      refine ⟨Text.byteLength s, Text.isGreatest_validLengths s hrest, ?_⟩
      simp only [convertBytes, hrefusal, hstops]

/-- Bytes of which there are too many and that are no text, bytes of a text with a character that
is cut short behind it, and bytes of a text. -/
theorem convertBytes_result_cut :
    ((convertBytes { limits := { maxInputBytes := 2 } } [0xFF, 0xFF, 0xFF]).result =
        .error (.tooLarge 3 2)) ∧
      ((∀ s : String, Text.encode s ≠ [0x61, 0xC3, 0xA9, 0xE2, 0x82]) ∧
        ∃ n, IsGreatest (Text.validLengths [0x61, 0xC3, 0xA9, 0xE2, 0x82]) n ∧
          (convertBytes {} [0x61, 0xC3, 0xA9, 0xE2, 0x82]).result = .error (.notUtf8 n)) ∧
      convertBytes {} [0x2A, 0xC3, 0xA9, 0x2A] = convert {} "*é*" := by
  have hcut : ∀ s : String, Text.encode s ≠ [0x61, 0xC3, 0xA9, 0xE2, 0x82] := by
    intro s hs
    have htext := Text.decode_encode s.toList
    have hstops : Text.decode [0x61, 0xC3, 0xA9, 0xE2, 0x82] = .error 3 := by decide
    rw [String.ofList_toList, hs, hstops] at htext
    exact absurd htext (by simp)
  refine ⟨?_, ⟨hcut, ?_⟩, ?_⟩
  · exact (convertBytes_result { limits := { maxInputBytes := 2 } } [0xFF, 0xFF, 0xFF]).1
      (by decide)
  · exact ((convertBytes_result {} [0x61, 0xC3, 0xA9, 0xE2, 0x82]).2 (by decide)).2 hcut
  · exact ((convertBytes_result {} [0x2A, 0xC3, 0xA9, 0x2A]).2 (by decide)).1 "*é*" (by decide)

end MarkdownHtml
