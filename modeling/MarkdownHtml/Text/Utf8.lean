/-
# Texts as bytes

Sizes and offsets are counted in bytes of the UTF-8 encoding. `byteLength` is the
size of a text; `decode` reads bytes as a text, or says how many of them, from
the front, are whole and valid characters. Overlong forms, surrogates, values
above `U+10FFFF` and truncated sequences are refused from their first byte on.

Key definitions: `byteLength`, `decodeHead?`, `decode`, `encode`.
-/

namespace MarkdownHtml
namespace Text

/-- The number of bytes that encode `s`. -/
def byteLength (s : List Char) : Nat := s.foldl (fun n c => n + c.utf8Size) 0

/-- Cuts a text behind its first `n` bytes; a character that the cut would divide
stays in front of it. `before` is what is passed already, newest first. -/
def splitFrom (before : List Char) : Nat → List Char → List Char × List Char
  | _, [] => (before.reverse, [])
  | n, c :: rest =>
    if n = 0 then (before.reverse, c :: rest) else splitFrom (c :: before) (n - c.utf8Size) rest

/-- Cuts a text behind its first `n` bytes. -/
def splitAtBytes (n : Nat) (s : List Char) : List Char × List Char := splitFrom [] n s

/-- The bytes that encode `s`. -/
def encode (s : String) : List UInt8 := s.toUTF8.data.toList

/-- Six payload bits of a continuation byte `10xxxxxx`. -/
def continuation? (b : UInt8) : Option Nat :=
  if 0x80 ≤ b.toNat ∧ b.toNat < 0xC0 then some (b.toNat - 0x80) else none

/-- The character of code point `n`, if `n` is one and needs the form it was
written in, whose smallest value is `least`. -/
def scalar? (least n : Nat) : Option Char :=
  if least ≤ n ∧ n.isValidChar then some (Char.ofNat n) else none

/-- The first character of a byte sequence and the number of bytes it takes. -/
def decodeHead? : List UInt8 → Option (Char × Nat)
  | [] => none
  | a :: rest =>
    let lead := a.toNat
    if lead < 0x80 then some (Char.ofNat lead, 1)
    else if 0xC0 ≤ lead ∧ lead < 0xE0 then
      match rest with
      | b :: _ => do
        let x ← continuation? b
        let c ← scalar? 0x80 ((lead - 0xC0) * 0x40 + x)
        some (c, 2)
      | _ => none
    else if 0xE0 ≤ lead ∧ lead < 0xF0 then
      match rest with
      | b :: d :: _ => do
        let x ← continuation? b
        let y ← continuation? d
        let c ← scalar? 0x800 (((lead - 0xE0) * 0x40 + x) * 0x40 + y)
        some (c, 3)
      | _ => none
    else if 0xF0 ≤ lead ∧ lead < 0xF8 then
      match rest with
      | b :: d :: e :: _ => do
        let x ← continuation? b
        let y ← continuation? d
        let z ← continuation? e
        let c ← scalar? 0x10000 ((((lead - 0xF0) * 0x40 + x) * 0x40 + y) * 0x40 + z)
        some (c, 4)
      | _ => none
    else none

/-- Reads on from offset `valid` with the characters `done` (newest first)
already read; `skip` bytes of the last character are still to be passed over. -/
def decodeFrom (valid : Nat) (done : List Char) : Nat → List UInt8 → Except Nat (List Char)
  | _, [] => .ok done.reverse
  | skip + 1, _ :: rest => decodeFrom valid done skip rest
  | 0, a :: rest =>
    match decodeHead? (a :: rest) with
    | some (c, size) => decodeFrom (valid + size) (c :: done) (size - 1) rest
    | none => .error valid

/-- The text that `bytes` encode, or the length of their longest valid prefix. -/
def decode (bytes : List UInt8) : Except Nat (List Char) := decodeFrom 0 [] 0 bytes

end Text
end MarkdownHtml
