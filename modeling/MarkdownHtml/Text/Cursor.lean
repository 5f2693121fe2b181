/-
# Reading a text byte by byte

A cursor stands between two bytes of a text, which is itself part of a longer one:
`base` is where the text starts there. The cursor sees one byte at a time, passes
over escapes and blanks, and cuts texts out between two byte offsets.

Key definitions: `Cursor`, `Cursor.bump`, `Cursor.bumpEscape`, `Cursor.skipBlanks`,
`Cursor.slice?`.
-/
import MarkdownHtml.Text.Space
import MarkdownHtml.Text.Utf8

namespace MarkdownHtml

/-- A place in the bytes of a text. -/
structure Cursor where
  bytes : List UInt8
  /-- The offset of the text in the longer one. -/
  base : Nat
  /-- The offset of the cursor in the text. -/
  index : Nat := 0
deriving Repr, DecidableEq

namespace Cursor

/-- Starts in front of the first byte. -/
def ofText (s : String) (base : Nat) : Cursor := { bytes := Text.encode s, base }

/-- The offset of the cursor in the longer text. -/
def position (c : Cursor) : Nat := c.base + c.index

/-- The byte behind the cursor. -/
def peek? (c : Cursor) : Option UInt8 := c.bytes[c.index]?

/-- Moves over one byte, if there is one, and returns it. -/
def bump (c : Cursor) : Option UInt8 × Cursor :=
  match c.peek? with
  | some b => (some b, { c with index := c.index + 1 })
  | none => (none, c)

/-- Whether a byte is ASCII punctuation. -/
def isPunctuationByte (b : UInt8) : Bool :=
  b.toNat < 0x80 && Text.isPunctuation (Char.ofNat b.toNat)

/-- Moves over a backslash and, if punctuation follows, over that too. Returns
whether there was a backslash. -/
def bumpEscape (c : Cursor) : Bool × Cursor :=
  if c.peek? = some 0x5C then
    let c := { c with index := c.index + 1 }
    if c.peek?.any isPunctuationByte then (true, { c with index := c.index + 1 }) else (true, c)
  else (false, c)

/-- How many of the bytes are spaces, tabs and, once, a line feed. -/
def countBlanks (feedSeen : Bool) (count : Nat) : List UInt8 → Nat
  | [] => count
  | b :: rest =>
    if b = 0x20 ∨ b = 0x09 then countBlanks feedSeen (count + 1) rest
    else if b = 0x0A ∧ feedSeen = false then countBlanks true (count + 1) rest
    else count

/-- Moves over spaces, tabs and at most one line feed. Returns whether there were
any. -/
def skipBlanks (c : Cursor) : Bool × Cursor :=
  let n := countBlanks false 0 (c.bytes.drop c.index)
  (n != 0, { c with index := c.index + n })

/-- The text between two offsets, if both are character boundaries. -/
def slice? (c : Cursor) (start stop : Nat) : Option String :=
  match Text.decode ((c.bytes.take stop).drop start) with
  | .ok s => some (String.ofList s)
  | .error _ => none

end Cursor
end MarkdownHtml
