/-
# List markers

A bullet `-`, `*` or `+`, or a number of one to nine digits with `.` or `)`,
starts a list item if blanks or the end of the line follow it. The blanks belong
to the marker, so its width is the column of the item's text.

Key definitions: `Marker`, `Marker.read?`.
-/
import MarkdownHtml.Document
import MarkdownHtml.Text.Space

namespace MarkdownHtml

/-- The start of a list item. -/
structure Marker where
  list : ListKind
  /-- The bytes of the marker and the blanks behind it. -/
  width : Nat
  /-- The text after the marker. -/
  content : List Char
deriving Repr, DecidableEq, Inhabited

namespace Marker

/-- The value of a run of decimal digits. -/
def number (digits : List Char) : Nat :=
  digits.foldl (fun n d => 10 * n + (d.toNat - '0'.toNat)) 0

/-- The marker of `list`, `size` bytes long, if blanks or the end follow it. -/
def close? (list : ListKind) (size : Nat) (rest : List Char) : Option Marker :=
  if Text.padOrEnd rest then
    some ⟨list, size + (rest.takeWhile Text.isPad).length, rest.dropWhile Text.isPad⟩
  else none

/-- Reads a bullet marker. -/
def readBullet? : List Char → Option Marker
  | c :: rest => if c == '-' || c == '*' || c == '+' then close? (.bullet c) 1 rest else none
  | [] => none

/-- Reads a numbered marker. -/
def readOrdered? (text : List Char) : Option Marker :=
  let digits := text.takeWhile Char.isDigit
  if digits.isEmpty || 9 < digits.length then none
  else
    match text.dropWhile Char.isDigit with
    | c :: rest =>
      if c == '.' || c == ')' then
        close? (.ordered (number digits) c) (digits.length + 1) rest
      else none
    | [] => none

/-- Reads the list marker at the start of a text, if there is one. -/
def read? (text : List Char) : Option Marker :=
  (readBullet? text).or (readOrdered? text)

end Marker
end MarkdownHtml
