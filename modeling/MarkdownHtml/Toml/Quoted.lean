/-
# Quoted strings in TOML

A string is basic, in double quotes and with escapes, or literal, in single quotes
and without; each form has one for a single line and one, in triple quotes, for
several. A line feed right behind triple quotes does not count, a backslash at the
end of a line passes over the blanks and line ends that follow, and up to two
quotes may stand before the closing three.

Writing picks the plainest form that fits: basic without escapes, literal, then the
forms for several lines, and escapes only where nothing else will do.

Key definitions: `Toml.string?`, `Toml.writeString`.
-/
import MarkdownHtml.Text.Space

namespace MarkdownHtml
namespace Toml

/-- A value and the text behind it. -/
abbrev Reading (α : Type) := Option (α × List Char)

/-- Control characters other than tab, which no string or comment may hold. -/
def isForbidden (c : Char) : Bool := Text.isControl c && c != '\t'

/-! ### Reading -/

/-- The value of a hexadecimal digit. -/
def hexValue? (c : Char) : Option Nat :=
  if c.isDigit then some (c.toNat - 48)
  else if 'a' ≤ c ∧ c ≤ 'f' then some (c.toNat - 87)
  else if 'A' ≤ c ∧ c ≤ 'F' then some (c.toNat - 55)
  else none

/-- Reads `count` hexadecimal digits as a code point. -/
def codePoint? (value : Nat) : Nat → List Char → Reading Char
  | 0, rest => if value.isValidChar then some (Char.ofNat value, rest) else none
  | count + 1, c :: rest =>
    match hexValue? c with
    | some d => codePoint? (16 * value + d) count rest
    | none => none
  | _ + 1, [] => none

/-- Reads what follows the backslash of an escape. -/
def escape? : List Char → Reading Char
  | [] => none
  | c :: rest =>
    match c with
    | 'b' => some ('\x08', rest)
    | 't' => some ('\t', rest)
    | 'n' => some ('\n', rest)
    | 'f' => some ('\x0c', rest)
    | 'r' => some ('\r', rest)
    | 'e' => some ('\x1b', rest)
    | '"' => some ('"', rest)
    | '\\' => some ('\\', rest)
    | 'x' => codePoint? 0 2 rest
    | 'u' => codePoint? 0 4 rest
    | 'U' => codePoint? 0 8 rest
    | _ => none

/-- Reads a single-line string up to `close`; `done` is read already, newest first,
and `fuel` exceeds the length of the text. -/
def line? (escapes : Bool) (close : Char) (done : List Char) :
    (fuel : Nat) → List Char → Reading (List Char)
  | _, [] => none
  | 0, _ => none
  | fuel + 1, c :: rest =>
    if c == close then some (done.reverse, rest)
    else if c == '\\' && escapes then
      match escape? rest with
      | some (e, rest) => line? escapes close (e :: done) fuel rest
      | none => none
    else if isForbidden c then none
    else line? escapes close (c :: done) fuel rest

/-- Passes over the blanks and line ends behind a backslash at the end of a line. -/
def skipFold (lineEndSeen : Bool) : List Char → Option (List Char)
  | '\r' :: '\n' :: rest => skipFold true rest
  | '\n' :: rest => skipFold true rest
  | c :: rest =>
    if Text.isPad c then skipFold lineEndSeen rest
    else if lineEndSeen then some (c :: rest) else none
  | [] => if lineEndSeen then some [] else none

/-- How many quotes of a run in front of `rest` belong to the string, if the run
closes it: three close it, and up to two before them are part of it. -/
def closing? (run : Nat) : Option Nat := if run < 3 then none else some (min (run - 3) 2)

/-- Reads a string of several lines up to its closing quotes. -/
def lines? (escapes : Bool) (quote : Char) (done : List Char) :
    (fuel : Nat) → List Char → Reading (List Char)
  | _, [] => none
  | 0, _ => none
  | fuel + 1, c :: rest =>
    if c == quote then
      let run := (rest.takeWhile (· == quote)).length + 1
      match closing? run with
      | some kept => some ((List.replicate kept quote ++ done).reverse, rest.drop (kept + 2))
      | none => lines? escapes quote (c :: done) fuel rest
    else if c == '\\' && escapes then
      if rest.head?.any fun d => Text.isPad d || Text.isLineEnd d then
        match skipFold false rest with
        | some rest => lines? escapes quote done fuel rest
        | none => none
      else
        match escape? rest with
        | some (e, rest) => lines? escapes quote (e :: done) fuel rest
        | none => none
    else if c == '\n' || (c == '\r' && rest.head? == some '\n') then
      lines? escapes quote (c :: done) fuel rest
    else if isForbidden c then none
    else lines? escapes quote (c :: done) fuel rest

/-- Drops a line end right behind triple quotes. -/
def dropFirstLineEnd : List Char → List Char
  | '\n' :: rest => rest
  | '\r' :: '\n' :: rest => rest
  | s => s

/-- Whether a quote starts a basic string, which has escapes, or a literal one. -/
def quoteStyle? (c : Char) : Option Bool :=
  if c == '"' then some true else if c == '\x27' then some false else none

/-- Reads a single-line string. -/
def lineString? (s : List Char) : Reading String :=
  match s with
  | c :: rest =>
    match quoteStyle? c with
    | some escapes =>
      (line? escapes c [] (rest.length + 1) rest).map fun (s, rest) => (String.ofList s, rest)
    | none => none
  | [] => none

/-- Reads a string of any form. -/
def string? (s : List Char) : Reading String :=
  match s with
  | a :: b :: c :: rest =>
    if (quoteStyle? a).isSome && a == b && b == c then
      let inner := dropFirstLineEnd rest
      (lines? (a == '"') a [] (inner.length + 1) inner).map fun (s, rest) => (String.ofList s, rest)
    else lineString? s
  | s => lineString? s

/-! ### Writing -/

/-- The forms in which a string is written. -/
inductive StringForm where
  | basic
  | literal
  | basicLines
  | literalLines
deriving Repr, DecidableEq

/-- Whether `s` holds `c` three times in a row. -/
def hasTriple (c : Char) : List Char → Bool
  | x :: y :: z :: rest => (x == c && y == c && z == c) || hasTriple c (y :: z :: rest)
  | _ => false

/-- The form a string is written in: the first that can show it. -/
def formOf (s : List Char) : StringForm :=
  let controls := s.any fun c => isForbidden c && c != '\n'
  let feeds := s.contains '\n'
  let backslashes := s.contains '\\'
  if !controls && !backslashes && !feeds && !s.contains '"' then .basic
  else if !controls && !feeds && !s.contains '\x27' then .literal
  else if !controls && !backslashes && !hasTriple '"' s then .basicLines
  else if !controls && !hasTriple '\x27' s then .literalLines
  else if feeds then .basicLines
  else .basic

/-- The upper case hexadecimal digits of a number below `16 ^ count`. -/
def upperHex (n : Nat) : Nat → List Char
  | 0 => []
  | count + 1 =>
    let d := n / Nat.pow 16 count % 16
    (if d < 10 then Char.ofNat (48 + d) else Char.ofNat (55 + d)) :: upperHex n count

/-- A character of a basic string, the double quote and line feed apart. -/
def writeChar (c : Char) : List Char :=
  if c == '\x08' then ['\\', 'b']
  else if c == '\t' then ['\\', 't']
  else if c == '\x0c' then ['\\', 'f']
  else if c == '\r' then ['\\', 'r']
  else if c == '\\' then ['\\', '\\']
  else if Text.isControl c then ['\\', 'u'] ++ upperHex c.toNat 4
  else [c]

/-- A character of a basic string on a single line. -/
def writeLineChar (c : Char) : List Char :=
  if c == '"' then ['\\', '"'] else if c == '\n' then ['\\', 'n'] else writeChar c

/-- The characters of a basic string on several lines: line feeds stand as they
are, and so do double quotes up to the second of a run. -/
def writeLines (run : Nat) : List Char → List Char
  | [] => []
  | c :: rest =>
    if c == '"' then
      if run = 2 then ['\\', '"'] ++ writeLines 0 rest else '"' :: writeLines (run + 1) rest
    else if c == '\n' then '\n' :: writeLines 0 rest
    else writeChar c ++ writeLines 0 rest

/-- Writes a string. -/
def writeString (s : List Char) : List Char :=
  let start : List Char := if s.contains '\n' then ['\n'] else []
  let double := List.replicate 3 '"'
  let single := List.replicate 3 '\x27'
  match formOf s with
  | .basic => '"' :: s.flatMap writeLineChar ++ ['"']
  | .literal => '\x27' :: s ++ ['\x27']
  | .basicLines => double ++ start ++ writeLines 0 s ++ double
  | .literalLines => single ++ start ++ s ++ single

end Toml
end MarkdownHtml
