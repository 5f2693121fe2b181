/-
# Cutting a text into lines

A line ends at a line feed, at a carriage return, or at the two together. An end
behind the last line starts no further line. A reader stands between two lines;
being a value, it can be kept and read from again.

Key definitions: `LineReader`, `LineReader.next?`, `LineReader.toList`,
`Line.ofText`.
-/
import MarkdownHtml.Line.Basic

namespace MarkdownHtml

/-- A place between two lines of a text. -/
structure LineReader where
  /-- The text that is still to be read. -/
  rest : List Char
  /-- How many lines are read already. -/
  number : Nat := 0
deriving Repr, DecidableEq, Inhabited

namespace LineReader

/-- Drops one line end. -/
def dropLineEnd : List Char → List Char
  | '\r' :: '\n' :: rest => rest
  | _ :: rest => rest
  | [] => []

/-- The first line of a text. -/
def firstLine (s : List Char) : List Char := s.takeWhile fun c => !Text.isLineEnd c

/-- The text behind its first line. -/
def afterLine (s : List Char) : List Char :=
  dropLineEnd (s.dropWhile fun c => !Text.isLineEnd c)

/-- Starts in front of the first line. -/
def ofText (s : List Char) : LineReader := { rest := s }

/-- Reads one line, if there is one. -/
def next? (r : LineReader) : Option (Line × LineReader) :=
  if r.rest.isEmpty then none
  else
    some (Line.classify (r.number + 1) (firstLine r.rest), ⟨afterLine r.rest, r.number + 1⟩)

/-- Cuts a text into its lines. `line` is the line so far and `done` holds the lines
before, both newest first. -/
def split (line : List Char) (done : List (List Char)) : List Char → List (List Char)
  | [] => (if line.isEmpty then done else line.reverse :: done).reverse
  | '\r' :: '\n' :: rest => split [] (line.reverse :: done) rest
  | c :: rest =>
    if Text.isLineEnd c then split [] (line.reverse :: done) rest
    else split (c :: line) done rest

/-- All lines that are still to be read. -/
def toList (r : LineReader) : List Line :=
  (split [] [] r.rest).mapIdx fun i raw => Line.classify (r.number + i + 1) raw

end LineReader

/-- The lines of a text. -/
def Line.ofText (s : List Char) : List Line := (LineReader.ofText s).toList

end MarkdownHtml
