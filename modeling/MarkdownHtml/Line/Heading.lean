/-
# Headings

One to six `#` and then a blank or the end of the line make a heading. Its text
is trimmed, and a closing run of `#` goes if a blank stands before it or if
nothing else is left.

Key definitions: `Heading`, `Heading.read?`.
-/
import MarkdownHtml.Text.Space

namespace MarkdownHtml

/-- A heading line. -/
structure Heading where
  level : Nat
  text : List Char
deriving Repr, DecidableEq, Inhabited

namespace Heading

/-- Drops a closing run of `#`, where it counts as one. -/
def stripClosing (content : List Char) : List Char :=
  let kept := Text.dropEndWhile (· == '#') content
  if kept.isEmpty then []
  else if kept.length != content.length && kept.getLast?.any Text.isPad then Text.trimEnd kept
  else content

/-- Reads a heading from a text without indentation. -/
def read? (text : List Char) : Option Heading :=
  let level := (text.takeWhile (· == '#')).length
  let rest := text.dropWhile (· == '#')
  if level = 0 ∨ 6 < level then none
  else if Text.padOrEnd rest then some ⟨level, stripClosing (Text.trim rest)⟩
  else none

end Heading
end MarkdownHtml
