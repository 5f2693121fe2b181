/-
# Lines and what each is on its own

Block structure is read line by line, and the first step looks at one line alone:
how many quotes it stands in, how far the rest is indented, and what the rest
starts with. A fence goes before a heading, a heading before a rule, a rule
before a list marker; everything else is text. Deeper than three columns only a
list marker counts.

Key definitions: `LineKind`, `Line`, `Line.classify`.
-/
import MarkdownHtml.Line.Fence
import MarkdownHtml.Line.Heading
import MarkdownHtml.Line.Indent
import MarkdownHtml.Line.Marker
import MarkdownHtml.Line.Quote
import MarkdownHtml.Line.Rule

namespace MarkdownHtml

/-- What a line is, read on its own. -/
inductive LineKind where
  | blank
  | heading (heading : Heading)
  | rule
  | marker (marker : Marker)
  | fence (fence : Fence)
  | text (content : List Char)
deriving Repr, DecidableEq, Inhabited

/-- A line and its local facts. -/
structure Line where
  /-- Lines are numbered from 1. -/
  number : Nat
  /-- The line without its end. -/
  raw : List Char
  /-- The number of quote markers in front. -/
  quoteDepth : Nat
  /-- The indentation behind the quote markers, in columns. -/
  indent : Nat
  kind : LineKind
deriving Repr, DecidableEq, Inhabited

namespace Line

/-- The deepest indentation, in columns, at which a fence, a heading or a rule
is still one. -/
def maxMarkerIndent : Nat := 3

/-- What an unindented text starts with; the order of the tests is the order of
precedence. -/
def kindOfText (text : List Char) : LineKind :=
  match Fence.read? text with
  | some fence => .fence fence
  | none =>
    match Heading.read? text with
    | some heading => .heading heading
    | none =>
      if isRule text then .rule
      else
        match Marker.read? text with
        | some marker => .marker marker
        | none => .text text

/-- What a text behind `indent` columns of blanks is. -/
def kindOf (indent : Nat) (text : List Char) : LineKind :=
  if text.all Text.isWhite then .blank
  else if indent ≤ maxMarkerIndent then kindOfText text
  else
    match Marker.read? text with
    | some marker => .marker marker
    | none => .text text

/-- Reads the local facts off a line. -/
def classify (number : Nat) (raw : List Char) : Line :=
  let unquoted := stripAll raw
  let indent := columns (unquoted.rest.takeWhile Text.isPad)
  { number, raw, quoteDepth := unquoted.depth, indent,
    kind := kindOf indent (unquoted.rest.dropWhile Text.isPad) }

end Line
end MarkdownHtml
