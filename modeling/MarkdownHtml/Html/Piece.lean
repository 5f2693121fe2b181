/-
# HTML as a sequence of pieces

Output is a sequence of start tags, end tags, void tags, text and line feeds. A
piece holds its text unescaped; writing it escapes what stands between tags and
what stands in attributes, each in its own way, so no text can end up as a tag.

Key definitions: `Tag`, `Attribute`, `Piece`, `Piece.appendTo`, `Html.write`,
`Html.endsLine`.
-/
import MarkdownHtml.Html.Escape

namespace MarkdownHtml
namespace Html

/-- The elements that are written. -/
inductive Tag where
  | paragraph
  | heading (level : Nat)
  | preformatted
  | code
  | quote
  | bulletList
  | orderedList
  | item
  | emphasis
  | strong
  | link
  | rule
  | lineBreak
  | image
deriving Repr, DecidableEq

/-- The name of an element. -/
def Tag.name : Tag → String
  | .paragraph => "p"
  | .heading level => "h" ++ toString level
  | .preformatted => "pre"
  | .code => "code"
  | .quote => "blockquote"
  | .bulletList => "ul"
  | .orderedList => "ol"
  | .item => "li"
  | .emphasis => "em"
  | .strong => "strong"
  | .link => "a"
  | .rule => "hr"
  | .lineBreak => "br"
  | .image => "img"

/-- The attributes that are written. -/
inductive AttributeName where
  | language
  | start
  | href
  | source
  | alt
  | title
deriving Repr, DecidableEq

/-- The text of an attribute's name. -/
def AttributeName.text : AttributeName → String
  | .language => "class"
  | .start => "start"
  | .href => "href"
  | .source => "src"
  | .alt => "alt"
  | .title => "title"

/-- An attribute and its value, unescaped. -/
structure Attribute where
  name : AttributeName
  value : String
deriving Repr, DecidableEq

/-- One piece of output. -/
inductive Piece where
  | start (tag : Tag) (attributes : List Attribute)
  | stop (tag : Tag)
  /-- An element without content. -/
  | void (tag : Tag) (attributes : List Attribute)
  | text (content : String)
  | lineFeed
deriving Repr, DecidableEq

/-- Appends an attribute, with the space before it. -/
def Attribute.appendTo (out : String) (a : Attribute) : String :=
  out ++ " " ++ a.name.text ++ "=\"" ++ escapeAttribute a.value ++ "\""

/-- Appends a piece. -/
def Piece.appendTo (out : String) : Piece → String
  | .start tag attributes => attributes.foldl Attribute.appendTo (out ++ "<" ++ tag.name) ++ ">"
  | .stop tag => out ++ "</" ++ tag.name ++ ">"
  | .void tag attributes => attributes.foldl Attribute.appendTo (out ++ "<" ++ tag.name) ++ " />"
  | .text s => out ++ escapeText s
  | .lineFeed => out.push '\n'

/-- The text of the pieces. -/
def write (pieces : List Piece) : String := pieces.foldl Piece.appendTo ""

/-- Whether output whose pieces are `out`, newest first, ends with a line feed. -/
def endsLine : List Piece → Bool
  | [] => false
  | .lineFeed :: _ => true
  | .text s :: out =>
    match s.toList.getLast? with
    | some c => c == '\n'
    | none => endsLine out
  | _ :: _ => false

end Html
end MarkdownHtml
