/-
# Outlines of documents

An outline shows a document tree with one node to a line, children indented by two
spaces, and every text quoted, so that two trees can be compared by eye. Which
characters a quoted text shows by their number is a parameter of all that is written
here but the outline itself.

Key definitions: `Outline.inlineLine`, `Outline.blockLine`, `Document.outlineBy`,
`Document.outline`.
-/
import MarkdownHtml.Document
import MarkdownHtml.Text.Quoted

namespace MarkdownHtml
namespace Outline

open Text

/-- Appends a line of an outline. -/
def appendLine (out : String) (indent : Nat) (line : String) : String :=
  out ++ String.ofList (List.replicate (2 * indent) ' ') ++ line ++ "\n"

variable (hidden : Char → Bool)

/-- What the line of an inline node says. -/
def inlineLine : Inline → String
  | .text s => "Text " ++ quotedBy hidden s
  | .code s => "CodeSpan " ++ quotedBy hidden s
  | .emphasis _ => "Emphasis"
  | .strong _ => "Strong"
  | .link href title _ =>
    "Link " ++ quotedBy hidden href ++ " title=" ++ quotedOptionBy hidden title
  | .image source alt title =>
    "Image " ++ quotedBy hidden source ++ " alt=" ++ quotedBy hidden alt ++ " title=" ++
      quotedOptionBy hidden title
  | .lineBreak => "LineBreak"

/-- The marker of a list item. -/
def markerText : ListKind → String
  | .bullet mark => mark.toString
  | .ordered start delimiter => toString start ++ delimiter.toString

/-- What the line of a block says. -/
def blockLine : Block → String
  | .paragraph _ => "Paragraph"
  | .heading level _ => "Heading(" ++ toString level ++ ")"
  | .item list depth _ => "ListItem(" ++ markerText list ++ " depth=" ++ toString depth ++ ")"
  | .code language raw => "CodeBlock(" ++ language.getD "" ++ ") " ++ quotedBy hidden raw
  | .quote _ => "BlockQuote"
  | .rule => "ThematicBreak"

mutual

/-- Appends the lines of a node and its children. -/
def appendInline (indent : Nat) (out : String) : Inline → String
  | .emphasis children =>
    appendInlines (indent + 1) (appendLine out indent (inlineLine hidden (.emphasis children)))
      children
  | .strong children =>
    appendInlines (indent + 1) (appendLine out indent (inlineLine hidden (.strong children)))
      children
  | .link href title children =>
    appendInlines (indent + 1)
      (appendLine out indent (inlineLine hidden (.link href title children))) children
  | node => appendLine out indent (inlineLine hidden node)

/-- Appends the lines of several nodes. -/
def appendInlines (indent : Nat) (out : String) : List Inline → String
  | [] => out
  | n :: ns => appendInlines indent (appendInline indent out n) ns

end

mutual

/-- Appends the lines of a block and what it holds. -/
def appendBlock (indent : Nat) (out : String) : Block → String
  | .paragraph content =>
    appendInlines hidden (indent + 1)
      (appendLine out indent (blockLine hidden (.paragraph content))) content
  | .heading level content =>
    appendInlines hidden (indent + 1)
      (appendLine out indent (blockLine hidden (.heading level content))) content
  | .item list depth content =>
    appendInlines hidden (indent + 1)
      (appendLine out indent (blockLine hidden (.item list depth content))) content
  | .quote inner =>
    appendBlocks (indent + 1) (appendLine out indent (blockLine hidden (.quote inner))) inner
  | block => appendLine out indent (blockLine hidden block)

/-- Appends the lines of several blocks. -/
def appendBlocks (indent : Nat) (out : String) : List Block → String
  | [] => out
  | b :: bs => appendBlocks indent (appendBlock indent out b) bs

end

end Outline

/-- The outline of a document. -/
def Document.outlineBy (hidden : Char → Bool) (doc : Document) : String :=
  Outline.appendBlocks hidden 0 "" doc

/-- The outline of a document, hidden characters being those that leave no mark on a
page. -/
def Document.outline (doc : Document) : String := doc.outlineBy Text.isHidden

end MarkdownHtml
