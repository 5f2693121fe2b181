/-
# Documents as HTML

Blocks are written in order, each followed by a line feed, and inline nodes from
left to right. List items come with their depth only, so the writer keeps the list
levels that are open, each with an open item: a deeper item opens levels, a
shallower one closes them, and one at the same depth goes on with the list if its
marker does, or starts another. Levels that are missing in between get empty
items.

Output is collected newest first.

Key definitions: `Render.nodes`, `Render.openItem`, `Render.blocks`,
`Document.pieces`, `Document.toHtml`, `Document.droppedUrls`.
-/
import MarkdownHtml.Document
import MarkdownHtml.Html.Piece
import MarkdownHtml.Html.Url
import MarkdownHtml.Options

namespace MarkdownHtml
namespace Render

open Html

/-- The value of an address attribute: empty if the address is unsafe and
addresses are filtered. -/
def address (options : RenderOptions) (use : Url.Use) (url : String) : String :=
  if options.filterUrls && !Url.isSafe use url.toList then "" else Url.percentEncode url

/-- The attribute of a title, if there is one. -/
def titleAttribute : Option String → List Attribute
  | none => []
  | some title => [⟨.title, title⟩]

mutual

/-- Writes one inline node. -/
def node (options : RenderOptions) (out : List Piece) : Inline → List Piece
  | .text s => .text s :: out
  | .emphasis children =>
    .stop .emphasis :: nodes options (.start .emphasis [] :: out) children
  | .strong children => .stop .strong :: nodes options (.start .strong [] :: out) children
  | .code s => .stop .code :: .text s :: .start .code [] :: out
  | .link href title children =>
    .stop .link ::
      nodes options
        (.start .link (⟨.href, address options .link href⟩ :: titleAttribute title) :: out)
        children
  | .image source alt title =>
    .void .image
      (⟨.source, address options .image source⟩ :: ⟨.alt, alt⟩ :: titleAttribute title) :: out
  | .lineBreak => .lineFeed :: .void .lineBreak [] :: out

/-- Writes inline nodes in order. -/
def nodes (options : RenderOptions) (out : List Piece) : List Inline → List Piece
  | [] => out
  | n :: ns => nodes options (node options out n) ns

end

/-- The element of a list. -/
def listTag : ListKind → Tag
  | .bullet _ => .bulletList
  | .ordered .. => .orderedList

/-- The attributes of a list: its first number, if that is not 1. -/
def listAttributes : ListKind → List Attribute
  | .bullet _ => []
  | .ordered start _ => if start = 1 then [] else [⟨.start, toString start⟩]

/-- The output and the list levels that are open in it, innermost first. -/
structure Writer where
  out : List Piece := []
  lists : List ListKind := []

namespace Writer

/-- Closes the `n` innermost levels. -/
def closeMany : Nat → Writer → Writer
  | n + 1, ⟨out, list :: lists⟩ =>
    closeMany n
      ⟨.lineFeed :: .stop (listTag list) :: .lineFeed :: .stop .item :: out, lists⟩
  | _, w => w

/-- Closes levels until at most `keep` are open. -/
def closeTo (keep : Nat) (w : Writer) : Writer := w.closeMany (w.lists.length - keep)

/-- Opens a list; inside an item it starts on a line of its own. -/
def openList (list : ListKind) (w : Writer) : Writer :=
  let out := if !w.lists.isEmpty && !endsLine w.out then .lineFeed :: w.out else w.out
  ⟨.lineFeed :: .start (listTag list) (listAttributes list) :: out, list :: w.lists⟩

/-- Opens `n` lists, with an empty item between each two. -/
def openMany (list : ListKind) : Nat → Writer → Writer
  | 0, w => w
  | 1, w => w.openList list
  | n + 2, w =>
    let w := w.openList list
    openMany list (n + 1) { w with out := .start .item [] :: w.out }

/-- Goes on with the innermost list, or starts another in its place. -/
def nextItem (list : ListKind) (depth : Nat) (w : Writer) : Writer :=
  match w.lists with
  | current :: _ =>
    if current.continues list then { w with out := .lineFeed :: .stop .item :: w.out }
    else (w.closeTo depth).openList list
  | [] => w

/-- Opens an item of `list` at `depth`. -/
def openItem (list : ListKind) (depth : Nat) (w : Writer) : Writer :=
  let w := w.closeTo (depth + 1)
  let w := if w.lists.length = depth + 1 then w.nextItem list depth
    else w.openMany list (depth + 1 - w.lists.length)
  { w with out := .start .item [] :: w.out }

end Writer

/-- The attributes of the code element of a code block. -/
def languageAttributes (options : RenderOptions) : Option String → List Attribute
  | none => []
  | some language => [⟨.language, options.languageStem ++ language⟩]

mutual

/-- Writes one block. Every block but a list item closes all lists first. -/
def block (options : RenderOptions) (w : Writer) : Block → Writer
  | .item list depth content =>
    let w := w.openItem list depth
    { w with out := nodes options w.out content }
  | .paragraph content =>
    let w := w.closeTo 0
    ⟨.lineFeed :: .stop .paragraph :: nodes options (.start .paragraph [] :: w.out) content,
      w.lists⟩
  | .heading level content =>
    let w := w.closeTo 0
    ⟨.lineFeed :: .stop (.heading level) ::
      nodes options (.start (.heading level) [] :: w.out) content, w.lists⟩
  | .code language raw =>
    let w := w.closeTo 0
    ⟨.lineFeed :: .stop .preformatted :: .stop .code :: .text raw ::
      .start .code (languageAttributes options language) :: .start .preformatted [] :: w.out,
      w.lists⟩
  | .quote inner =>
    let w := w.closeTo 0
    let inside := blocks options ⟨.lineFeed :: .start .quote [] :: w.out, []⟩ inner
    ⟨.lineFeed :: .stop .quote :: inside.out, w.lists⟩
  | .rule =>
    let w := w.closeTo 0
    ⟨.lineFeed :: .void .rule [] :: w.out, w.lists⟩

/-- Writes blocks in order and closes the lists that are open behind the last. -/
def blocks (options : RenderOptions) (w : Writer) : List Block → Writer
  | [] => w.closeTo 0
  | b :: bs => blocks options (block options w b) bs

end

/-- Writes a chunk of blocks behind what is written already. -/
def chunk (options : RenderOptions) (out : List Piece) (doc : Document) : List Piece :=
  (blocks options ⟨out, []⟩ doc).out

mutual

/-- The addresses in one node that are left out as unsafe, onto `found`, newest
first. -/
def blockedInNode (found : List String) : Inline → List String
  | .emphasis children => blockedInNodes found children
  | .strong children => blockedInNodes found children
  | .link href _ children =>
    blockedInNodes (if Url.isSafe .link href.toList then found else href :: found) children
  | .image source _ _ => if Url.isSafe .image source.toList then found else source :: found
  | _ => found

/-- The unsafe addresses in a list of nodes. -/
def blockedInNodes (found : List String) : List Inline → List String
  | [] => found
  | n :: ns => blockedInNodes (blockedInNode found n) ns

end

mutual

/-- The unsafe addresses in one block. -/
def blockedInBlock (found : List String) : Block → List String
  | .item _ _ content => blockedInNodes found content
  | .paragraph content => blockedInNodes found content
  | .heading _ content => blockedInNodes found content
  | .quote inner => blockedInBlocks found inner
  | _ => found

/-- The unsafe addresses in a list of blocks. -/
def blockedInBlocks (found : List String) : List Block → List String
  | [] => found
  | b :: bs => blockedInBlocks (blockedInBlock found b) bs

end

end Render

/-- The pieces of a document, in order. -/
def Document.pieces (doc : Document) (options : RenderOptions) : List Html.Piece :=
  (Render.chunk options [] doc).reverse

/-- A document as HTML. -/
def Document.toHtml (doc : Document) (options : RenderOptions) : String :=
  Html.write (doc.pieces options)

/-- Several runs of blocks written one behind the other. -/
def Document.chunksToHtml (chunks : List Document) (options : RenderOptions) : String :=
  Html.write (chunks.foldl (Render.chunk options) []).reverse

/-- The addresses that rendering leaves out, in document order. -/
def Document.droppedUrls (doc : Document) (options : RenderOptions) : List String :=
  if options.filterUrls then (Render.blockedInBlocks [] doc).reverse else []

end MarkdownHtml
