/-
# Building blocks line by line

The builder takes classified lines in order. Quotes live on the quote path, list
levels on the list stack, and at most one leaf block is open: a paragraph, the
text of a list item, or fenced code. A line extends the open leaf or closes it
(`flush`); running text is read when its leaf closes.

Taking a line can fail, because lists, quotes or formatting nest past the limit.
The builder is then left as far as it got, and can take further lines: an
`Attempt` is the builder after a step together with the failure, if there was one.

Key definitions: `Leaf`, `Builder`, `Attempt`, `joinLines`, `Builder.flush`,
`Builder.push`, `Builder.finish`.
-/
import MarkdownHtml.Block.ListStack
import MarkdownHtml.Block.QuotePath
import MarkdownHtml.Event
import MarkdownHtml.Inline.Parser
import MarkdownHtml.Line.Basic

namespace MarkdownHtml

/-- The leaf block that is open. Lines are kept newest first. -/
inductive Leaf where
  | none
  | paragraph (lines : List (List Char))
  | item (list : ListKind) (depth : Nat) (lines : List (List Char))
  /-- Fenced code; `indent` is the indentation of its opening fence. -/
  | code (fence : FenceKind) (length indent : Nat) (language : Option String)
    (lines : List (List Char))
deriving Repr, Inhabited

/-- The state between two lines. -/
structure Builder where
  limits : Limits
  path : QuotePath := {}
  lists : ListStack := []
  leaf : Leaf := .none
  /-- What happened so far, newest first. -/
  events : List Event := []
deriving Repr, Inhabited

/-- A builder after a step, and the failure the step met. -/
structure Attempt where
  builder : Builder
  failure : Option ConversionError := none

namespace Attempt

/-- Goes on with a further step unless the one before failed. -/
def andThen (a : Attempt) (next : Builder → Attempt) : Attempt :=
  match a.failure with
  | none => next a.builder
  | some _ => a

/-- A step that cannot fail. -/
def done (b : Builder) : Attempt := { builder := b }

@[simp] theorem andThen_done (b : Builder) (next : Builder → Attempt) :
    (done b).andThen next = next b := rfl

end Attempt

/-- The lines of a text block joined for reading: white space in front of each
line and behind the last is dropped, and a line feed stands between lines. -/
def joinLines (lines : List (List Char)) : List Char :=
  Text.trimEnd (List.intercalate ['\n'] (lines.map Text.trimStart))

/-- The content of fenced code: every line with a line feed behind it. -/
def codeText (lines : List (List Char)) : List Char := lines.flatMap (· ++ ['\n'])

namespace Builder

/-- Records an event. -/
def note (event : Event) (b : Builder) : Builder := { b with events := event :: b.events }

/-- Appends a block to the innermost quote. -/
def emit (block : Block) (b : Builder) : Builder := { b with path := b.path.push block }

/-- Records the openers that reading running text gave up. -/
def noteDropped (reading : InlineReading) (b : Builder) : Builder :=
  { b with events := List.replicate reading.dropped .openerDropped ++ b.events }

/-- Reads running text and hands its nodes on. -/
def readInline (text : List Char) (next : List Inline → Builder → Builder) (b : Builder) :
    Attempt :=
  let reading := Inline.read b.limits text
  let b := b.noteDropped reading
  match reading.nodes with
  | .ok nodes => .done (next nodes b)
  | .error e => ⟨b, some e⟩

/-- Appends the block of a leaf that closes. -/
def emitLeaf (kind : LeafKind) (block : Block) (b : Builder) : Builder :=
  (b.note (.closed kind)).emit block

/-- Closes the open leaf. -/
def flush (b : Builder) : Attempt :=
  let rest := { b with leaf := .none }
  match b.leaf with
  | .none => .done rest
  | .paragraph lines =>
    rest.readInline (joinLines lines.reverse) fun nodes => emitLeaf .paragraph (.paragraph nodes)
  | .item list depth lines =>
    rest.readInline (joinLines lines.reverse) fun nodes => emitLeaf .item (.item list depth nodes)
  | .code _ _ _ language lines =>
    .done (rest.emitLeaf .code (.code language (String.ofList (codeText lines.reverse))))

/-- Closes the open leaf and every list. -/
def flushAll (b : Builder) : Attempt := b.flush.andThen fun b => .done { b with lists := [] }

/-- The error that something nests past the limit, with a report of it. -/
def refuse (event : Event) (b : Builder) : Attempt := ⟨b.note event, some b.limits.nestingError⟩

/-- The rest of a line inside the open quotes, as fenced code sees it. -/
def unquote (line : Line) (b : Builder) : List Char :=
  (Line.stripAtMost b.path.depth line.raw).rest

/-- Whether a line of fenced code closes it. -/
def closesCode (kind : FenceKind) (length : Nat) (content : List Char) : Bool :=
  (content.takeWhile Text.isPad).length ≤ Line.maxMarkerIndent &&
    Fence.closes kind length (Fence.read? (content.dropWhile Text.isPad))

/-- The marker that starts the text of an item, unless the text is a rule. -/
def innerMarker? (content : List Char) : Option Marker :=
  if Line.isRule content then none else Marker.read? content

/-- Opens the items of the markers that start a line, one inside the other. The
text behind a marker gets shorter with every marker, and `fuel` exceeds its
length. -/
def openItem : (fuel : Nat) → (indent : Nat) → Marker → Builder → Attempt
  | 0, _, _, b => .done b
  | fuel + 1, indent, marker, b =>
    let (depth, lists) := b.lists.placing indent marker.width
    let b := { b with lists }
    if b.limits.maxNesting ≤ depth then b.refuse (.listTooDeep depth)
    else
      match innerMarker? marker.content with
      | some inner =>
        openItem fuel (indent + marker.width) inner (b.emit (.item marker.list depth []))
      | none => .done { b with leaf := .item marker.list depth [marker.content] }

/-- One marker of a line, by the depth and the levels that placing it gives. -/
theorem openItem_succ {indent depth : Nat} {marker : Marker} {lists : ListStack} {b : Builder}
    (h : b.lists.placing indent marker.width = (depth, lists)) (fuel : Nat) :
    b.openItem (fuel + 1) indent marker =
      if b.limits.maxNesting ≤ depth then { b with lists }.refuse (.listTooDeep depth)
      else
        match innerMarker? marker.content with
        | some inner =>
          openItem fuel (indent + marker.width) inner
            ({ b with lists }.emit (.item marker.list depth []))
        | none => .done { b with lists, leaf := .item marker.list depth [marker.content] } := by
  obtain ⟨rfl, rfl⟩ := Prod.mk.inj h
  rfl

/-- Adds a line of text to the open paragraph or item, or starts a paragraph. -/
def extendText (text : List Char) (b : Builder) : Builder :=
  match b.leaf with
  | .paragraph lines => { b with leaf := .paragraph (text :: lines) }
  | .item list depth lines => { b with leaf := .item list depth (text :: lines) }
  | _ => { b with leaf := .paragraph [text] }

/-- Opens and closes quotes for a line that stands `depth` quotes deep. -/
def enterQuotes (line : Line) (b : Builder) : Attempt :=
  if b.limits.maxNesting < line.quoteDepth then
    b.refuse (.quoteTooDeep line.number line.quoteDepth)
  else if line.quoteDepth = b.path.depth then .done b
  else b.flushAll.andThen fun b => .done { b with path := b.path.setDepth line.quoteDepth }

/-- Takes a line that is not inside fenced code, its quotes being open. -/
def takeKind (line : Line) (b : Builder) : Attempt :=
  match line.kind with
  | .blank => b.flushAll
  | .fence fence => b.flushAll.andThen fun b =>
    .done { b with
      leaf := .code fence.kind fence.length line.indent (Fence.language? fence.info) [] }
  | .heading heading => b.flushAll.andThen fun b =>
    b.readInline heading.text fun nodes => emit (.heading heading.level nodes)
  | .rule => b.flushAll.andThen fun b => .done (b.emit .rule)
  | .marker marker => b.flush.andThen fun b =>
    b.openItem (marker.content.length + 1) line.indent marker
  | .text text => .done (b.extendText text)

/-- Takes a line that is not inside fenced code. -/
def takeLine (line : Line) (b : Builder) : Attempt :=
  (b.enterQuotes line).andThen (takeKind line)

/-- Takes the next line. Inside fenced code a line with enough quote markers
closes the code or belongs to it; one with fewer ends the quote and the code in
it. -/
def push (line : Line) (b : Builder) : Attempt :=
  match b.leaf with
  | .code kind length indent language lines =>
    if b.path.depth ≤ line.quoteDepth then
      let content := b.unquote line
      if closesCode kind length content then b.flush
      else
        .done { b with
          leaf := .code kind length indent language (Line.stripIndent content indent :: lines) }
    else b.flush.andThen (takeLine line)
  | _ => b.takeLine line

/-- Takes lines until one fails. -/
def pushAll : List Line → Builder → Attempt
  | [], b => .done b
  | line :: lines, b =>
    match b.push line with
    | ⟨b, none⟩ => pushAll lines b
    | failed => failed

/-- Closes what is open at the end of the text; code without a closing fence ends
there. -/
def finish (b : Builder) : Attempt := b.flush

/-- The blocks of a builder with no open leaf. -/
def blocks (b : Builder) : List Block := b.path.finish

end Builder
end MarkdownHtml
