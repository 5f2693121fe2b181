/-
# Reading with one flat list

The plain way to read running text keeps one list of finished nodes, open runs of
delimiters and open brackets, and searches it. A closing run looks for the last open
run of its character behind the last bracket, again and again; what stands behind
that run is wrapped, open runs in it being literal text. A `]` looks for the last
bracket. Before one more item is opened, the oldest open one becomes text if
`max 1 limit` are open. There are no frames, no counters and no depths kept aside:
counts and depths are taken from the list when they are asked for, and text is joined
only when nodes are taken out.

Items stand newest first.

Key definitions: `Item`, `nodes`, `lastRun?`, `close`, `openItem`, `literalOldest`,
`closeBracket`, `step`, `run`, `parse`.
-/
import MarkdownHtml.Proofs.CodeSpans
import MarkdownHtml.Proofs.JoinedText
import MarkdownHtml.Inline.Parser

namespace MarkdownHtml
namespace Flat

/-! ### Items -/

/-- An entry of the list. -/
inductive Item where
  /-- A finished node. -/
  | node (n : Inline)
  /-- A run of `mark` that may open, `count` characters of which nothing has closed. -/
  | run (mark : Delimiter) (count : Nat)
  /-- The bracket of a link or an image; an inactive one can start no link any more. -/
  | bracket (image active : Bool)

namespace Item

/-- Whether the item is a run or a bracket. -/
def isOpen : Item → Bool
  | .node _ => false
  | _ => true

/-- Whether the item is a bracket. -/
def isBracket : Item → Bool
  | .bracket .. => true
  | _ => false

/-- Whether the search for an open run of `m` ends at the item: at such a run, or at a
bracket. -/
def stops (m : Delimiter) : Item → Bool
  | .node _ => false
  | .run k _ => k == m
  | .bracket .. => true

/-- The node an item is if nothing closes it. -/
def asNode : Item → Inline
  | .node n => n
  | .run m count => .text (String.ofList (List.replicate count m.char))
  | .bracket true _ => .text "!["
  | .bracket false _ => .text "["

/-- The item as literal text. -/
def literal (i : Item) : Item := .node i.asNode

/-- The item once a link is formed behind it: a link holds no link. -/
def deactivate : Item → Item
  | .bracket false _ => .bracket false false
  | i => i

end Item

/-- The nodes that items are, in reading order, open ones being text. -/
def nodes (items : List Item) : List Inline :=
  Inline.joinText (items.reverse.map Item.asNode)

/-! ### Closing delimiters -/

/-- The last open run of `m` behind the last bracket: the items behind it, its count, and
the items before it. -/
def lastRun? (m : Delimiter) (items : List Item) : Option (List Item × Nat × List Item) :=
  match items.dropWhile fun i => !i.stops m with
  | .run _ count :: before => some (items.takeWhile fun i => !i.stops m, count, before)
  | _ => none

/-- Wraps `children` with `used` of the `available` delimiters of the run in front of
them. -/
def wrap (limits : Limits) (m : Delimiter) (available used : Nat) (children : List Inline)
    (before : List Item) : Except ConversionError (List Item) :=
  if limits.maxNesting < 1 + Inline.nesting children then .error limits.nestingError
  else
    let node := if used = 2 then Inline.strong children else .emphasis children
    .ok (.node node ::
      if available = used then before else .run m (available - used) :: before)

/-- Closes runs with `count` delimiters as long as there are some and a run is open for
them. Returns how many are left over. -/
def close (limits : Limits) (m : Delimiter) (count : Nat) (items : List Item) :
    Except ConversionError (Nat × List Item) :=
  if _h : count = 0 then .ok (0, items)
  else
    match lastRun? m items with
    | none => .ok (count, items)
    | some (after, available, before) =>
      let used := if 2 ≤ count ∧ 2 ≤ available then 2 else 1
      match wrap limits m available used (nodes after) before with
      | .error e => .error e
      | .ok items => close limits m (count - used) items
termination_by count
decreasing_by split_ifs <;> omega

/-! ### Opening -/

/-- The oldest open item becomes text. -/
def literalOldest : List Item → List Item
  | [] => []
  | i :: older => if older.any Item.isOpen then i :: literalOldest older else i.literal :: older

/-- Appends an open item, if need be at the cost of the oldest. -/
def openItem (limits : Limits) (i : Item) (items : List Item) : List Item :=
  i :: if items.countP Item.isOpen < max 1 limits.maxNesting then items else literalOldest items

/-- Reads a run of `count` delimiters: it closes what it can, and what is left is open or
text. -/
def delimiterRun (limits : Limits) (m : Delimiter) (flanking : Flanking) (count : Nat)
    (items : List Item) : Except ConversionError (List Item) :=
  match if flanking.canClose then close limits m count items else .ok (count, items) with
  | .error e => .error e
  | .ok (count, items) =>
    if count = 0 then .ok items
    else if flanking.canOpen then .ok (openItem limits (.run m count) items)
    else .ok (Item.literal (.run m count) :: items)

/-! ### Brackets -/

/-- Reads a `]` with the text `after` behind it. Returns how many bytes of that text
belong to the link or image that ends here. -/
def closeBracket (limits : Limits) (after : List Char) (items : List Item) :
    Except ConversionError (Nat × List Item) :=
  let inner := items.takeWhile fun i => !i.isBracket
  match items.dropWhile fun i => !i.isBracket with
  | .bracket image active :: before =>
    match if active then LinkTail.read? after else none with
    | none =>
      let bracket := Item.literal (.bracket image active)
      .ok (0, .node (.text "]") :: inner.map Item.literal ++ bracket :: before)
    | some tail =>
      let href := String.ofList tail.destination
      let title := tail.title.map String.ofList
      if image then
        .ok (tail.size, .node (.image href (Inline.plainText (nodes inner)) title) :: before)
      else if limits.maxNesting < 1 + Inline.nesting (nodes inner) then .error limits.nestingError
      else .ok (tail.size, .node (.link href title (nodes inner)) :: before.map Item.deactivate)
  | _ => .ok (0, .node (.text "]") :: items)

/-! ### Whole texts -/

/-- Reads a run of backticks: a code span up to the first run of its length, or text.
Returns how many bytes behind the run belong to the span. -/
def backticks (t : Token) (rest : List Token) (items : List Item) : Nat × List Item :=
  match CodeSpan.closer? t rest with
  | none => (0, .node (.text t.content) :: items)
  | some n =>
    let raw := (rest.take n).flatMap Token.lexeme
    (Text.byteLength raw + Text.byteLength t.lexeme,
      .node (.code (String.ofList (CodeSpan.content raw))) :: items)

/-- Reads one token, with the tokens `rest` behind it. Returns how many bytes behind the
token are read with it. -/
def step (limits : Limits) (t : Token) (rest : List Token) (items : List Item) :
    Except ConversionError (Nat × List Item) :=
  let run (m : Delimiter) :=
    let flanking := Flanking.between m t.before t.after.head?
    (delimiterRun limits m flanking t.lexeme.length items).map (0, ·)
  match t.kind with
  | .backticks => .ok (backticks t rest items)
  | .stars => run .star
  | .underscores => run .underscore
  | .imageOpen => .ok (0, openItem limits (.bracket true true) items)
  | .leftBracket => .ok (0, openItem limits (.bracket false true) items)
  | .rightBracket => closeBracket limits t.after items
  | .escape => .ok (0, .node (.text (String.ofList (t.lexeme.drop 1))) :: items)
  | .hardBreak => .ok (0, .node .lineBreak :: items)
  | .softBreak => .ok (0, .node (.text "\n") :: items)
  | .leftParen | .rightParen | .blank | .text => .ok (0, .node (.text t.content) :: items)

/-- Reads tokens; those that start before offset `resume` are read already. -/
def run (limits : Limits) (resume : Nat) (items : List Item) :
    List Token → Except ConversionError (List Item)
  | [] => .ok items
  | t :: rest =>
    if t.start < resume then run limits resume items rest
    else
      match step limits t rest items with
      | .error e => .error e
      | .ok (more, items) => run limits (t.stop + more) items rest

/-- The nodes of running text, or the error that they nest too deep. -/
def parse (limits : Limits) (text : List Char) : Except ConversionError (List Inline) :=
  (run limits 0 [] (Token.ofText text)).map nodes

end Flat
end MarkdownHtml
