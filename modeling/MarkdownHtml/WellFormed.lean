/-
# Well-formed document trees

Every tree that parsing gives has headings of levels 1 to 6, list items that go at
most one level deeper than the item before them, formatting no deeper than the
limit, and text that is never empty and never next to other text.
`Document.violation?` looks for the first place where a tree breaks one of these
rules.

Key definitions: `Violation`, `Violation.message`, `Document.violation?`.
-/
import MarkdownHtml.Document
import MarkdownHtml.Options
import MarkdownHtml.Text.Quoted

namespace MarkdownHtml

/-- A rule that a tree breaks. -/
inductive Violation where
  | headingLevel (level : Nat)
  | depthJump (depth allowed : Nat)
  | nesting (depth limit : Nat)
  | adjacentText (first second : String)
  | emptyText
deriving Repr, DecidableEq

/-- What a violation says to a reader. -/
def Violation.message : Violation → String
  | .headingLevel level => s!"heading level out of range: {level}"
  | .depthJump depth allowed =>
    s!"list item jumps to depth {depth}, previous allows at most {allowed}"
  | .nesting depth limit => s!"inline nesting {depth} exceeds {limit}"
  | .adjacentText first second =>
    "adjacent text nodes: [Text(" ++ Text.quoted first ++ "), Text(" ++ Text.quoted second ++ ")]"
  | .emptyText => "empty text node"

namespace WellFormed

/-- The first two text nodes that stand side by side. -/
def adjacent? : List Inline → Option Violation
  | .text a :: .text b :: _ => some (.adjacentText a b)
  | _ :: rest => adjacent? rest
  | [] => none

mutual

/-- The first broken rule on text inside one node. -/
def inNode? : Inline → Option Violation
  | .text s => if s.isEmpty then some .emptyText else none
  | .emphasis children => (adjacent? children).or (inNodes? children)
  | .strong children => (adjacent? children).or (inNodes? children)
  | .link _ _ children => (adjacent? children).or (inNodes? children)
  | _ => none

/-- The first broken rule on text inside one of the nodes. -/
def inNodes? : List Inline → Option Violation
  | [] => none
  | n :: ns =>
    match inNode? n with
    | none => inNodes? ns
    | found => found

end

/-- The first broken rule in running text: on its nesting, on neighbours, and then
inside its nodes. -/
def inText? (limits : Limits) (nodes : List Inline) : Option Violation :=
  let depth := Inline.nesting nodes
  if limits.maxNesting < depth then some (.nesting depth limits.maxNesting)
  else (adjacent? nodes).or (inNodes? nodes)

/-- The depth a block leaves for the list item behind it. -/
def depthAfter : Block → Option Nat
  | .item _ depth _ => some depth
  | _ => none

/-- The deepest an item may be behind a block that left `previous`. -/
def allowedDepth (previous : Option Nat) : Nat :=
  match previous with
  | none => 0
  | some depth => depth + 1

mutual

/-- The first broken rule in a block behind one that left `previous`. -/
def inBlock? (limits : Limits) (previous : Option Nat) : Block → Option Violation
  | .heading level content =>
    if 1 ≤ level ∧ level ≤ 6 then inText? limits content else some (.headingLevel level)
  | .item _ depth content =>
    if depth ≤ allowedDepth previous then inText? limits content
    else some (.depthJump depth (allowedDepth previous))
  | .paragraph content => inText? limits content
  | .quote inner => inBlocks? limits none inner
  | _ => none

/-- The first broken rule in a list of blocks. -/
def inBlocks? (limits : Limits) (previous : Option Nat) : List Block → Option Violation
  | [] => none
  | b :: bs =>
    match inBlock? limits previous b with
    | none => inBlocks? limits (depthAfter b) bs
    | found => found

end

end WellFormed

/-- The first rule that a document breaks, if it breaks one. -/
def Document.violation? (doc : Document) (limits : Limits) : Option Violation :=
  WellFormed.inBlocks? limits none doc

end MarkdownHtml
