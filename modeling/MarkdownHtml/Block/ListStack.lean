/-
# The list levels that are open

A marker nests in the item above if it reaches the column of that item's text.
Otherwise it closes deeper levels and becomes a sibling; indentation that does not
line up is never an error.

Key definitions: `ListLevel`, `ListStack`, `ListStack.unwind`, `ListStack.place`,
`ListStack.placing`.
-/

namespace MarkdownHtml

/-- An open list level: the columns of its marker and of its text. -/
structure ListLevel where
  marker : Nat
  content : Nat
deriving Repr, DecidableEq, Inhabited

/-- The open list levels, innermost first. -/
abbrev ListStack := List ListLevel

namespace ListStack

/-- The levels around a marker in column `indent`: levels whose text lies further
right are closed, up to and including the first whose marker does not. -/
def unwind (indent : Nat) : ListStack → ListStack
  | [] => []
  | top :: below =>
    if top.content ≤ indent then top :: below
    else if top.marker ≤ indent then below
    else unwind indent below

/-- Opens a level for a marker in column `indent` that is `width` wide. -/
def place (indent width : Nat) (levels : ListStack) : ListStack :=
  ⟨indent, indent + width⟩ :: unwind indent levels

/-- What placing a marker gives: the depth of its item, which is the number of levels
around it, and the levels that are open then. -/
def placing (indent width : Nat) (levels : ListStack) : Nat × ListStack :=
  ((levels.unwind indent).length, levels.place indent width)

end ListStack
end MarkdownHtml
