/-
# The document tree

A document is a list of blocks; blocks hold inline nodes or further blocks, and
every node owns its children. List items are kept flat: an item carries its
nesting depth, and rendering rebuilds the nested lists from the depths.

Key definitions: `Inline`, `ListKind`, `Block`, `Document`, `Inline.plainText`,
`Inline.nesting`.
-/

namespace MarkdownHtml

/-- A piece of running text. -/
inductive Inline where
  /-- Literal text; a soft line break is a line feed in it. -/
  | text (content : String)
  | emphasis (children : List Inline)
  | strong (children : List Inline)
  /-- Code inside a line, never parsed further. -/
  | code (content : String)
  | link (href : String) (title : Option String) (children : List Inline)
  | image (source : String) (alt : String) (title : Option String)
  | lineBreak
deriving Repr, Inhabited

/-- The list an item belongs to, as its marker tells. -/
inductive ListKind where
  | bullet (mark : Char)
  | ordered (start : Nat) (delimiter : Char)
deriving Repr, DecidableEq, Inhabited

/-- Whether an item of the second kind goes on with a list of the first: the
bullets are the same, or the delimiters are, whatever the numbers. -/
def ListKind.continues : ListKind → ListKind → Bool
  | .bullet a, .bullet b => a == b
  | .ordered _ a, .ordered _ b => a == b
  | _, _ => false

/-- A unit of whole lines. -/
inductive Block where
  | paragraph (content : List Inline)
  | heading (level : Nat) (content : List Inline)
  /-- One item; `depth` is 0 at the top level. -/
  | item (list : ListKind) (depth : Nat) (content : List Inline)
  /-- Code on lines of its own, never parsed further. -/
  | code (language : Option String) (raw : String)
  | quote (blocks : List Block)
  | rule
deriving Repr, Inhabited

/-- The blocks of a document, in order. -/
abbrev Document := List Block

namespace Inline

mutual

/-- Appends the text of one node, formatting dropped, to `out`. -/
def appendPlain (out : String) : Inline → String
  | .text s => out ++ s
  | .emphasis children => appendPlainAll out children
  | .strong children => appendPlainAll out children
  | .code s => out ++ s
  | .link _ _ children => appendPlainAll out children
  | .image _ alt _ => out ++ alt
  | .lineBreak => out.push '\n'

/-- Appends the text of the nodes, in order, to `out`. -/
def appendPlainAll (out : String) : List Inline → String
  | [] => out
  | n :: ns => appendPlainAll (appendPlain out n) ns

end

/-- The text of the nodes without their formatting; it describes an image. -/
def plainText (nodes : List Inline) : String := appendPlainAll "" nodes

mutual

/-- How deep formatting nests in one node: emphasis, strong emphasis and links
count one each, and an image counts nothing. -/
def depth : Inline → Nat
  | .emphasis children => nestingFrom 0 children + 1
  | .strong children => nestingFrom 0 children + 1
  | .link _ _ children => nestingFrom 0 children + 1
  | _ => 0

/-- The larger of `deepest` and the depth of the nodes. -/
def nestingFrom (deepest : Nat) : List Inline → Nat
  | [] => deepest
  | n :: ns => nestingFrom (max deepest (depth n)) ns

end

/-- How deep formatting nests in a list of nodes. -/
def nesting (nodes : List Inline) : Nat := nestingFrom 0 nodes

theorem nestingFrom_eq_max : ∀ (d : Nat) (nodes : List Inline),
    nestingFrom d nodes = max d (nesting nodes)
  | d, [] => by simp [nesting, nestingFrom]
  | d, n :: ns => by
    rw [nesting, nestingFrom, nestingFrom, nestingFrom_eq_max _ ns, nestingFrom_eq_max _ ns]
    omega

@[simp] theorem nesting_nil : nesting [] = 0 := by simp [nesting, nestingFrom]

/-- The nesting of a list is that of its deepest node. -/
@[simp] theorem nesting_cons (n : Inline) (ns : List Inline) :
    nesting (n :: ns) = max (depth n) (nesting ns) := by
  rw [nesting, nestingFrom, nestingFrom_eq_max]
  omega

end Inline

end MarkdownHtml
