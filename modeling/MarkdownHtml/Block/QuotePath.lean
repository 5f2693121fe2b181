/-
# The quotes that are open

Blocks are put into the innermost open quote. `QuotePath` holds the blocks of the
innermost quote and, outwards, those of the quotes around it and of the document;
a quote that closes becomes a block of the one around it.

Key definitions: `QuotePath`, `QuotePath.push`, `QuotePath.setDepth`,
`QuotePath.finish`.
-/
import MarkdownHtml.Document

namespace MarkdownHtml

/-- The open quotes, innermost first, with the document itself outermost. -/
structure QuotePath where
  /-- The blocks of the innermost quote, newest first. -/
  inner : List Block := []
  /-- The blocks of what is around it, each newest first. -/
  outer : List (List Block) := []
deriving Repr, Inhabited

namespace QuotePath

/-- How many quotes are open. -/
def depth (p : QuotePath) : Nat := p.outer.length

/-- Appends a block to the innermost quote. -/
def push (block : Block) (p : QuotePath) : QuotePath := { p with inner := block :: p.inner }

/-- Opens `n` quotes. -/
def openMany : Nat → QuotePath → QuotePath
  | 0, p => p
  | n + 1, p => openMany n ⟨[], p.inner :: p.outer⟩

/-- Closes the `n` innermost quotes. -/
def closeMany : Nat → QuotePath → QuotePath
  | n + 1, ⟨inner, around :: outer⟩ =>
    closeMany n ⟨.quote inner.reverse :: around, outer⟩
  | _, p => p

/-- Closes or opens quotes until `depth` are open. -/
def setDepth (depth : Nat) (p : QuotePath) : QuotePath :=
  openMany (depth - p.depth) (closeMany (p.depth - depth) p)

/-- Closes every quote and returns the blocks of the document. -/
def finish (p : QuotePath) : List Block := (closeMany p.depth p).inner.reverse

theorem depth_openMany : ∀ (n : Nat) (p : QuotePath), (openMany n p).depth = p.depth + n
  | 0, _ => rfl
  | n + 1, p => by
    rw [openMany, depth_openMany n]
    simp [depth]
    omega

theorem depth_closeMany : ∀ (n : Nat) (p : QuotePath), (closeMany n p).depth = p.depth - n
  | 0, p => by simp [closeMany]
  | n + 1, ⟨inner, []⟩ => by simp [closeMany, depth]
  | n + 1, ⟨inner, around :: outer⟩ => by
    rw [closeMany, depth_closeMany n]
    simp [depth]

/-- What opening a quote keeps, opening several keeps. -/
theorem openMany_keeps {P : QuotePath → Prop} (hopen : ∀ p, P p → P ⟨[], p.inner :: p.outer⟩) :
    ∀ (n : Nat) (p : QuotePath), P p → P (p.openMany n)
  | 0, _, h => h
  | n + 1, p, h => openMany_keeps hopen n _ (hopen p h)

/-- What closing a quote keeps, closing several keeps. -/
theorem closeMany_keeps {P : QuotePath → Prop}
    (hclose : ∀ inner around outer, P ⟨inner, around :: outer⟩ →
      P ⟨.quote inner.reverse :: around, outer⟩) :
    ∀ (n : Nat) (p : QuotePath), P p → P (p.closeMany n)
  | 0, p, h => by
    rw [closeMany]
    · exact h
    · simp
  | _ + 1, ⟨_, []⟩, h => h
  | n + 1, ⟨inner, around :: outer⟩, h =>
    closeMany_keeps hclose n _ (hclose inner around outer h)

/-- After the depth is set, that many quotes are open. -/
@[simp] theorem depth_setDepth (d : Nat) (p : QuotePath) : (p.setDepth d).depth = d := by
  rw [setDepth, depth_openMany, depth_closeMany]
  omega

end QuotePath
end MarkdownHtml
