/-
# Open delimiters and what they have collected

While running text is read, every delimiter that may still find its partner is an
open frame, and what is read behind it collects in the frame. A frame whose
partner comes is wrapped into a node; one that finds none is absorbed by the frame
below, its opener as literal text. Text is merged as it is collected, so no two
text nodes ever stand side by side.

Key definitions: `Content`, `Content.pushText`, `Content.absorb`, `Opener`,
`Frame`, `Frame.flatten`.
-/
import MarkdownHtml.Document
import MarkdownHtml.Inline.Flanking

namespace MarkdownHtml

/-- Nodes collected in one place, and how deep they nest. -/
structure Content where
  /-- The nodes, newest first. -/
  nodes : List Inline := []
  /-- How deep formatting nests in the nodes. -/
  depth : Nat := 0
deriving Repr, Inhabited

namespace Content

/-- Appends text: to the last node if that is text, and no node if there is none
to append. -/
def pushText (s : String) (c : Content) : Content :=
  if s.isEmpty then c
  else
    match c with
    | ⟨.text t :: rest, depth⟩ => ⟨.text (t ++ s) :: rest, depth⟩
    | ⟨nodes, depth⟩ => ⟨.text s :: nodes, depth⟩

/-- Appends a node that is not text and nests `depth` deep. -/
def push (node : Inline) (depth : Nat) (c : Content) : Content :=
  ⟨node :: c.nodes, max c.depth depth⟩

/-- Appends a node, text being merged, and leaves the depth as it is. -/
def addNode (c : Content) : Inline → Content
  | .text s => c.pushText s
  | node => ⟨node :: c.nodes, c.depth⟩

/-- Appends text and then all that `other` has collected. -/
def absorb (literal : String) (other : Content) (c : Content) : Content :=
  let all := other.nodes.reverse.foldl addNode (c.pushText literal)
  ⟨all.nodes, max all.depth other.depth⟩

/-- The nodes in reading order. -/
def toList (c : Content) : List Inline := c.nodes.reverse

end Content

/-- For each delimiter a number of open frames. -/
structure Counts where
  stars : Nat := 0
  underscores : Nat := 0
deriving Repr, DecidableEq, Inhabited

namespace Counts

/-- The number for `mark`. -/
def get (c : Counts) : Delimiter → Nat
  | .star => c.stars
  | .underscore => c.underscores

/-- One more of `mark`. -/
def increment (c : Counts) : Delimiter → Counts
  | .star => { c with stars := c.stars + 1 }
  | .underscore => { c with underscores := c.underscores + 1 }

/-- One less of `mark`. -/
def decrement (c : Counts) : Delimiter → Counts
  | .star => { c with stars := c.stars - 1 }
  | .underscore => { c with underscores := c.underscores - 1 }

/-- The sums, delimiter by delimiter. -/
def add (a b : Counts) : Counts := ⟨a.stars + b.stars, a.underscores + b.underscores⟩

end Counts

/-- What started a frame. -/
inductive Opener where
  /-- A run of delimiters, `count` of which are still to be matched. -/
  | emphasis (mark : Delimiter) (count : Nat)
  /-- The bracket of a link or an image. An inactive one can start no link any
  more. `enclosed` counts the emphasis frames between this bracket and the next
  one below. -/
  | bracket (image active : Bool) (enclosed : Counts)
deriving Repr, DecidableEq, Inhabited

/-- The text an opener is if nothing closes it. -/
def Opener.literal : Opener → String
  | .emphasis mark count => String.ofList (List.replicate count mark.char)
  | .bracket true _ _ => "!["
  | .bracket false _ _ => "["

/-- Whether the opener is a bracket. -/
def Opener.isBracket : Opener → Bool
  | .bracket .. => true
  | .emphasis .. => false

/-- An open delimiter and what stands behind it. -/
structure Frame where
  opener : Opener
  content : Content := {}
deriving Repr, Inhabited

/-- Gives a frame up: opener and content become part of `below`. -/
def Frame.flatten (f : Frame) (below : Content) : Content :=
  Content.absorb f.opener.literal f.content below

end MarkdownHtml
