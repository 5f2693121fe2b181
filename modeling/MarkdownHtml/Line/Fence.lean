/-
# Code fences

A fence is a run of at least three backticks or tildes, with an info text behind
it. An info text with a backtick after backticks makes the line no fence but
inline code. A fence closes an open one of the same kind that is no longer, if it
has no info text.

Key definitions: `Fence`, `Fence.read?`, `Fence.language?`, `Fence.closes`.
-/
import MarkdownHtml.Text.Space

namespace MarkdownHtml

/-- The character a fence is made of. -/
inductive FenceKind where
  | backticks
  | tildes
deriving Repr, DecidableEq, Inhabited

/-- The character of a kind of fence. -/
def FenceKind.char : FenceKind → Char
  | .backticks => '\x60'
  | .tildes => '~'

/-- A line that opens or closes fenced code. -/
structure Fence where
  kind : FenceKind
  /-- The number of fence characters, at least three. -/
  length : Nat
  /-- The text behind the run, trimmed. -/
  info : List Char
deriving Repr, DecidableEq, Inhabited

namespace Fence

/-- The kind of fence that a character starts. -/
def kindOf? (c : Char) : Option FenceKind :=
  if c == '\x60' then some .backticks else if c == '~' then some .tildes else none

/-- Reads a fence at the start of a text without indentation. -/
def read? (text : List Char) : Option Fence :=
  let line := Text.dropEndWhile Text.isLineEnd text
  match line with
  | [] => none
  | c :: _ =>
    match kindOf? c with
    | none => none
    | some kind =>
      let run := line.takeWhile (· == c)
      let info := Text.trim (line.dropWhile (· == c))
      if run.length < 3 then none
      else if kind = .backticks ∧ info.contains '\x60' then none
      else some ⟨kind, run.length, info⟩

/-- The language an info text names: its first word. -/
def language? (info : List Char) : Option String :=
  (Text.firstWord? info).map String.ofList

/-- Whether the line read as `line` closes a fence of `kind` and `length`. -/
def closes (kind : FenceKind) (length : Nat) (line : Option Fence) : Bool :=
  match line with
  | some f => f.kind = kind && length ≤ f.length && f.info.isEmpty
  | none => false

end Fence
end MarkdownHtml
