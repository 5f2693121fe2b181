/-
# Quote markers at the start of a line

One marker is up to three spaces, a `>` and, if there is one, a single space or
tab. A line may carry several. Lines are classified after all of them
(`stripAll`); a line inside fenced code loses only those of the quotes the fence
stands in (`stripAtMost`), so that a `>` of the code itself stays.

Key definitions: `stripMarker?`, `stripAtMost`, `stripAll`.
-/
import MarkdownHtml.Text.Utf8

namespace MarkdownHtml
namespace Line

/-- Drops up to `n` spaces. -/
def dropSpaces : Nat → List Char → List Char
  | n + 1, ' ' :: rest => dropSpaces n rest
  | _, s => s

/-- Drops one space or tab, if there is one. -/
def dropPad : List Char → List Char
  | ' ' :: rest => rest
  | '\t' :: rest => rest
  | s => s

/-- The line after its first quote marker, if it starts with one. -/
def stripMarker? (s : List Char) : Option (List Char) :=
  match dropSpaces 3 s with
  | '>' :: rest => some (dropPad rest)
  | _ => none

/-- What is left of a line and how many quote markers went before. -/
structure Unquoted where
  depth : Nat
  rest : List Char
deriving Repr, DecidableEq

/-- Strips up to `more` markers, `depth` of them being gone already. -/
def stripFrom (depth : Nat) : Nat → List Char → Unquoted
  | 0, s => ⟨depth, s⟩
  | more + 1, s =>
    match stripMarker? s with
    | some rest => stripFrom (depth + 1) more rest
    | none => ⟨depth, s⟩

/-- Strips at most `limit` quote markers. -/
def stripAtMost (limit : Nat) (s : List Char) : Unquoted := stripFrom 0 limit s

/-- Strips every quote marker: a line has no more markers than characters. -/
def stripAll (s : List Char) : Unquoted := stripAtMost s.length s

/-- The number of bytes that stripping took off the line `s`. -/
def Unquoted.offset (u : Unquoted) (s : List Char) : Nat :=
  Text.byteLength s - Text.byteLength u.rest

end Line
end MarkdownHtml
