/-
# Code spans

A run of backticks opens a code span if a run of the same length follows
somewhere; the first such run closes it. One pass over the tokens from right to
left finds all of them (`closers`). The content of a span is one line: line ends
become spaces, and one space on each side is dropped if something else is there.

Key definitions: `CodeSpan.closers`, `CodeSpan.content`.
-/
import MarkdownHtml.Inline.Token

namespace MarkdownHtml
namespace CodeSpan

/-- What is known right of a token: the runs of backticks there, each with its length
and its index, nearest first, and the closers of the tokens there. -/
structure Lookahead where
  runs : List (Nat × Nat) := []
  closers : List (Option Nat) := []

/-- Takes in the token at `index`. -/
def Lookahead.step (la : Lookahead) (token : Token) (index : Nat) : Lookahead :=
  match token.kind with
  | .backticks =>
    { runs := (token.lexeme.length, index) :: la.runs
      closers := la.runs.lookup token.lexeme.length :: la.closers }
  | _ => { la with closers := none :: la.closers }

/-- For each token the index of the run of backticks that closes it, if it is
itself a run of backticks and one of its length follows. -/
def closers (tokens : List Token) : List (Option Nat) :=
  (tokens.zipIdx.foldr (fun (token, index) (la : Lookahead) => la.step token index) {}).closers

/-- Writes every line end (a line feed, or a carriage return before one) as a
space; `done` is what is written already, newest first. -/
def spaceLineEnds (done : List Char) : List Char → List Char
  | [] => done.reverse
  | '\r' :: '\n' :: rest => spaceLineEnds (' ' :: done) rest
  | '\n' :: rest => spaceLineEnds (' ' :: done) rest
  | c :: rest => spaceLineEnds (c :: done) rest

/-- Drops a space on both sides, if there is one on both and something else
between them. -/
def stripSpaces (s : List Char) : List Char :=
  if 2 ≤ s.length && s.head? == some ' ' && s.getLast? == some ' ' && s.any (· != ' ') then
    (s.drop 1).dropLast
  else s

/-- The content of a code span whose backticks enclose `raw`. -/
def content (raw : List Char) : List Char := stripSpaces (spaceLineEnds [] raw)

end CodeSpan
end MarkdownHtml
