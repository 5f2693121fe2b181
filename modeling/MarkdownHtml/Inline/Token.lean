/-
# Tokens of running text

Running text is cut into tokens: delimiter runs, brackets, escapes, breaks,
blanks and plain text. The cut is context free, at each place the longest token
wins, and a character that starts none (a lone `!`, backslash or carriage return)
is a text token of its own. A token knows where it stands: its offset in bytes,
the character before it and the text behind it.

Key definitions: `TokenKind`, `Token`, `scan`, `Token.ofText`.
-/
import MarkdownHtml.Text.Space
import MarkdownHtml.Text.Utf8

namespace MarkdownHtml

/-- The kinds of token. -/
inductive TokenKind where
  /-- A run of backticks. -/
  | backticks
  /-- A run of `*`. -/
  | stars
  /-- A run of `_`. -/
  | underscores
  /-- `![`, the start of an image. -/
  | imageOpen
  | leftBracket
  | rightBracket
  | leftParen
  | rightParen
  /-- A backslash and the punctuation it escapes. -/
  | escape
  /-- Two or more spaces, or a backslash, and a line end. -/
  | hardBreak
  /-- A line end. -/
  | softBreak
  /-- Spaces and tabs. -/
  | blank
  | text
deriving Repr, DecidableEq, Inhabited

/-- A token in its place. -/
structure Token where
  kind : TokenKind
  /-- The characters of the token. -/
  lexeme : List Char
  /-- The offset of the token, in bytes. -/
  start : Nat
  /-- The character before the token, if it is not the first. -/
  before : Option Char
  /-- The text behind the token. -/
  after : List Char
deriving Repr, DecidableEq, Inhabited

namespace Token

/-- The offset of the end of the token, in bytes. -/
def stop (t : Token) : Nat := t.start + Text.byteLength t.lexeme

/-- The text of a token. -/
def content (t : Token) : String := String.ofList t.lexeme

/-- Whether `c` belongs to a run of plain text. -/
def isPlain (c : Char) : Bool :=
  !(c == '\x60' || c == '*' || c == '_' || c == '[' || c == ']' || c == '(' || c == ')' ||
    c == '\\' || c == '!' || c == '\r' || c == '\n' || c == ' ' || c == '\t')

/-- The length of the line end at the start of a text, 0 if there is none. -/
def lineEndLength : List Char → Nat
  | '\n' :: _ => 1
  | '\r' :: '\n' :: _ => 2
  | _ => 0

/-- How many characters at the start of `s` satisfy `p`. -/
def countWhile (p : Char → Bool) (s : List Char) : Nat := (s.takeWhile p).length

/-- The token behind a backslash. -/
def scanBackslash (rest : List Char) : TokenKind × Nat :=
  match rest with
  | [] => (.text, 0)
  | c :: _ =>
    if Text.isPunctuation c then (.escape, 1)
    else if lineEndLength rest = 0 then (.text, 0)
    else (.hardBreak, lineEndLength rest)

/-- The token that starts with a space: a hard break if at least two spaces lead
straight to a line end, and a run of blanks otherwise. -/
def scanSpace (rest : List Char) : TokenKind × Nat :=
  let spaces := countWhile (· == ' ') rest
  let lineEnd := lineEndLength (rest.drop spaces)
  if 1 ≤ spaces ∧ 1 ≤ lineEnd then (.hardBreak, spaces + lineEnd)
  else (.blank, countWhile Text.isPad rest)

/-- The kind of the token that starts with `c`, and how many characters of
`rest`, the text behind `c`, belong to it. -/
def scan (c : Char) (rest : List Char) : TokenKind × Nat :=
  match c with
  | '\x60' => (.backticks, countWhile (· == '\x60') rest)
  | '*' => (.stars, countWhile (· == '*') rest)
  | '_' => (.underscores, countWhile (· == '_') rest)
  | '!' => if rest.head? = some '[' then (.imageOpen, 1) else (.text, 0)
  | '[' => (.leftBracket, 0)
  | ']' => (.rightBracket, 0)
  | '(' => (.leftParen, 0)
  | ')' => (.rightParen, 0)
  | '\\' => scanBackslash rest
  | '\n' => (.softBreak, 0)
  | '\r' => if rest.head? = some '\n' then (.softBreak, 1) else (.text, 0)
  | ' ' => scanSpace rest
  | '\t' => (.blank, countWhile Text.isPad rest)
  | _ => (.text, countWhile isPlain rest)

/-- Cuts a text, which stands behind `before` at offset `start`, into tokens. `done`
holds the tokens before, newest first, and the next `skip` characters belong to the
last of them. -/
def cut (start : Nat) (before : Option Char) (done : List Token) : Nat → List Char → List Token
  | _, [] => done.reverse
  | skip + 1, _ :: rest => cut start before done skip rest
  | 0, c :: rest =>
    let (kind, more) := scan c rest
    let lexeme := c :: rest.take more
    let token : Token := ⟨kind, lexeme, start, before, rest.drop more⟩
    cut (start + Text.byteLength lexeme) lexeme.getLast? (token :: done) more rest

/-- The tokens of a text. -/
def ofText (s : List Char) : List Token := cut 0 none [] 0 s

end Token
end MarkdownHtml
