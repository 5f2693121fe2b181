/-
# The destination and title of a link

Behind the `]` of a link stands `(destination "title")`. The destination is in
angle brackets or bare; a bare one ends at white space or a control character and
has balanced parentheses, at most 32 deep. A title, set off by blanks, is in
double quotes, single quotes or parentheses and holds no blank line. Blanks
between the parts contain at most one line feed. Where a part ends, a backslash and
the punctuation behind it count as a pair, which ends nothing. What the part says is
its text without the backslashes that stand before punctuation, an escaped backslash
among them. If any of this fails there is no link.

Key definitions: `unescape`, `LinkTail`, `LinkTail.read?`.
-/
import MarkdownHtml.Text.Space
import MarkdownHtml.Text.Utf8

namespace MarkdownHtml

/-- Drops the backslashes that stand before ASCII punctuation. Each is judged by the
character that follows it in the text, so of a run of them before punctuation all go,
and of a run at the end the last one stays. `done` is what is written already, newest
first. -/
def unescapeOnto (done : List Char) : List Char → List Char
  | [] => done.reverse
  | c :: rest =>
    if c == '\\' && rest.head?.any Text.isPunctuation then unescapeOnto done rest
    else unescapeOnto (c :: done) rest

/-- The text without the backslashes that stand before ASCII punctuation. A backslash
that is escaped itself goes too if punctuation follows it. -/
def unescape (s : List Char) : List Char := unescapeOnto [] s

/-- What follows the text of a link. -/
structure LinkTail where
  destination : List Char
  title : Option (List Char)
  /-- The tail as it is written, from `(` to `)`. -/
  raw : List Char
deriving Repr, DecidableEq, Inhabited

namespace LinkTail

/-- A part of a tail as it is written, and the text behind it. -/
abbrev Reading := Option (List Char × List Char)

/-- Reads spaces, tabs and at most one line feed, onto `done`. -/
def blanks (feedSeen : Bool) (done : List Char) : List Char → List Char × List Char
  | [] => (done.reverse, [])
  | c :: rest =>
    if Text.isPad c then blanks feedSeen (c :: done) rest
    else if c == '\n' && !feedSeen then blanks true (c :: done) rest
    else (done.reverse, c :: rest)

/-- Reads a destination up to its `>`. -/
def angle (done : List Char) : List Char → Reading
  | [] => none
  | '>' :: rest => some (done.reverse, rest)
  | '<' :: _ => none
  | '\n' :: _ => none
  | '\\' :: c :: rest =>
    if Text.isPunctuation c then angle (c :: '\\' :: done) rest
    else angle ('\\' :: done) (c :: rest)
  | c :: rest => angle (c :: done) rest

/-- The deepest nesting of parentheses in a bare destination. -/
def maxParens : Nat := 32

/-- Whether a bare destination ends before `c`. -/
def endsBare (c : Char) : Bool := Text.isAsciiSpace c || Text.isControl c

/-- Reads a bare destination with `depth` parentheses open. -/
def bare (depth : Nat) (done : List Char) : List Char → Reading
  | [] => if depth = 0 then some (done.reverse, []) else none
  | '\\' :: c :: rest =>
    if Text.isPunctuation c then bare depth (c :: '\\' :: done) rest
    else bare depth ('\\' :: done) (c :: rest)
  | '(' :: rest => if depth < maxParens then bare (depth + 1) ('(' :: done) rest else none
  | ')' :: rest =>
    if depth = 0 then some (done.reverse, ')' :: rest) else bare (depth - 1) (')' :: done) rest
  | c :: rest =>
    if endsBare c then if depth = 0 then some (done.reverse, c :: rest) else none
    else bare depth (c :: done) rest

/-- Reads a title up to `close`; `feed` says that only blanks stand between here
and the last line feed. -/
def titleTo (close : Char) (feed : Bool) (done : List Char) : List Char → Reading
  | [] => none
  | '\\' :: c :: rest =>
    if Text.isPunctuation c then titleTo close false (c :: '\\' :: done) rest
    else titleTo close false ('\\' :: done) (c :: rest)
  | c :: rest =>
    if c == close then some (done.reverse, rest)
    else if c == '(' && close == ')' then none
    else if c == '\n' && feed then none
    else titleTo close (if Text.isPad c then feed else c == '\n') (c :: done) rest

/-- The character that ends a title which starts with `c`. -/
def titleClose? (c : Char) : Option Char :=
  if c == '"' || c == '\x27' then some c else if c == '(' then some ')' else none

/-- A destination, as it is written, what it says, and the text behind it. -/
structure Part where
  written : List Char
  meaning : List Char
  rest : List Char

/-- Reads a destination of either form. -/
def destination? : List Char → Option Part
  | [] => none
  | '<' :: rest => (angle [] rest).map fun (s, rest) => ⟨'<' :: s ++ ['>'], unescape s, rest⟩
  | s => (bare 0 [] s).map fun (s, rest) => ⟨s, unescape s, rest⟩

/-- Reads the title that starts with `c` and ends with `close`. -/
def title? (c close : Char) (s : List Char) : Option Part :=
  (titleTo close false [] s).map fun (s, rest) => ⟨c :: s ++ [close], unescape s, rest⟩

/-- The tail `written`, if a `)` closes it. -/
def close? (written : List Char) (destination : List Char) (title : Option (List Char)) :
    List Char → Option LinkTail
  | ')' :: _ => some ⟨destination, title, written ++ [')']⟩
  | _ => none

/-- Reads what may follow the destination: a title, if blanks come first, and the
closing parenthesis. -/
def afterDestination? (written : List Char) (destination : List Char) (s : List Char) :
    Option LinkTail :=
  let (gap, rest) := blanks false [] s
  let close := rest.head?.bind titleClose?
  match gap, rest, close with
  | _ :: _, c :: inner, some close =>
    (title? c close inner).bind fun title =>
      let (last, rest) := blanks false [] title.rest
      close? (written ++ gap ++ title.written ++ last) destination (some title.meaning) rest
  | _, _, _ => close? (written ++ gap) destination none rest

/-- Reads a link tail at the start of a text. -/
def read? : List Char → Option LinkTail
  | '(' :: s =>
    let (gap, rest) := blanks false [] s
    (destination? rest).bind fun d =>
      afterDestination? ('(' :: gap ++ d.written) d.meaning d.rest
  | _ => none

/-- The size of the tail in bytes. -/
def size (t : LinkTail) : Nat := Text.byteLength t.raw

end LinkTail
end MarkdownHtml
