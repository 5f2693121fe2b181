/-
# TOML documents

A document is a sequence of lines: keys with values, and headers that say which
table the keys behind them belong to. Arrays and tables in braces may nest 80 deep,
and inside them lines may break anywhere between two parts, also around an equals
sign, but not inside a key. Blanks, comments and
empty lines separate; a byte order mark in front is passed over. A key or table
that is written twice makes the document malformed.

Key definitions: `Toml.key?`, `Toml.value?`, `Toml.parse?`.
-/
import MarkdownHtml.Toml.Quoted
import MarkdownHtml.Toml.Scalar

namespace MarkdownHtml
namespace Toml

/-- Without the spaces and tabs in front. -/
def skipPads (s : List Char) : List Char := s.dropWhile Text.isPad

/-- Passes over blanks, line ends and comments; `none` if a comment holds a control
character. -/
def skipLines (comment : Bool) : List Char → Option (List Char)
  | [] => some []
  | '\r' :: '\n' :: rest => skipLines false rest
  | '\n' :: rest => skipLines false rest
  | c :: rest =>
    if comment then if isForbidden c then none else skipLines true rest
    else if Text.isPad c then skipLines false rest
    else if c == '#' then skipLines true rest
    else some (c :: rest)

/-- Passes over the blanks and the comment that end a line, up to its end. -/
def lineEnd? (s : List Char) : Option (List Char) :=
  let rest :=
    match skipPads s with
    | '#' :: rest => rest.dropWhile fun c => !isForbidden c
    | rest => rest
  match rest with
  | [] => some []
  | '\n' :: rest => some rest
  | '\r' :: '\n' :: rest => some rest
  | _ => none

/-- Whether `c` stands in a key without quotes. -/
def isKeyChar (c : Char) : Bool := c.isAlphanum || c == '_' || c == '-'

/-- Reads one part of a key, quoted or not. -/
def simpleKey? (s : List Char) : Reading String :=
  match s with
  | [] => none
  | c :: _ =>
    if (quoteStyle? c).isSome then lineString? s
    else if isKeyChar c then
      some (String.ofList (s.takeWhile isKeyChar), s.dropWhile isKeyChar)
    else none

/-- Reads a key of several parts; `path` holds the parts before, newest first.
Returns the parts but the last, and the last. -/
def keyFrom (path : List String) : (fuel : Nat) → List Char → Reading (List String × String)
  | 0, _ => none
  | fuel + 1, s =>
    match simpleKey? s with
    | none => none
    | some (key, rest) =>
      match skipPads rest with
      | '.' :: rest => keyFrom (key :: path) fuel (skipPads rest)
      | _ => some ((path.reverse, key), rest)

/-- Reads a key. -/
def key? (s : List Char) : Reading (List String × String) := keyFrom [] (s.length + 1) s

/-- Reads what stands between a key and its value. -/
def equals? (s : List Char) : Option (List Char) :=
  match skipPads s with
  | '=' :: rest => some (skipPads rest)
  | _ => none

/-- Reads what stands between a key and its value in a table in braces, where lines
may break. -/
def equalsInBraces? (s : List Char) : Option (List Char) :=
  match skipLines false s with
  | some ('=' :: rest) => skipLines false rest
  | _ => none

/-- Whether `c` ends an unquoted value. -/
def endsScalar (c : Char) : Bool :=
  c == ',' || c == ']' || c == '\x7d' || c == '#' || Text.isLineEnd c

/-- Reads an unquoted value. -/
def bareValue? (s : List Char) : Reading Value :=
  (scalar? (Text.dropEndWhile Text.isPad (s.takeWhile fun c => !endsScalar c))).map fun v =>
    (v, s.dropWhile fun c => !endsScalar c)

mutual

/-- Reads a value with at most `depth` brackets and braces around one another;
`fuel` exceeds the length of the text. -/
def valueFrom (depth : Nat) : (fuel : Nat) → List Char → Reading Value
  | 0, _ => none
  | fuel + 1, s =>
    match s with
    | [] => none
    | c :: rest =>
      if (quoteStyle? c).isSome then (string? s).map fun (s, rest) => (.string s, rest)
      else if c == '[' then if depth = 0 then none else items (depth - 1) [] fuel rest
      else if c == '\x7b' then if depth = 0 then none else pairs (depth - 1) [] fuel rest
      else bareValue? s

/-- Reads the elements of an array behind those in `done`, newest first. -/
def items (depth : Nat) (done : List Value) : (fuel : Nat) → List Char → Reading Value
  | 0, _ => none
  | fuel + 1, s =>
    match skipLines false s with
    | none => none
    | some (']' :: rest) => some (.array false done.reverse, rest)
    | some s =>
      match valueFrom depth fuel s with
      | none => none
      | some (v, s) =>
        match skipLines false s with
        | some (',' :: rest) => items depth (v :: done) fuel rest
        | some (']' :: rest) => some (.array false (v :: done).reverse, rest)
        | _ => none

/-- Reads the keys of a table in braces behind those in `done`. -/
def pairs (depth : Nat) (done : Entries) : (fuel : Nat) → List Char → Reading Value
  | 0, _ => none
  | fuel + 1, s =>
    match skipLines false s with
    | none => none
    | some ('\x7d' :: rest) => some (.table .braces done, rest)
    | some s =>
      match key? s with
      | none => none
      | some ((path, key), s) =>
        match equalsInBraces? s with
        | none => none
        | some s =>
          match valueFrom depth fuel s with
          | none => none
          | some (v, s) =>
            match addKey path key v .braces done, skipLines false s with
            | some done, some (',' :: rest) => pairs depth done fuel rest
            | some done, some ('\x7d' :: rest) => some (.table .braces done, rest)
            | _, _ => none

end

/-- How deep brackets and braces may nest. -/
def maxDepth : Nat := 80

/-- Reads a value. -/
def value? (s : List Char) : Reading Value := valueFrom maxDepth (s.length + 1) s

/-- The document so far: its keys, and the path of the table that keys go to. -/
structure Draft where
  entries : Entries := []
  current : List String := []

/-- Adds a key to the current table. -/
def Draft.add? (draft : Draft) (path : List String) (key : String) (value : Value) :
    Option Draft :=
  (within .header (addKey path key value) draft.current .header draft.entries).map fun entries =>
    { draft with entries }

/-- Goes on with the table of a header. -/
def Draft.enter? (draft : Draft) (add : String → Origin → Entries → Option Entries)
    (path : List String) (key : String) : Option Draft :=
  (within .header (add key) path .header draft.entries).map fun entries =>
    ⟨entries, path ++ [key]⟩

/-- Reads a header up to its closing brackets. -/
def header? (close : List Char) (s : List Char) : Option ((List String × String) × List Char) :=
  match key? (skipPads s) with
  | none => none
  | some (key, rest) =>
    let rest := skipPads rest
    if close.isPrefixOf rest then some (key, rest.drop close.length) else none

/-- Reads one key or header, up to the end of its line. -/
def statement? (draft : Draft) (s : List Char) : Option (Draft × List Char) :=
  match s with
  | '[' :: '[' :: s => do
    let ((path, key), s) ← header? [']', ']'] s
    let rest ← lineEnd? s
    let draft ← draft.enter? addArrayTable path key
    some (draft, rest)
  | '[' :: s => do
    let ((path, key), s) ← header? [']'] s
    let rest ← lineEnd? s
    let draft ← draft.enter? addTable path key
    some (draft, rest)
  | s => do
    let ((path, key), s) ← key? s
    let s ← equals? s
    let (v, s) ← value? s
    let rest ← lineEnd? s
    let draft ← draft.add? path key v
    some (draft, rest)

/-- Reads the lines of a document; `fuel` exceeds the length of the text. -/
def statements? (draft : Draft) : (fuel : Nat) → List Char → Option Entries
  | 0, _ => none
  | fuel + 1, s =>
    match skipLines false s with
    | none => none
    | some [] => some draft.entries
    | some s =>
      match statement? draft s with
      | none => none
      | some (draft, rest) => statements? draft fuel rest

/-- Without a byte order mark in front. -/
def dropMark : List Char → List Char
  | c :: rest => if c.toNat = 0xFEFF then rest else c :: rest
  | [] => []

/-- The keys of a document, or `none` if it is malformed. -/
def parse? (s : List Char) : Option Entries := statements? {} (s.length + 1) (dropMark s)

end Toml
end MarkdownHtml
