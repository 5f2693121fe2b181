/-
# Files and directories

A store holds the content of files and the directories they are in. It is a value:
writing gives a new store. A text leads to a place in the store by steps, each of
them taken from a directory that is there: `..` leads back, and an empty step or `.`
nowhere. A file is written only into a directory that is there, and never over a
directory.

Key definitions: `Store`, `Store.place?`, `Store.makeAlong`, `Store.write`.
-/

namespace MarkdownHtml

/-- The place of a file or directory: the names that lead to it. -/
abbrev Path := List String

namespace Path

/-- Whether a step leads nowhere. -/
def stays (name : String) : Bool := name == "" || name == "."

/-- Takes a step. -/
def step (path : Path) (name : String) : Path :=
  if stays name then path else if name == ".." then path.dropLast else path ++ [name]

/-- Cuts a text at every `/`; `part` and `parts` are before, newest first. -/
def cut (part : List Char) (parts : List String) : List Char → List String
  | [] => (String.ofList part.reverse :: parts).reverse
  | c :: rest =>
    if c == '/' then cut [] (String.ofList part.reverse :: parts) rest
    else cut (c :: part) parts rest

/-- The steps that a text writes. -/
def steps (s : String) : List String := cut [] [] s.toList

/-- The steps to the directory around the place that steps lead to: without the last
of those that lead anywhere. -/
def around (steps : List String) : List String :=
  ((steps.reverse.dropWhile stays).drop 1).reverse

end Path

/-- What a place can hold. -/
inductive Entry where
  | directory
  | file (content : List UInt8)
deriving Repr, DecidableEq

/-- Files and directories by their places; the empty path is the root directory. -/
structure Store where
  entries : List (Path × Entry) := [([], .directory)]
deriving Repr

namespace Store

/-- What stands at a place, if anything. -/
def find? (store : Store) (path : Path) : Option Entry := store.entries.lookup path

/-- Puts an entry at a place, instead of what was there. -/
def put (path : Path) (entry : Entry) (store : Store) : Store :=
  ⟨(path, entry) :: store.entries⟩

/-- The place that steps lead to; `none` if one of them is not taken from a
directory. -/
def follow? (store : Store) (path : Path) : List String → Option Path
  | [] => some path
  | name :: rest =>
    if store.find? path = some .directory then store.follow? (path.step name) rest else none

/-- The place that a text leads to. -/
def place? (store : Store) (text : String) : Option Path :=
  if text.isEmpty then none else store.follow? [] (Path.steps text)

/-- Makes the directories along the steps from a place, where they are missing. A
file in the way ends it early, with what is made by then. -/
def makeFrom (path : Path) : List String → Store → Bool × Store
  | [], store => (true, store)
  | name :: rest, store =>
    match store.find? (path.step name) with
    | some .directory => makeFrom (path.step name) rest store
    | some (.file _) => (false, store)
    | none => makeFrom (path.step name) rest (store.put (path.step name) .directory)

/-- Makes the directories along the steps, and tells whether all are there. -/
def makeAlong (steps : List String) (store : Store) : Bool × Store := makeFrom [] steps store

/-- Writes the file that a text leads to. -/
def write (text : String) (content : List UInt8) (store : Store) : Option Store :=
  match store.place? text with
  | none => none
  | some path =>
    if store.find? path = some .directory then none else some (store.put path (.file content))

end Store
end MarkdownHtml
