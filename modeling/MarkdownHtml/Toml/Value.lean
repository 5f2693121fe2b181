/-
# TOML values and tables

A TOML document is a table of keys and values. How a table came about matters
while the document is read: a table may be written out once only, under a header
or between braces, while headers of deeper tables and dotted keys bring tables
about on the way and may come back to them. Each table therefore remembers its
origin.

Key definitions: `Toml.Origin`, `Toml.Value`, `Toml.Entries`, `Toml.within`,
`Toml.addKey`, `Toml.addTable`, `Toml.addArrayTable`.
-/

namespace MarkdownHtml
namespace Toml

/-- How a table came about. -/
inductive Origin where
  /-- Under its own header, as an element of an array of tables, or as the
  document itself. -/
  | header
  /-- On the way to the table of a header. -/
  | implied
  /-- On the way of a dotted key. -/
  | dotted
  /-- Between braces. -/
  | braces
deriving Repr, DecidableEq, Inhabited

/-- A magnitude `digits · 10 ^ exponent`. -/
structure Decimal where
  digits : Nat
  exponent : Int
deriving Repr, DecidableEq, Inhabited

/-- A TOML value. -/
inductive Value where
  | string (s : String)
  /-- An integer; its value is missing if it has the shape of one but is no number. -/
  | integer (value : Option Int)
  /-- A float; its magnitude is missing if it is infinite or no number. -/
  | float (magnitude : Option Decimal)
  | boolean (b : Bool)
  | dateTime
  /-- An array; `ofTables` if it is made of headers in double brackets. -/
  | array (ofTables : Bool) (items : List Value)
  | table (origin : Origin) (entries : List (String × Value))
deriving Repr, Inhabited

/-- The keys of a table and their values, in the order of the document. -/
abbrev Entries := List (String × Value)

/-- The value of a key. -/
def Entries.get? (entries : Entries) (key : String) : Option Value := entries.lookup key

/-- Replaces the value of a key that is there, or appends the key. -/
def Entries.set (key : String) (value : Value) : Entries → Entries
  | [] => [(key, value)]
  | (k, v) :: rest => if k == key then (key, value) :: rest else (k, v) :: Entries.set key value rest

/-- What leads from table to table. -/
inductive Way where
  | header
  | dotted
deriving Repr, DecidableEq

/-- The origin of a table that a way brings about. -/
def Way.origin : Way → Origin
  | .header => .implied
  | .dotted => .dotted

/-- Whether a way may pass through a table: nothing passes through braces, and a
dotted key only through tables that are not written out. -/
def Way.passes : Way → Origin → Bool
  | .header, origin => origin != .braces
  | .dotted, origin => origin == .implied || origin == .dotted

/-- Changes the table that `path` leads to, tables on the way coming about as
needed. A way into an array of tables leads to its last table. -/
def within (way : Way) (change : Origin → Entries → Option Entries) :
    List String → Origin → Entries → Option Entries
  | [], origin, entries => change origin entries
  | key :: path, _, entries =>
    match entries.get? key with
    | none =>
      (within way change path way.origin []).map fun inner =>
        entries.set key (.table way.origin inner)
    | some (.table origin inner) =>
      if way.passes origin then
        (within way change path origin inner).map fun inner =>
          entries.set key (.table origin inner)
      else none
    | some (.array true items) =>
      match items.getLast? with
      | some (.table origin inner) =>
        (within way change path origin inner).map fun inner =>
          entries.set key (.array true (items.dropLast ++ [.table origin inner]))
      | _ => none
    | some _ => none

/-- Adds a key that must not be there yet. -/
def addNew (key : String) (value : Value) (entries : Entries) : Option Entries :=
  match entries.get? key with
  | none => some (entries.set key value)
  | some _ => none

/-- Adds a dotted key. A key of several parts belongs into a table that dotted keys
brought about, and into no other. -/
def addKey (path : List String) (key : String) (value : Value) (origin : Origin)
    (entries : Entries) : Option Entries :=
  within .dotted
    (fun origin entries =>
      if path.isEmpty || origin == .dotted then addNew key value entries else none)
    path origin entries

/-- Writes out the table of a header, which must not be written out yet. -/
def addTable (key : String) (_ : Origin) (entries : Entries) : Option Entries :=
  match entries.get? key with
  | none => some (entries.set key (.table .header []))
  | some (.table .implied inner) => some (entries.set key (.table .header inner))
  | some _ => none

/-- Appends a table to an array of tables. -/
def addArrayTable (key : String) (_ : Origin) (entries : Entries) : Option Entries :=
  match entries.get? key with
  | none => some (entries.set key (.array true [.table .header []]))
  | some (.array true items) => some (entries.set key (.array true (items ++ [.table .header []])))
  | some _ => none

end Toml
end MarkdownHtml
