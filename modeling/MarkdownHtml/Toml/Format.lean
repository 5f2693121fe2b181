/-
# Documents of plain tables

Settings are kept in tables whose values are integers, strings and truth values. A
format reads documents and writes such tables. Nothing else is known of a format:
loading and saving take any. The one in use reads with `Toml.parse?` and writes each
table under its header, with a line for each key and an empty line between tables.

Key definitions: `Toml.Plain`, `Toml.Tables`, `Toml.Format`, `Toml.Format.lines`.
-/
import MarkdownHtml.Toml.Reader

namespace MarkdownHtml
namespace Toml

/-- A value that is neither an array nor a table, nor a float or a time. -/
inductive Plain where
  | integer (n : Int)
  | string (s : String)
  | boolean (b : Bool)
deriving Repr, DecidableEq

/-- The value as a reader returns it. -/
def Plain.value : Plain → Value
  | .integer n => .integer (some n)
  | .string s => .string s
  | .boolean b => .boolean b

/-- The keys of one table and their values. -/
abbrev Rows := List (String × Plain)

/-- Tables by their names. -/
abbrev Tables := List (String × Rows)

/-- Whether a name can stand without quotes. -/
def isWord (name : String) : Bool := !name.toList.isEmpty && name.toList.all isKeyChar

namespace Tables

/-- The value of a key in a table, if the table is there and has it. -/
def value? (tables : Tables) (name key : String) : Option Plain :=
  (tables.lookup name).bind fun rows => rows.lookup key

/-- Whether tables have different names, and within each the keys are different. -/
def areDistinct (tables : Tables) : Bool :=
  decide (tables.map Prod.fst).Nodup && tables.all fun t => decide (t.2.map Prod.fst).Nodup

/-- Whether all names can be written without quotes. -/
def areWords (tables : Tables) : Bool :=
  tables.all fun t => isWord t.1 && t.2.all fun row => isWord row.1

end Tables

/-- A reader and a writer of documents. Either may fail. -/
structure Format where
  read : List Char → Option Entries
  write : Tables → Option (List Char)

/-! ### Writing line by line -/

/-- A value as it is written. -/
def Plain.written : Plain → List Char
  | .integer n => (toString n).toList
  | .string s => writeString s.toList
  | .boolean b => (toString b).toList

/-- The line that starts a table. -/
def headerLine (name : String) : List Char := '[' :: name.toList ++ [']']

/-- The line of a key and its value. -/
def rowLine (row : String × Plain) : List Char :=
  row.1.toList ++ [' ', '=', ' '] ++ row.2.written

/-- The lines of a table. -/
def tableLines (table : String × Rows) : List (List Char) :=
  headerLine table.1 :: table.2.map rowLine

/-- The lines of a document. -/
def Tables.lines : Tables → List (List Char)
  | [] => []
  | table :: tables => tableLines table ++ tables.flatMap fun table => [] :: tableLines table

/-- Reads documents of any kind, and writes tables line by line if no name needs quotes
and none is there twice. -/
def Format.lines : Format where
  read := parse?
  write tables :=
    if tables.areDistinct && tables.areWords then
      some (tables.lines.flatMap fun line => line ++ ['\n'])
    else none

end Toml
end MarkdownHtml
