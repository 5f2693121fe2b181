/-
# Options as tables

Options are kept as two tables, `limits` and `render`. Every key may be missing and
then has its default, and keys that are not known are passed over. A table may also
be given as an array of its values in order, and a date in its place counts as a
table without known keys. A value of the wrong type makes the whole unreadable, and
so does, anywhere it is looked at, a number that is none or is too large for any
machine type; the surplus values of an array are not looked at.

Key definitions: `Options.ofEntries?`, `Options.tables`.
-/
import MarkdownHtml.Options
import MarkdownHtml.Toml.Format

namespace MarkdownHtml
namespace Settings

open Toml

/-- Whether an integer fits 128 bits, with or without sign. -/
def fitsInteger (n : Int) : Bool := -(Nat.pow 2 127) ≤ n && n < Nat.pow 2 128

mutual

/-- Whether a value that is passed over can be read at all. -/
def readable : Value → Bool
  | .integer value => value.any fitsInteger
  | .float magnitude => magnitude.all Decimal.fitsDouble
  | .array _ items => readableItems items
  | .table _ entries => readableEntries entries
  | _ => true

/-- Whether all values of an array can be read. -/
def readableItems : List Value → Bool
  | [] => true
  | v :: vs => readable v && readableItems vs

/-- Whether all values of a table can be read. -/
def readableEntries : List (String × Value) → Bool
  | [] => true
  | (_, v) :: rest => readable v && readableEntries rest

end

/-- A count: an integer that fits 64 bits without sign. -/
def count? : Value → Option Nat
  | .integer (some n) => if 0 ≤ n ∧ n < Nat.pow 2 64 then some n.toNat else none
  | _ => none

/-- A text. -/
def text? : Value → Option String
  | .string s => some s
  | _ => none

/-- A truth value. -/
def flag? : Value → Option Bool
  | .boolean b => some b
  | _ => none

/-- Reads a value that may be missing. -/
def orDefault {α : Type} (read : Value → Option α) (default : α) : Option Value → Option α
  | none => some default
  | some v => read v

/-- The values of two keys, by name in a table or by place in an array. -/
def fields? (first second : String) : Value → Option (Option Value × Option Value)
  | .table _ entries =>
    if readableEntries (entries.filter fun e => e.1 != first && e.1 != second) then
      some (Entries.get? entries first, Entries.get? entries second)
    else none
  | .array _ items => some (items[0]?, items[1]?)
  | .dateTime => some (none, none)
  | _ => none

/-- Reads the limits. -/
def limits? (v : Value) : Option Limits := do
  let (bytes, depth) ← fields? "max_input_bytes" "max_nesting_depth" v
  let maxInputBytes ← orDefault count? ({} : Limits).maxInputBytes bytes
  let maxNesting ← orDefault count? ({} : Limits).maxNesting depth
  return { maxInputBytes, maxNesting }

/-- Reads the options of rendering. -/
def render? (v : Value) : Option RenderOptions := do
  let (stem, filtered) ← fields? "language_class_prefix" "sanitize_urls" v
  let languageStem ← orDefault text? ({} : RenderOptions).languageStem stem
  let filterUrls ← orDefault flag? ({} : RenderOptions).filterUrls filtered
  return { languageStem, filterUrls }

end Settings

/-- The options that the keys of a document give. -/
def Options.ofEntries? (entries : Toml.Entries) : Option Options := do
  let (limits, render) ← Settings.fields? "limits" "render" (.table .header entries)
  let limits ← Settings.orDefault Settings.limits? {} limits
  let render ← Settings.orDefault Settings.render? {} render
  return { limits, render }

/-- The tables that options are kept as, with every key. -/
def Options.tables (o : Options) : Toml.Tables :=
  [("limits",
      [("max_input_bytes", .integer o.limits.maxInputBytes),
        ("max_nesting_depth", .integer o.limits.maxNesting)]),
    ("render",
      [("language_class_prefix", .string o.render.languageStem),
        ("sanitize_urls", .boolean o.render.filterUrls)])]

end MarkdownHtml
