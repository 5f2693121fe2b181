/-
# The grammar of TOML for plain tables

What a document of plain tables says is laid down here for each kind of text by a relation between
the text and what it says, without a reader or a writer: digits in groups, integers in four bases,
the four forms of strings with their escapes, keys, and the lines of a document with blanks and
comments anywhere between them. This is TOML 1.0, except that tables stand under headers of their
own, whose names have one part; a document could also write them in braces or with dotted keys.
TOML leaves it to a reader to make another line end of one that stands in a string of several
lines, so which of them a reader keeps is a parameter.

A format keeps to TOML (`Format.Conforms`) if what it writes spells the tables, in whatever way,
and if it reads a text that spells tables as tables that the text spells. Of an integer that it
cannot represent TOML demands an error, so such an integer is not written, and a document that has
it may be refused.

Key definitions: `Grammar.Digits`, `Grammar.Integer`, `Grammar.Escape`, `Grammar.OneLine`,
`Grammar.ManyLines`, `Grammar.Quoted`, `Grammar.Key`, `Grammar.Constant`, `Grammar.Statement`,
`Grammar.Spells`, `Tables.Same`, `Entries.Shows`, `Format.Conforms`.
-/
import MarkdownHtml.Toml.Format

namespace MarkdownHtml
namespace Toml
namespace Grammar

/-! ### Numbers -/

/-- `c` is the digit `d` of a base, in lower or in upper case. -/
def IsDigit (base : Nat) (c : Char) (d : Nat) : Prop :=
  d < base ∧ (c = d.digitChar ∨ c = d.digitChar.toUpper)

/-- Digits and the number that they write. A single underscore may stand between two of them. -/
inductive Digits (base : Nat) : List Char → Nat → Prop
  | one {c : Char} {d : Nat} : IsDigit base c d → Digits base [c] d
  | next {s : List Char} {n : Nat} {c : Char} {d : Nat} :
      Digits base s n → IsDigit base c d → Digits base (s ++ [c]) (base * n + d)
  | group {s : List Char} {n : Nat} {c : Char} {d : Nat} :
      Digits base s n → IsDigit base c d → Digits base (s ++ ['_', c]) (base * n + d)

/-- Decimal digits, without a zero in front of others. -/
def DecimalDigits (s : List Char) (n : Nat) : Prop :=
  Digits 10 s n ∧ (s.head? = some '0' → s = ['0'])

/-- What stands behind a zero to say the base of a number. -/
def bases : List (Char × Nat) := [('x', 16), ('o', 8), ('b', 2)]

/-- Integers: decimal with or without a sign, or in another base without one. -/
inductive Integer : List Char → Int → Prop
  | unsigned {s : List Char} {n : Nat} : DecimalDigits s n → Integer s n
  | positive {s : List Char} {n : Nat} : DecimalDigits s n → Integer ('+' :: s) n
  | negative {s : List Char} {n : Nat} : DecimalDigits s n → Integer ('-' :: s) (-n)
  | based {mark : Char} {base : Nat} {s : List Char} {n : Nat} :
      (mark, base) ∈ bases → Digits base s n → Integer ('0' :: mark :: s) n

/-! ### Strings -/

/-- What a backslash and one character stand for. -/
def shortEscapes : List (Char × Char) :=
  [('b', '\x08'), ('t', '\t'), ('n', '\n'), ('f', '\x0c'), ('r', '\r'), ('"', '"'), ('\\', '\\')]

/-- How many hexadecimal digits of a code point follow a character behind a backslash. -/
def codeSizes : List (Char × Nat) := [('u', 4), ('U', 8)]

/-- What follows the backslash of an escape, and the character that it stands for. -/
inductive Escape : List Char → Char → Prop
  | short {k c : Char} : (k, c) ∈ shortEscapes → Escape [k] c
  | code {k : Char} {s : List Char} {n : Nat} :
      (k, s.length) ∈ codeSizes → Digits 16 s n → '_' ∉ s → n.isValidChar →
      Escape (k :: s) (Char.ofNat n)

/-- The quotes of strings, and whether there are escapes between them. -/
def quotes : List (Char × Bool) := [('"', true), ('\x27', false)]

/-- `c` stands for itself between quotes. -/
def Stands (escapes : Bool) (quote c : Char) : Prop :=
  c ≠ quote ∧ (escapes = true → c ≠ '\\') ∧ isForbidden c = false

/-- What stands between the quotes of a string on one line, and the string. -/
inductive OneLine (escapes : Bool) (quote : Char) : List Char → List Char → Prop
  | nil : OneLine escapes quote [] []
  | plain {c : Char} {t s : List Char} : Stands escapes quote c → OneLine escapes quote t s →
      OneLine escapes quote (c :: t) (c :: s)
  | escape {e : List Char} {c : Char} {t s : List Char} : escapes = true → Escape e c →
      OneLine escapes quote t s → OneLine escapes quote ('\\' :: (e ++ t)) (c :: s)

/-- The ends of lines. -/
def lineEnds : List (List Char) := [['\n'], ['\r', '\n']]

theorem mem_lineEnds {e : List Char} : e ∈ lineEnds ↔ e = ['\n'] ∨ e = ['\r', '\n'] := by
  simp [lineEnds]

/-- Spaces and tabs. -/
def Pads (s : List Char) : Prop := ∀ c ∈ s, Text.isPad c = true

/-- Spaces, tabs and line ends. -/
inductive Blanks : List Char → Prop
  | nil : Blanks []
  | pad {c : Char} {s : List Char} : Text.isPad c = true → Blanks s → Blanks (c :: s)
  | feed {e s : List Char} : e ∈ lineEnds → Blanks s → Blanks (e ++ s)

/-- No blank and no line end stands at the start of `s`. -/
def NoBlank (s : List Char) : Prop :=
  ∀ c ∈ s.head?, Text.isPad c = false ∧ Text.isLineEnd c = false

/-- What stands between triple quotes, and the string, behind `run` quotes in a row. Up to two may
stand in a row. A backslash at the end of a line says nothing, with all blanks and line ends that
follow it. Other line ends stand for themselves if they are kept. -/
inductive ManyLines (keeps : List Char → Prop) (escapes : Bool) (quote : Char) :
    Nat → List Char → List Char → Prop
  | nil {run : Nat} : ManyLines keeps escapes quote run [] []
  | quote {run : Nat} {t s : List Char} : run < 2 → ManyLines keeps escapes quote (run + 1) t s →
      ManyLines keeps escapes quote run (quote :: t) (quote :: s)
  | plain {run : Nat} {c : Char} {t s : List Char} : Stands escapes quote c →
      ManyLines keeps escapes quote 0 t s → ManyLines keeps escapes quote run (c :: t) (c :: s)
  | feed {run : Nat} {e t s : List Char} : e ∈ lineEnds → keeps e →
      ManyLines keeps escapes quote 0 t s → ManyLines keeps escapes quote run (e ++ t) (e ++ s)
  | escape {run : Nat} {e : List Char} {c : Char} {t s : List Char} : escapes = true →
      Escape e c → ManyLines keeps escapes quote 0 t s →
      ManyLines keeps escapes quote run ('\\' :: (e ++ t)) (c :: s)
  | fold {run : Nat} {pads e blanks t s : List Char} : escapes = true → Pads pads →
      e ∈ lineEnds → Blanks blanks → NoBlank t → ManyLines keeps escapes quote 0 t s →
      ManyLines keeps escapes quote run ('\\' :: (pads ++ (e ++ (blanks ++ t)))) s

/-- Strings in all their forms. A line end right behind triple quotes says nothing, and what
stands between them starts with no other. -/
inductive Quoted (keeps : List Char → Prop) : List Char → List Char → Prop
  | line {quote : Char} {escapes : Bool} {t s : List Char} : (quote, escapes) ∈ quotes →
      OneLine escapes quote t s → Quoted keeps (quote :: (t ++ [quote])) s
  | lines {quote : Char} {escapes : Bool} {start t s : List Char} : (quote, escapes) ∈ quotes →
      start ∈ lineEnds ∨ start = [] ∧ (∀ c ∈ t.head?, Text.isLineEnd c = false) →
      ManyLines keeps escapes quote 0 t s →
      Quoted keeps (List.replicate 3 quote ++ (start ++ (t ++ List.replicate 3 quote))) s

/-! ### Lines -/

/-- Keys and names of tables, with quotes or without. -/
inductive Key : List Char → List Char → Prop
  | bare {s : List Char} : s ≠ [] → (∀ c ∈ s, isKeyChar c = true) → Key s s
  | quoted {quote : Char} {escapes : Bool} {t s : List Char} : (quote, escapes) ∈ quotes →
      OneLine escapes quote t s → Key (quote :: (t ++ [quote])) s

/-- A plain value as it may be written. -/
inductive Constant (keeps : List Char → Prop) : List Char → Plain → Prop
  | integer {t : List Char} {n : Int} : Integer t n → Constant keeps t (.integer n)
  | string {t s : List Char} : Quoted keeps t s → Constant keeps t (.string (String.ofList s))
  | boolean (b : Bool) : Constant keeps (toString b).toList (.boolean b)

/-- What may stand at the end of every line: blanks, and then a comment. -/
inductive Trail : List Char → Prop
  | pads {s : List Char} : Pads s → Trail s
  | comment {s t : List Char} : Pads s → (∀ c ∈ t, isForbidden c = false) → Trail (s ++ '#' :: t)

/-- What a line says. -/
inductive Item where
  | blank
  | header (name : String)
  | row (key : String) (value : Plain)

/-- Whether the line says something. -/
def Item.speaks : Item → Bool
  | .blank => false
  | _ => true

/-- A line without its end, and what it says. -/
inductive Statement (keeps : List Char → Prop) : List Char → Item → Prop
  | blank {t : List Char} : Trail t → Statement keeps t .blank
  | header {a b k name c t : List Char} : Pads a → Pads b → Key k name → Pads c → Trail t →
      Statement keeps (a ++ '[' :: (b ++ (k ++ (c ++ ']' :: t)))) (.header (String.ofList name))
  | row {a k key b c v t : List Char} {value : Plain} : Pads a → Key k key → Pads b → Pads c →
      Constant keeps v value → Trail t →
      Statement keeps (a ++ (k ++ (b ++ '=' :: (c ++ (v ++ t))))) (.row (String.ofList key) value)

/-- The lines of a text, and what they say. The last line has no end, but may be empty. -/
inductive Statements (keeps : List Char → Prop) : List Char → List Item → Prop
  | last {t : List Char} {i : Item} : Statement keeps t i → Statements keeps t [i]
  | cons {t e s : List Char} {i : Item} {is : List Item} : Statement keeps t i → e ∈ lineEnds →
      Statements keeps s is → Statements keeps (t ++ (e ++ s)) (i :: is)

/-- What the lines of tables say, in order. -/
def itemsOf (tables : Tables) : List Item :=
  tables.flatMap fun t => .header t.1 :: t.2.map fun row => .row row.1 row.2

/-- The text spells the tables, in their order. No name is there twice. -/
structure Spells (keeps : List Char → Prop) (text : List Char) (tables : Tables) : Prop where
  lines : ∃ items, Statements keeps text items ∧ items.filter Item.speaks = itemsOf tables
  distinct : tables.areDistinct = true

end Grammar

/-! ### Formats -/

/-- The same tables with the same values, in whatever order. -/
structure Tables.Same (tables other : Tables) : Prop where
  names : ∀ name, name ∈ tables.map Prod.fst ↔ name ∈ other.map Prod.fst
  values : ∀ name key, tables.value? name key = other.value? name key

/-- The entries of a document show the tables: these and no others are there, each with its keys
and no others. -/
def Entries.Shows (entries : Entries) (tables : Tables) : Prop :=
  ∀ name, (name ∉ tables.map Prod.fst ∧ entries.get? name = none) ∨
    (name ∈ tables.map Prod.fst ∧ ∃ origin inner, entries.get? name = some (.table origin inner) ∧
      ∀ key, Entries.get? inner key = (tables.value? name key).map Plain.value)

/-- A format keeps to TOML on plain tables. `carried` are the integers that it represents without
loss, which TOML asks of all that fit 64 bits with a sign. `keeps` are the line ends that it keeps
in strings; it writes no others into them. -/
structure Format.Conforms (format : Format) (carried : Int → Prop) (keeps : List Char → Prop) :
    Prop where
  /-- What is written spells the tables. -/
  writes : ∀ tables text, format.write tables = some text →
    ∃ spelled, spelled.Same tables ∧ Grammar.Spells keeps text spelled
  /-- An integer that is not carried is an error when it is written. -/
  refuses : ∀ tables text, format.write tables = some text →
    ∀ name key n, tables.value? name key = some (.integer n) → carried n
  /-- A document whose integers are carried is read as one that the text spells. -/
  reads : ∀ text tables, Grammar.Spells keeps text tables →
    (∀ name key n, tables.value? name key = some (.integer n) → carried n) →
    ∃ spelled entries, Grammar.Spells keeps text spelled ∧ format.read text = some entries ∧
      entries.Shows spelled

end Toml
end MarkdownHtml
