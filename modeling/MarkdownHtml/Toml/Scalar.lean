/-
# Numbers, truth values and times in TOML

A value that is neither quoted nor bracketed is written without quotes: `true` and
`false`, integers in four bases, floats, dates and times. Digits may be grouped by
single underscores. What counts as an integer is decided by its shape: the mark of a
base without digits (`0x`) and a text with underscores in the right places (`1_a`)
have it too, and that they are no number matters once the value is looked at.

Key definitions: `Toml.integer?`, `Toml.float?`, `Toml.isDateTime`, `Toml.scalar?`.
-/
import MarkdownHtml.Text.Space
import MarkdownHtml.Toml.Value

namespace MarkdownHtml
namespace Toml

/-- The value of a digit in a base up to 16. -/
def digit? (base : Nat) (c : Char) : Option Nat :=
  let n :=
    if c.isDigit then c.toNat - 48
    else if 'a' ≤ c ∧ c ≤ 'f' then c.toNat - 87
    else if 'A' ≤ c ∧ c ≤ 'F' then c.toNat - 55
    else 16
  if n < base then some n else none

/-- Reads on behind a digit: further digits, each two of them parted by at most one
underscore. -/
def digitsFrom (base : Nat) (value : Nat) : List Char → Option Nat
  | [] => some value
  | '_' :: c :: rest =>
    match digit? base c with
    | some d => digitsFrom base (base * value + d) rest
    | none => none
  | c :: rest =>
    match digit? base c with
    | some d => digitsFrom base (base * value + d) rest
    | none => none

/-- The number that a non-empty text of digits and underscores writes. -/
def digits? (base : Nat) : List Char → Option Nat
  | [] => none
  | '_' :: _ => none
  | s => digitsFrom base 0 s

/-- A decimal number without sign and without leading zeros. -/
def decimal? (s : List Char) : Option Nat :=
  match s with
  | '0' :: _ :: _ => none
  | s => digits? 10 s

/-- The sign of a number, `true` for minus, and what follows it. -/
def sign : List Char → Bool × List Char
  | '+' :: rest => (false, rest)
  | '-' :: rest => (true, rest)
  | s => (false, s)

/-- The number of a sign and a magnitude. -/
def signed (negative : Bool) (n : Nat) : Int := if negative then -Int.ofNat n else Int.ofNat n

/-- Whether `c` starts an exponent. -/
def isExponentMark (c : Char) : Bool := c == 'e' || c == 'E'

/-! ### Integers -/

/-- Whether `c` is a digit in one of the bases. -/
def isAnyDigit (c : Char) : Bool := (digit? 16 c).isSome

/-- Whether every underscore has a digit, of whatever base, behind it and, unless it
comes first, also before it. -/
def wellGrouped : List Char → Bool
  | [] => true
  | ['_'] => false
  | '_' :: c :: rest => isAnyDigit c && wellGrouped (c :: rest)
  | c :: '_' :: rest => isAnyDigit c && wellGrouped ('_' :: rest)
  | _ :: rest => wellGrouped rest

/-- Characters that a grouped integer does not hold. A tab is none of them. -/
def endsGrouped (c : Char) : Bool :=
  c == ' ' || Text.isLineEnd c || c == '.' || c == ',' || c == '=' || c == '#' ||
    c == '[' || c == ']' || c == '\x7b' || c == '\x7d' || isExponentMark c

/-- Whether a quote follows a tab, so that a string starts there. -/
def startsString : List Char → Bool
  | '\t' :: c :: rest => c == '"' || c == '\x27' || startsString (c :: rest)
  | _ :: rest => startsString rest
  | [] => false

/-- Whether a text has the shape of a decimal integer because of an underscore behind
its first digits. Only the places of the underscores matter, not what else is in the
text. -/
def isGrouped (s : List Char) : Bool :=
  (s.dropWhile Char.isDigit).head? == some '_' && s.head? != some '0' && s.head? != some '_' &&
    wellGrouped s && !s.any endsGrouped && !startsString s

/-- A decimal integer without its sign. The inner value is missing if underscores give
the shape of an integer to what is no number. -/
def magnitude? (s : List Char) : Option (Option Nat) :=
  if isGrouped s then some (digits? 10 (s.filter (· != '_'))) else (decimal? s).map some

/-- The digits behind the mark of a base. There may be none: that has the shape of an
integer and is no number. -/
def based? (base : Nat) (s : List Char) : Option (Option Int) :=
  if s.isEmpty then some none else (digits? base s).map fun n => some (Int.ofNat n)

/-- What has the shape of an integer: decimal with an optional sign, or hexadecimal,
octal or binary without one. The inner value is missing if it is no number. -/
def integer? (s : List Char) : Option (Option Int) :=
  match s with
  | '0' :: 'x' :: rest => based? 16 rest
  | '0' :: 'o' :: rest => based? 8 rest
  | '0' :: 'b' :: rest => based? 2 rest
  | s =>
    let (negative, rest) := sign s
    (magnitude? rest).map fun value => value.map (signed negative)

/-! ### Floats -/

/-- The exponent of a float, 0 if none is written. -/
def exponent? : List Char → Option Int
  | [] => some 0
  | _ :: rest =>
    let (negative, rest) := sign rest
    (digits? 10 rest).map (signed negative)

/-- How many digits a text of digits and underscores has. -/
def digitCount (s : List Char) : Nat := (s.filter Char.isDigit).length

/-- A finite float: a whole part, and a fraction, an exponent or both. -/
def finite? (s : List Char) : Option Decimal :=
  let mantissa := s.takeWhile fun c => !isExponentMark c
  let power := s.dropWhile fun c => !isExponentMark c
  let whole := mantissa.takeWhile (· != '.')
  match decimal? whole, mantissa.dropWhile (· != '.'), exponent? power with
  | some n, '.' :: fraction, some e =>
    (digits? 10 fraction).map fun f =>
      ⟨n * Nat.pow 10 (digitCount fraction) + f, e - digitCount fraction⟩
  | some n, [], some e => if power.isEmpty then none else some ⟨n, e⟩
  | _, _, _ => none

/-- A float; the magnitude is missing for infinities and for what is no number. -/
def float? (s : List Char) : Option (Option Decimal) :=
  let (_, rest) := sign s
  if rest == ['i', 'n', 'f'] || rest == ['n', 'a', 'n'] then some none
  else (finite? rest).map some

/-! ### Dates and times -/

/-- The value of two digits, if they are and it is not over `limit`. -/
def twoDigits? (limit : Nat) (a b : Char) : Option Nat :=
  match digit? 10 a, digit? 10 b with
  | some x, some y => if 10 * x + y ≤ limit then some (10 * x + y) else none
  | _, _ => none

/-- The days of a month. -/
def daysIn (year month : Nat) : Nat :=
  if month = 2 then
    if year % 4 = 0 ∧ (year % 100 ≠ 0 ∨ year % 400 = 0) then 29 else 28
  else if month = 4 ∨ month = 6 ∨ month = 9 ∨ month = 11 then 30
  else 31

/-- What follows a calendar date `YYYY-MM-DD`. -/
def afterDate? : List Char → Option (List Char)
  | a :: b :: c :: d :: '-' :: m :: n :: '-' :: x :: y :: rest => do
    let century ← twoDigits? 99 a b
    let year ← twoDigits? 99 c d
    let month ← twoDigits? 12 m n
    let day ← twoDigits? 31 x y
    if month = 0 ∨ day = 0 ∨ daysIn (100 * century + year) month < day then none else some rest
  | _ => none

/-- What follows the fraction of a second, at least one digit of it. -/
def afterFraction? : List Char → Option (List Char)
  | c :: rest => if c.isDigit then some (rest.dropWhile Char.isDigit) else none
  | [] => none

/-- What follows a time of day `HH:MM`, `HH:MM:SS` or `HH:MM:SS.F`. -/
def afterTime? : List Char → Option (List Char)
  | a :: b :: ':' :: c :: d :: rest => do
    let _ ← twoDigits? 23 a b
    let _ ← twoDigits? 59 c d
    match rest with
    | ':' :: e :: f :: rest => do
      let _ ← twoDigits? 60 e f
      match rest with
      | '.' :: rest => afterFraction? rest
      | rest => some rest
    | rest => some rest
  | _ => none

/-- Whether a text is empty or an offset from universal time. -/
def isOffset : List Char → Bool
  | [] => true
  | ['Z'] => true
  | ['z'] => true
  | [s, a, b, ':', c, d] =>
    (s == '+' || s == '-') && (twoDigits? 23 a b).isSome && (twoDigits? 59 c d).isSome
  | _ => false

/-- Whether a text is a date, a time, or both with or without an offset. -/
def isDateTime (s : List Char) : Bool :=
  match afterDate? s with
  | some [] => true
  | some (c :: rest) =>
    (c == 'T' || c == 't' || c == ' ') && (afterTime? rest).any isOffset
  | none => afterTime? s == some []

/-- The value that an unquoted text writes. -/
def scalar? (s : List Char) : Option Value :=
  if s == "true".toList then some (.boolean true)
  else if s == "false".toList then some (.boolean false)
  else if isDateTime s then some .dateTime
  else
    match integer? s with
    | some value => some (.integer value)
    | none => (float? s).map .float

/-- Whether the magnitude rounds to a finite double, that is, lies below
`2 ^ 1024 - 2 ^ 970`. -/
def Decimal.fitsDouble (d : Decimal) : Bool :=
  let size := (toString d.digits).length
  let bound := Nat.pow 2 1024 - Nat.pow 2 970
  if d.digits = 0 then true
  else if 400 < size + d.exponent then false
  else if size + d.exponent < 300 then true
  else if 0 ≤ d.exponent then d.digits * Nat.pow 10 d.exponent.toNat < bound
  else d.digits < bound * Nat.pow 10 (-d.exponent).toNat

end Toml
end MarkdownHtml
