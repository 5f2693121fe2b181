/-
# Character classes given by code point ranges

The classes of the Unicode standard that the converter consults are long lists
of code points. A class is kept as a table of closed ranges in ascending order,
and a character belongs to it when one of the ranges holds its code point.

Key definitions: `Ranges`, `Ranges.holds`.
-/

namespace MarkdownHtml
namespace Text

/-- Closed ranges of code points, ascending and apart from each other. -/
abbrev Ranges := List (Nat × Nat)

/-- Whether one of the ranges holds the code point of `c`. -/
def Ranges.holds (table : Ranges) (c : Char) : Bool :=
  table.any fun r => r.1 ≤ c.toNat && c.toNat ≤ r.2

end Text
end MarkdownHtml
