/-
# Thematic breaks

A rule across the page is written as three or more of one of `-`, `*` and `_`,
with spaces and tabs anywhere and nothing else on the line.

Key definition: `isRule`.
-/
import MarkdownHtml.Text.Space

namespace MarkdownHtml
namespace Line

/-- The characters a rule is written with. -/
def isRuleChar (c : Char) : Bool := c == '-' || c == '*' || c == '_'

/-- Whether the text is a thematic break. -/
def isRule (text : List Char) : Bool :=
  match text.filter fun c => !Text.isPad c with
  | [] => false
  | c :: rest => isRuleChar c && rest.all (· == c) && 2 ≤ rest.length

end Line
end MarkdownHtml
