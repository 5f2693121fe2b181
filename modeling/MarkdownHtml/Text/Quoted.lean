/-
# Quoted texts

Reports show a text between double quotes. Quotes and backslashes are escaped by
a backslash, the common controls by a letter, and every other hidden character by
its number in braces (`\u{ad}`), so the quoted form shows each character of the
text, whatever it is. Which characters are hidden depends on the version of the
Unicode standard and is a parameter; reports go by `isHidden`.

Key definitions: `quotedChar`, `quotedBy`, `quoted`.
-/
import MarkdownHtml.Text.Hidden

namespace MarkdownHtml
namespace Text

/-- The lower case hexadecimal digits of `n`, without leading zeros. -/
def hexDigits (n : Nat) : List Char := Nat.toDigits 16 n

/-- How a character is written inside a quoted text. -/
def quotedChar (hidden : Char → Bool) (c : Char) : List Char :=
  if c == '\x00' then ['\\', '0']
  else if c == '\t' then ['\\', 't']
  else if c == '\r' then ['\\', 'r']
  else if c == '\n' then ['\\', 'n']
  else if c == '"' then ['\\', '"']
  else if c == '\\' then ['\\', '\\']
  else if hidden c then ['\\', 'u', '\x7b'] ++ hexDigits c.toNat ++ ['\x7d']
  else [c]

/-- The text between double quotes, with what has to be escaped escaped. -/
def quotedBy (hidden : Char → Bool) (s : String) : String :=
  String.ofList ('"' :: s.toList.flatMap (quotedChar hidden) ++ ['"'])

/-- The quoted form of a text that may be missing. -/
def quotedOptionBy (hidden : Char → Bool) : Option String → String
  | none => "None"
  | some s => "Some(" ++ quotedBy hidden s ++ ")"

/-- The text as reports quote it. -/
def quoted (s : String) : String := quotedBy isHidden s

end Text
end MarkdownHtml
