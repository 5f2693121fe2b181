/-
# Character entities

Text between tags writes `&`, `<` and `>` as entities; an attribute value, which
stands in double quotes, also `"`. Nothing else changes, and entities already in
the text are not recognised, so decoding gives the text back.

Key definitions: `Html.escapeText`, `Html.escapeAttribute`.
-/

namespace MarkdownHtml
namespace Html

/-- A character of text between tags. -/
def textEntity (c : Char) : List Char :=
  if c == '&' then ['&', 'a', 'm', 'p', ';']
  else if c == '<' then ['&', 'l', 't', ';']
  else if c == '>' then ['&', 'g', 't', ';']
  else [c]

/-- A character of an attribute value. -/
def attributeEntity (c : Char) : List Char :=
  if c == '"' then ['&', 'q', 'u', 'o', 't', ';'] else textEntity c

/-- Escapes text that stands between tags. -/
def escapeText (s : String) : String := String.ofList (s.toList.flatMap textEntity)

/-- Escapes the value of an attribute in double quotes. -/
def escapeAttribute (s : String) : String := String.ofList (s.toList.flatMap attributeEntity)

end Html
end MarkdownHtml
