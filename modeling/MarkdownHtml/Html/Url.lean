/-
# Addresses of links and images

An address whose scheme can run scripts or reach local files is not safe to
write. The scheme is looked for the way a browser does: blanks and controls in
front, and tabs and line ends anywhere, are passed over, and case does not count.
An image may still hold its data in one of four picture formats. What is written
is percent-encoded: bytes that cannot stand in an attribute become `%XX`, and
escapes that are there stay.

Key definitions: `Url.isSafe`, `Url.percentEncode`.
-/
import MarkdownHtml.Text.Space
import MarkdownHtml.Text.Utf8

namespace MarkdownHtml
namespace Url

/-- Where an address is used. -/
inductive Use where
  | link
  | image
deriving Repr, DecidableEq

/-- The lower case form of ASCII letters. -/
def lower (s : List Char) : List Char := s.map Char.toLower

/-- Tabs and line ends, which a browser passes over inside an address. -/
def isIgnored (c : Char) : Bool := c == '\t' || c == '\n' || c == '\r'

/-- The address as a browser looks at it when it looks for the scheme. -/
def cleaned (url : List Char) : List Char :=
  (url.dropWhile fun c => Text.isAsciiSpace c || Text.isControl c).filter fun c => !isIgnored c

/-- Characters of a scheme behind its first letter. -/
def isSchemeChar (c : Char) : Bool :=
  c.isAlphanum || c == '+' || c == '-' || c == '.'

/-- The scheme in lower case and what follows its colon, if the address has a
scheme. -/
def scheme? (url : List Char) : Option (List Char × List Char) :=
  let name := url.takeWhile (· != ':')
  match url.dropWhile (· != ':'), name with
  | _ :: rest, first :: more =>
    if first.isAlpha && more.all isSchemeChar then some (lower name, rest) else none
  | _, _ => none

/-- Schemes that are never written as they are. -/
def blockedSchemes : List (List Char) :=
  ["javascript".toList, "vbscript".toList, "file".toList, "data".toList]

/-- The picture formats that an image may hold as data. -/
def pictureFormats : List (List Char) :=
  ["image/png".toList, "image/gif".toList, "image/jpeg".toList, "image/webp".toList]

/-- Whether an address may be written. -/
def isSafe (use : Use) (url : List Char) : Bool :=
  match scheme? (cleaned url) with
  | none => true
  | some (scheme, rest) =>
    if !blockedSchemes.contains scheme then true
    else if use = .image && scheme == "data".toList then
      pictureFormats.any fun format => format.isPrefixOf (lower rest)
    else false

/-- Bytes that do not stand in an address as they are. -/
def needsEncoding (b : UInt8) : Bool :=
  let n := b.toNat
  n == 0x20 || n == 0x5C || n == 0x3C || n == 0x3E || n == 0x22 || n == 0x60 ||
    n < 0x20 || 0x7F ≤ n

/-- The upper case hexadecimal digit of `n`, for `n` below 16. -/
def hexDigit (n : Nat) : Char := if n < 10 then Char.ofNat (48 + n) else Char.ofNat (55 + n)

/-- A byte as it is written in an address. -/
def encodeByte (b : UInt8) : List Char :=
  if needsEncoding b then ['%', hexDigit (b.toNat / 16), hexDigit (b.toNat % 16)]
  else [Char.ofNat b.toNat]

/-- The address with the bytes that need it percent-encoded. -/
def percentEncode (url : String) : String :=
  String.ofList ((Text.encode url).flatMap encodeByte)

end Url
end MarkdownHtml
