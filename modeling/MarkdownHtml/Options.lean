/-
# What a conversion can be told

`Limits` bound the work: the size of the input in bytes and the depth to which
lists, quotes and formatting may nest. `RenderOptions` shape the HTML. Both have
defaults, and `Options` is a pair of them.

Key definitions: `Limits`, `RenderOptions`, `Options`.
-/

namespace MarkdownHtml

/-- Safety bounds of a conversion. -/
structure Limits where
  /-- The largest input, in bytes. -/
  maxInputBytes : Nat := 1048576
  /-- The deepest nesting of lists, of quotes and of formatting. -/
  maxNesting : Nat := 64
deriving Repr, DecidableEq, Inhabited

/-- How a document is written as HTML. -/
structure RenderOptions where
  /-- What stands before the language in the class of a code block. -/
  languageStem : String := "language-"
  /-- Whether addresses with a scheme that can run scripts are left empty. -/
  filterUrls : Bool := true
deriving Repr, DecidableEq, Inhabited

/-- All that one conversion needs. -/
structure Options where
  limits : Limits := {}
  render : RenderOptions := {}
deriving Repr, DecidableEq, Inhabited

end MarkdownHtml
