/-
# Why a conversion fails

Malformed Markdown is never an error: what cannot be resolved is literal text.
A conversion fails only because the bytes are no text or because a limit is
passed.

Key definitions: `ConversionError`, `ConversionError.message`, `Limits.refusal?`.
-/
import MarkdownHtml.Options

namespace MarkdownHtml

/-- The causes for which a conversion fails. -/
inductive ConversionError where
  /-- The bytes are valid text only up to an offset. -/
  | notUtf8 (validUpTo : Nat)
  | tooLarge (bytes limit : Nat)
  | tooDeep (limit : Nat)
deriving Repr, DecidableEq, Inhabited

/-- What the error says to a reader. -/
def ConversionError.message : ConversionError → String
  | .notUtf8 n => s!"Input is not valid UTF-8 (valid up to byte {n})"
  | .tooLarge bytes limit =>
    s!"Resource limit exceeded: input is {bytes} bytes, maximum is {limit}"
  | .tooDeep limit => s!"Resource limit exceeded: nesting deeper than {limit} levels"

/-- The error for an input of `bytes` bytes, if the limits do not admit it. -/
def Limits.refusal? (limits : Limits) (bytes : Nat) : Option ConversionError :=
  if limits.maxInputBytes < bytes then some (.tooLarge bytes limits.maxInputBytes) else none

/-- The error for nesting past the limit. -/
def Limits.nestingError (limits : Limits) : ConversionError := .tooDeep limits.maxNesting

theorem Limits.refusal?_eq_none_iff {limits : Limits} {bytes : Nat} :
    limits.refusal? bytes = none ↔ bytes ≤ limits.maxInputBytes := by
  simp [Limits.refusal?]

end MarkdownHtml
