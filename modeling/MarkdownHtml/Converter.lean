/-
# A converter for host programs

A host configures a converter once, with limits or from a file, and converts many
times; each call is independent of the others. Errors reach the host with a word on
their kind in front. Limits are shown to it in 64 and 32 bits, and a depth that does
not fit is shown as the largest that does.

Key definitions: `HostError`, `HostLimits`, `Converter`, `Converter.ofFile`.
-/
import MarkdownHtml.Convert
import MarkdownHtml.Settings.File

namespace MarkdownHtml

/-- An error as a host program sees it. -/
inductive HostError where
  | conversion (error : ConversionError)
  | settings (error : SettingsError)
deriving Repr, DecidableEq

/-- What the error says to a reader. -/
def HostError.message : HostError → String
  | .conversion (.notUtf8 n) => "Invalid encoding: " ++ (ConversionError.notUtf8 n).message
  | .conversion e => "Resource exhausted: " ++ e.message
  | .settings e => "Config error: " ++ e.message

/-- Limits as a host program sees them. -/
structure HostLimits where
  maxInputBytes : UInt64
  maxNesting : UInt32
deriving Repr, DecidableEq

/-- The largest value of `bits` bits that is not over `n`. -/
def saturate (bits n : Nat) : Nat := min n (Nat.pow 2 bits - 1)

/-- The limits that a host program is shown. -/
def HostLimits.ofLimits (limits : Limits) : HostLimits :=
  ⟨(saturate 64 limits.maxInputBytes).toUInt64, (saturate 32 limits.maxNesting).toUInt32⟩

/-- The limits that a host program asks for. -/
def HostLimits.toLimits (limits : HostLimits) : Limits :=
  ⟨limits.maxInputBytes.toNat, limits.maxNesting.toNat⟩

/-- A converter with fixed options. -/
structure Converter where
  options : Options := {}
deriving Repr, DecidableEq

namespace Converter

/-- A converter with the given limits and default options of rendering. -/
def ofLimits (limits : HostLimits) : Converter := { options := { limits := limits.toLimits } }

/-- A converter with the options of a file, or the defaults if there is none. -/
def ofFile (store : Store) (path : String) : Settings.Outcome Converter :=
  let loaded := Settings.load store path
  match loaded.result with
  | .error e => ⟨.error e, loaded.events⟩
  | .ok options =>
    ⟨.ok { options := options.getD {} }, loaded.events ++ [.converterConfigured path]⟩

/-- Converts a text. -/
def convert (c : Converter) (input : String) : Conversion String :=
  MarkdownHtml.convert c.options input

/-- Converts bytes. -/
def convertBytes (c : Converter) (bytes : List UInt8) : Conversion String :=
  MarkdownHtml.convertBytes c.options bytes

/-- The limits of the converter. -/
def limits (c : Converter) : HostLimits := HostLimits.ofLimits c.options.limits

end Converter
end MarkdownHtml
