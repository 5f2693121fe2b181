/-
# Converting Markdown to HTML

One call runs it all: the size is checked, the lines are read into a document and
the document is written as HTML. Bytes are checked for size before they are read as
text. A call returns its result and the events on the way, and depends on nothing
but its arguments.

Key definitions: `Conversion`, `Document.read`, `Document.parse`, `convert`,
`convertBytes`.
-/
import MarkdownHtml.Block.Builder
import MarkdownHtml.Html.Render
import MarkdownHtml.Line.Reader

namespace MarkdownHtml

/-- A result and the events on the way to it, oldest first. -/
structure Conversion (α : Type) where
  result : Except ConversionError α
  events : List Event := []

/-- The document behind a step of the builder. -/
def Attempt.conclude (a : Attempt) : Conversion Document :=
  { result := match a.failure with
      | none => .ok a.builder.blocks
      | some e => .error e
    events := a.builder.events.reverse }

/-- The document that classified lines make, whatever their size. -/
def Document.ofLines (limits : Limits) (lines : List Line) : Conversion Document :=
  ((Builder.pushAll lines { limits }).andThen Builder.finish).conclude

/-- Reads a text of at most the permitted size into a document. -/
def Document.read (limits : Limits) (input : String) : Conversion Document :=
  let bytes := input.utf8ByteSize
  match limits.refusal? bytes with
  | some e => { result := .error e, events := [.inputTooLarge bytes limits.maxInputBytes] }
  | none => Document.ofLines limits (Line.ofText input.toList)

/-- The document of a text, or the error that a limit is passed. -/
def Document.parse (limits : Limits) (input : String) : Except ConversionError Document :=
  (Document.read limits input).result

/-- Converts a text to HTML. -/
def convert (options : Options) (input : String) : Conversion String :=
  let read := Document.read options.limits input
  match read.result with
  | .error e => { result := .error e, events := read.events }
  | .ok doc =>
    let html := Document.toHtml doc options.render
    let dropped := (Document.droppedUrls doc options.render).map Event.urlDropped
    let summary := Event.converted input.utf8ByteSize doc.length html.utf8ByteSize
    { result := .ok html, events := read.events ++ dropped ++ [summary] }

/-- Converts bytes, which have to be UTF-8, to HTML. -/
def convertBytes (options : Options) (bytes : List UInt8) : Conversion String :=
  match options.limits.refusal? bytes.length with
  | some e =>
    { result := .error e,
      events := [.inputTooLarge bytes.length options.limits.maxInputBytes] }
  | none =>
    match Text.decode bytes with
    | .error validUpTo => { result := .error (.notUtf8 validUpTo) }
    | .ok text => convert options (String.ofList text)

end MarkdownHtml
