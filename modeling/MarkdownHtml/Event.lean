/-
# What a conversion reports while it works

Each step of note is an event with a level and a line of text. Events are values:
a conversion returns the ones that happened, in order, and nothing else depends
on them.

Key definitions: `Event`, `Event.level`, `Event.message`, `Event.line`.
-/
import MarkdownHtml.Text.Quoted

namespace MarkdownHtml

/-- The leaf blocks that stay open over several lines. -/
inductive LeafKind where
  | paragraph
  | item
  | code
deriving Repr, DecidableEq

/-- What such a block is called in a report. -/
def LeafKind.name : LeafKind → String
  | .paragraph => "paragraph"
  | .item => "list item"
  | .code => "code block"

/-- A step of a conversion, or of finding its settings, that is reported. -/
inductive Event where
  /-- Too many delimiters were open, and the oldest became text. -/
  | openerDropped
  | closed (leaf : LeafKind)
  | quoteTooDeep (line depth : Nat)
  | listTooDeep (depth : Nat)
  | inputTooLarge (bytes limit : Nat)
  | urlDropped (url : String)
  | converted (bytes blocks htmlBytes : Nat)
  | noSettings (path : String)
  | settingsLoaded (path : String)
  | converterConfigured (path : String)
deriving Repr, DecidableEq

/-- How urgent an event is. -/
def Event.level : Event → String
  | .openerDropped | .closed _ => "TRACE"
  | .quoteTooDeep .. | .listTooDeep _ | .inputTooLarge .. => "WARN"
  | _ => "DEBUG"

/-- The text of an event. -/
def Event.message : Event → String
  | .openerDropped => "inline delimiter stack full, oldest opener becomes text"
  | .closed leaf => "closed " ++ leaf.name
  | .quoteTooDeep line depth => s!"line {line}: blockquote depth {depth} over limit"
  | .listTooDeep depth => s!"list depth {depth} over limit"
  | .inputTooLarge bytes limit => s!"input of {bytes} bytes over limit {limit}"
  | .urlDropped url => "dropped unsafe url " ++ Text.quoted url
  | .converted bytes blocks htmlBytes =>
    s!"converted {bytes} bytes into {blocks} blocks, {htmlBytes} bytes of html"
  | .noSettings path => "no config at " ++ path
  | .settingsLoaded path => "loaded config from " ++ path
  | .converterConfigured path => "converter configured from " ++ path

/-- An event as one line of a log. -/
def Event.line (e : Event) : String := e.level ++ " " ++ e.message

end MarkdownHtml
