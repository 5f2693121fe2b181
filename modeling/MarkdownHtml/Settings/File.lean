/-
# Options in a file

Options are loaded from a file, and a missing file is no error: the caller goes on
with defaults. A file that cannot be read as text and one that is no document of
options are two different errors. Saving makes the directories around the file,
then writes the options as text, and only then touches the file. The format of the
document is a parameter of both.

Key definitions: `SettingsError`, `SaveError`, `Settings.loadBy`, `Settings.saveBy`,
`Settings.load`, `Settings.save`.
-/
import MarkdownHtml.Event
import MarkdownHtml.Settings.Form
import MarkdownHtml.Settings.Store
import MarkdownHtml.Text.Utf8

namespace MarkdownHtml

/-- Why options cannot be loaded from the file at a path. -/
inductive SettingsError where
  | unreadable (path : String)
  | malformed (path : String)
deriving Repr, DecidableEq

/-- What the error says to a reader. -/
def SettingsError.message : SettingsError → String
  | .unreadable path => "Failed to read config file at " ++ path
  | .malformed path => "Failed to parse config file at " ++ path

/-- Why options cannot be saved to a file. -/
inductive SaveError where
  /-- A directory around the file cannot be made. -/
  | noDirectory
  /-- The options cannot be written as text. -/
  | noText
  /-- The file cannot be written. -/
  | notWritten
deriving Repr, DecidableEq

namespace Settings

/-- A result and the events on the way to it. -/
structure Outcome (α : Type) where
  result : Except SettingsError α
  events : List Event := []

/-- Loads options from a file in a format; `none` if there is no file. -/
def loadBy (format : Toml.Format) (store : Store) (path : String) : Outcome (Option Options) :=
  match (store.place? path).bind store.find? with
  | none => ⟨.ok none, [.noSettings path]⟩
  | some .directory => ⟨.error (.unreadable path), []⟩
  | some (.file content) =>
    match Text.decode content with
    | .error _ => ⟨.error (.unreadable path), []⟩
    | .ok text =>
      match (format.read text).bind Options.ofEntries? with
      | none => ⟨.error (.malformed path), []⟩
      | some options => ⟨.ok (some options), [.settingsLoaded path]⟩

/-- Loads options from a file of TOML. -/
def load (store : Store) (path : String) : Outcome (Option Options) := loadBy .lines store path

/-- How saving ends, and the store it leaves. -/
structure Saved where
  result : Except SaveError Unit
  store : Store

/-- Saves options to a file in a format, and makes the directories around it. -/
def saveBy (format : Toml.Format) (options : Options) (path : String) (store : Store) : Saved :=
  match store.makeAlong (Path.around (Path.steps path)) with
  | (false, store) => ⟨.error .noDirectory, store⟩
  | (true, store) =>
    match format.write options.tables with
    | none => ⟨.error .noText, store⟩
    | some text =>
      match store.write path (Text.encode (String.ofList text)) with
      | none => ⟨.error .notWritten, store⟩
      | some store => ⟨.ok (), store⟩

/-- Saves options to a file as TOML. -/
def save (options : Options) (path : String) (store : Store) : Saved :=
  saveBy .lines options path store

end Settings
end MarkdownHtml
