/-
# Where settings are kept

The path of the settings is the value of an environment variable, with variables in
it replaced and a leading `~` read as the home directory, or else a fixed place in
the home directory. Variables are written `$NAME`, `${NAME}` or `${NAME:-default}`;
their values are not looked through again. A variable that is not set and has no
default makes the whole path void, and the fixed place is taken.

Key definitions: `Environment`, `expandVariables`, `expandPath?`,
`Settings.location`.
-/
import MarkdownHtml.Text.Alphanumeric

namespace MarkdownHtml
namespace Settings

/-- Names of variables and their values. -/
abbrev Environment := List (String × String)

/-- The value of a variable, if it is set. -/
def Environment.get? (env : Environment) (name : List Char) : Option (List Char) :=
  (env.lookup (String.ofList name)).map String.toList

/-- Whether `c` stands in the name of a variable without braces. -/
def isNameChar (c : Char) : Bool := Text.isAlphanumeric c || c == '_'

/-- Cuts a text at its first `:-`; `done` stands before, newest first. -/
def cutDefault (done : List Char) : List Char → List Char × Option (List Char)
  | [] => (done.reverse, none)
  | ':' :: '-' :: rest => (done.reverse, some rest)
  | c :: rest => cutDefault (c :: done) rest

/-- The value of what stands in braces: a name, or a name and a default. Without a
name in front, `:-` is part of the name. -/
def braced? (env : Environment) (body : List Char) : Option (List Char) :=
  match cutDefault [] body with
  | (name@(_ :: _), some default) => some ((env.get? name).getD default)
  | _ => env.get? body

/-- What a `$` before `rest` stands for, and how many characters of `rest` belong to
it; `none` if a variable is not set. -/
def reference? (env : Environment) (rest : List Char) : Option (List Char × Nat) :=
  match rest with
  | '\x7b' :: inner =>
    let body := inner.takeWhile (· != '\x7d')
    if body.length < inner.length then
      (braced? env body).map fun value => (value, body.length + 2)
    else some (['$', '\x7b'], 1)
  | '$' :: _ => some (['$'], 1)
  | rest =>
    let name := rest.takeWhile isNameChar
    if name.isEmpty then some (['$'], 0)
    else (env.get? name).map fun value => (value, name.length)

/-- Replaces the variables in a text. `done` is written already, newest first, and
the next `skip` characters are read already. -/
def expandFrom (env : Environment) (done : List Char) : Nat → List Char → Option (List Char)
  | _, [] => some done.reverse
  | skip + 1, _ :: rest => expandFrom env done skip rest
  | 0, c :: rest =>
    if c == '$' then
      match reference? env rest with
      | some (value, size) => expandFrom env (value.reverse ++ done) size rest
      | none => none
    else expandFrom env (c :: done) 0 rest

/-- Replaces the variables in a text. -/
def expandVariables (env : Environment) (s : List Char) : Option (List Char) :=
  expandFrom env [] 0 s

/-- Reads a leading `~`, alone or before a `/`, as the home directory. -/
def expandHome (env : Environment) (s : List Char) : List Char :=
  match s with
  | '~' :: rest =>
    if rest.isEmpty || rest.head? == some '/' then
      match env.get? "HOME".toList with
      | some home => home ++ rest
      | none => s
    else s
  | s => s

/-- A path with its variables replaced, and then its `~`, unless that is the value
of a variable; `none` if a variable is not set. -/
def expandPath? (env : Environment) (path : List Char) : Option (List Char) :=
  (expandVariables env path).map fun s =>
    if path.head? == some '~' then expandHome env s else s

/-- The path of the settings. -/
def location (env : Environment) : String :=
  let fixed := expandHome env "~/.config/mdconvert".toList ++ "/config.toml".toList
  let given := (env.get? "MDCONVERT_CONFIG".toList).bind (expandPath? env)
  String.ofList (given.getD fixed)

end Settings
end MarkdownHtml
