/-
# Where emphasis may open and close

A run of `*` or `_` may open emphasis before a character that is not white space,
and may close it behind one. Underscores do neither inside a word, so that
`snake_case_name` stays as it is.

Key definitions: `Delimiter`, `Flanking`, `Flanking.between`.
-/
import MarkdownHtml.Text.Alphanumeric
import MarkdownHtml.Text.Space

namespace MarkdownHtml

/-- The two characters emphasis is written with. -/
inductive Delimiter where
  | star
  | underscore
deriving Repr, DecidableEq, Inhabited

/-- The character of a delimiter. -/
def Delimiter.char : Delimiter → Char
  | .star => '*'
  | .underscore => '_'

/-- The delimiter that a character is; anything but `_` counts as `*`. -/
def Delimiter.ofChar (c : Char) : Delimiter := if c == '_' then .underscore else .star

/-- The place of a delimiter in a table with one entry for each. -/
def Delimiter.slot : Delimiter → Nat
  | .star => 0
  | .underscore => 1

/-- What a run of delimiters may do. -/
structure Flanking where
  canOpen : Bool
  canClose : Bool
deriving Repr, DecidableEq, Inhabited

/-- What a run of `mark` may do between the characters `before` and `after`. -/
def Flanking.between (mark : Delimiter) (before after : Option Char) : Flanking :=
  let opens := after.any fun c => !Text.isWhite c
  let closes := before.any fun c => !Text.isWhite c
  match mark with
  | .star => ⟨opens, closes⟩
  | .underscore =>
    ⟨opens && !before.any Text.isAlphanumeric, closes && !after.any Text.isAlphanumeric⟩

end MarkdownHtml
