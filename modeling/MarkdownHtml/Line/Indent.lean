/-
# Indentation in columns

A tab reaches to the next multiple of four columns, a space covers one. The
indentation of a line is measured in columns (`columns`), and the content of
fenced code loses as many columns as its fence was indented (`stripIndent`). A
tab is never split: it goes as a whole once its first column has to go.

Key definitions: `tabStop`, `columns`, `stripIndent`.
-/
import MarkdownHtml.Text.Space

namespace MarkdownHtml
namespace Line

/-- The column after a tab that starts in `column`. -/
def tabStop (column : Nat) : Nat := column + 4 - column % 4

/-- The width of a run of blanks in columns; anything but a tab is one wide. -/
def columns (blanks : List Char) : Nat :=
  blanks.foldl (fun col c => if c == '\t' then tabStop col else col + 1) 0

/-- Drops leading blanks of a text that starts in `column` until column `target`
is reached. -/
def stripTo (target column : Nat) : List Char → List Char
  | [] => []
  | c :: rest =>
    if target ≤ column then c :: rest
    else if c == ' ' then stripTo target (column + 1) rest
    else if c == '\t' then stripTo target (tabStop column) rest
    else c :: rest

/-- Removes up to `width` columns of leading blanks. -/
def stripIndent (line : List Char) (width : Nat) : List Char := stripTo width 0 line

theorem lt_tabStop (column : Nat) : column < tabStop column := by
  unfold tabStop
  omega

end Line
end MarkdownHtml
