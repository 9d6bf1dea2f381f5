import MiniScriptLayout.Text.Blank
import MiniScriptLayout.Text.Lines

/-!
Lines of code and their comments. `ofText` breaks a line at its first `//`, and `render` writes it
again behind an indentation.
-/

namespace MiniScriptLayout

/-- A line's code and what follows its `//`, which is empty if the line has no comment. -/
structure CodeLine where
  code : List Char
  comment : List Char := []
  deriving DecidableEq, Repr

namespace CodeLine

/-- Finds the end of the code: the first place from which only blanks come before the end or before
a `//` whose comment takes the rest of the line. Code and comment hold no line feed. -/
def cut? : List Char → Option CodeLine
  | [] => some ⟨[], []⟩
  | c :: r =>
    match Text.trimLeft (c :: r) with
    | [] => some ⟨[], []⟩
    | '/' :: '/' :: rest =>
      let comment := Text.trimRight rest
      if comment.contains '\n' then longer c r else some ⟨[], comment⟩
    | _ => longer c r
where
  longer (c : Char) (r : List Char) : Option CodeLine :=
    if c = '\n' then none else (cut? r).map fun line => ⟨c :: line.code, line.comment⟩

/-- Breaks a line into code and comment. A text whose line feeds stand elsewhere than in the blanks
around code and comment is no single line; it is code as it is. -/
def ofText (line : List Char) : CodeLine :=
  (cut? (Text.trimLeft line)).getD ⟨line, []⟩

/-- Writes a line. One space stands between code and comment, and no blank at the end. -/
def render (indentation : List Char) (line : CodeLine) : List Char :=
  let body := indentation ++ line.code
  if line.comment.isEmpty then Text.trimRight body
  else if line.code.isEmpty then Text.trimRight (body ++ '/' :: '/' :: line.comment)
  else Text.trimRight (body ++ ' ' :: '/' :: '/' :: line.comment)

/-- Writes lines with their indentations, one under the other. -/
def join (rows : List (List Char × CodeLine)) : List Char :=
  Text.unlines (rows.map fun row => row.2.render row.1)

end CodeLine

end MiniScriptLayout
