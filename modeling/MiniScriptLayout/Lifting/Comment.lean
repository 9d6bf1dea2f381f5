import MiniScriptLayout.Lifting.Marker
import MiniScriptLayout.Text.Blank
import MiniScriptLayout.Text.Lines

/-!
Comments. The first `//` of a line opens a comment that takes the rest of the line. Their bodies are
lifted out of a text whose literals are lifted already, and come back with one blank before them.
-/

namespace MiniScriptLayout
namespace Comment

/-- A lifted body leaves its number behind the `//`. -/
def marker : Marker := ⟨['/', '/', '$'], []⟩

/-- A line's text before its first `//`, and the text behind it if there is one. -/
def cut : List Char → List Char × Option (List Char)
  | [] => ([], none)
  | [c] => ([c], none)
  | c :: d :: r =>
    if c = '/' ∧ d = '/' then ([], some r)
    else
      let (code, body) := cut (d :: r)
      (c :: code, body)

/-- The comment of a line: the code before it and its body without blanks at the end. A comment
without a body counts only if it has the line for itself. -/
def ofLine? (line : List Char) : Option (List Char × List Char) :=
  match cut line with
  | (_, none) => none
  | (code, some rest) =>
    let body := Text.trimRight rest
    if body.isEmpty && !code.all Text.isBlank then none else some (code, body)

/-- Lifts the comments of some lines, numbering them from `next` on. -/
def liftLines (next : Nat) : List (List Char) → List (List Char) × List (List Char)
  | [] => ([], [])
  | line :: ls =>
    match ofLine? line with
    | none =>
      let (lines, table) := liftLines next ls
      (line :: lines, table)
    | some (code, body) =>
      let (lines, table) := liftLines (next + 1) ls
      ((code ++ marker.write next) :: lines, body :: table)

def lift (s : List Char) : Lifted :=
  let (lines, table) := liftLines 0 (Text.lines (Text.joinReturns s))
  ⟨Text.unlines lines, table⟩

/-- Writes a comment. A body gets one space before it unless it has a blank there already; if it
starts with a slash, that slash stays with the `//` and the space comes after it. -/
def render : List Char → List Char
  | [] => ['/', '/']
  | '/' :: body =>
    if body.isEmpty || Text.startsBlank body then '/' :: '/' :: '/' :: body
    else '/' :: '/' :: '/' :: ' ' :: body
  | body =>
    if Text.startsBlank body then '/' :: '/' :: body else '/' :: '/' :: ' ' :: body

/-- Puts lifted bodies back as comments. -/
def restore (table : List (List Char)) (s : List Char) : List Char :=
  marker.fill (table.map render) s

end Comment
end MiniScriptLayout
