import MiniScriptLayout.CodeLine
import MiniScriptLayout.Indentation.Block
import MiniScriptLayout.Lexical.Continuation
import MiniScriptLayout.Lifting.Comment
import MiniScriptLayout.Lifting.Literal
import MiniScriptLayout.MapColon
import MiniScriptLayout.Parentheses.Call
import MiniScriptLayout.Parentheses.Condition
import MiniScriptLayout.Spacing.Normal
import MiniScriptLayout.Statement

/-!
The layout of a whole text. `Layout.ofText` finds its lines and their depths, which do not depend on
the units of indentation; `Layout.render` writes the text with given units.
-/

namespace MiniScriptLayout

/-- Normalises one line. The parentheses of a call stay in a line that continues a statement. -/
def CodeLine.normalize (continued : Bool) (line : CodeLine) : CodeLine :=
  let code := Spacing.normalize line.code
  let code := if continued then code else Parentheses.stripCall code
  ⟨Text.trim (Parentheses.stripCondition code), Text.trim line.comment⟩

/-- Breaks and normalises lines; `continued` says that they follow an incomplete statement. -/
def CodeLine.ofLines (continued : Bool) : List (List Char) → List CodeLine
  | [] => []
  | raw :: rest =>
    let line := (CodeLine.ofText raw).normalize continued
    line :: CodeLine.ofLines (Lexical.isIncomplete line.code) rest

/-- A text taken apart: its literals, its comments, its lines and their indentation. -/
structure Layout where
  literals : Lifted
  comments : Lifted
  lines : List CodeLine
  indentation : Indentation.Stretch
  deriving DecidableEq, Repr

namespace Layout

def ofText (text : List Char) : Layout :=
  let literals := Literal.lift text
  let comments := Comment.lift literals.text
  let lines := CodeLine.ofLines false (Statement.split comments.text)
  ⟨literals, comments, lines, Indentation.ofShapes (lines.map fun l => .ofCode l.code)⟩

/-- The lines with their indentations, one under the other. -/
def join (u : Indentation.Units) (l : Layout) : List Char :=
  CodeLine.join ((l.indentation.depths.map (·.render u)).zip l.lines)

/-- The joined lines with the colons of maps in place; literals and comments are still markers. -/
def code (u : Indentation.Units) (l : Layout) : List Char :=
  MapColon.space (l.join u)

/-- The text with its comments and literals. -/
def render (u : Indentation.Units) (l : Layout) : List Char :=
  Literal.restore l.literals.table (Comment.restore l.comments.table (l.code u))

/-- The number of closing brackets that nothing opened. -/
def unmatched (l : Layout) : Nat :=
  l.indentation.excess

end Layout

/-- Lays out a text with the given units of indentation. -/
def layOut (u : Indentation.Units) (text : List Char) : List Char :=
  (Layout.ofText text).render u

end MiniScriptLayout
