import MiniScriptLayout.Layout
import MiniScriptLayout.Text.LineBreak

/-!
Formatting with options: the style and sizes of indentation, and whether a text ends in a line
break.
-/

namespace MiniScriptLayout

/-- What blocks are indented with. -/
inductive IndentStyle where
  | spaces
  | tabs
  deriving DecidableEq, Repr

namespace IndentStyle

def name : IndentStyle → String
  | spaces => "spaces"
  | tabs => "tabs"

/-- Reads a style by its name. -/
def ofName? (s : String) : Option IndentStyle :=
  if s = spaces.name then some spaces
  else if s = tabs.name then some tabs
  else none

end IndentStyle

/-- Options of one formatting run. A size below one stands for no indentation. -/
structure Options where
  indentStyle : IndentStyle := .spaces
  /-- The width of one block. -/
  indentSize : Int := 4
  /-- The width of one continuation. -/
  continuationSize : Int := 2
  finalNewline : Bool := false
  deriving DecidableEq, Repr

/-- A formatted text, and whether it differs from what it was before. -/
structure Formatted where
  text : List Char
  changed : Bool
  deriving DecidableEq, Repr

namespace Options

/-- Four spaces for a block, two for a continuation, and a final line break. -/
def standard : Options :=
  ⟨.spaces, 4, 2, true⟩

/-- Two spaces for a block. -/
def compact : Options :=
  ⟨.spaces, 2, 2, true⟩

/-- One tab for a block. -/
def tabs : Options :=
  ⟨.tabs, 4, 2, true⟩

/-- The units of indentation. Blocks may be indented with a tab; continuations are always indented
with spaces, so that they line up inside their block. -/
def units (o : Options) : Indentation.Units where
  block :=
    match o.indentStyle with
    | .spaces => List.replicate o.indentSize.toNat ' '
    | .tabs => ['\t']
  continuation := List.replicate o.continuationSize.toNat ' '

/-- Ends a text that is not empty with a line break, if the options say so. -/
def finish (o : Options) (text : List Char) : List Char :=
  if o.finalNewline && !text.isEmpty then text ++ ['\n'] else text

/-- Formats a text. -/
def format (o : Options) (text : List Char) : Formatted :=
  let formatted := o.finish (layOut o.units text)
  ⟨formatted, formatted != text⟩

end Options

namespace Formatted

def lineCount (f : Formatted) : Nat :=
  (Text.visibleLines f.text).length

end Formatted

/-- What there is to tell about a layout: closing brackets that nothing opened, and the numbers of
lines, literals and comments. -/
structure Layout.Report where
  unmatched : Nat
  lines : Nat
  literals : Nat
  comments : Nat
  deriving DecidableEq, Repr

namespace Layout

def report (l : Layout) : Report :=
  ⟨l.unmatched, l.lines.length, l.literals.table.length, l.comments.table.length⟩

namespace Report

/-- Says how many closing brackets have no partner, unless there is none. -/
def unmatchedMessage? (r : Report) : Option String :=
  if r.unmatched = 0 then none else some s!"Found {r.unmatched} unmatched closing bracket(s)"

def countMessage (r : Report) : String :=
  s!"Formatted {r.lines} line(s) with {r.literals} literal(s) and {r.comments} comment(s)"

def messages (r : Report) : List String :=
  r.unmatchedMessage?.toList ++ [r.countMessage]

end Report
end Layout

end MiniScriptLayout
