import MiniScriptLayout.Document.Line
import MiniScriptLayout.Text.Units
import MiniScriptLayout.Uri

/-!
Open documents: their texts as an editor sees them. The editor counts lines from zero and columns in
UTF-16 units, and changes a text as a whole or between two positions.
-/

namespace MiniScriptLayout

structure Position where
  line : Nat
  character : Nat
  deriving DecidableEq, Repr

/-- What is before the first line or column counts as the first one. -/
def Position.clamp (line character : Int) : Position :=
  ⟨line.toNat, character.toNat⟩

structure Range where
  start : Position
  stop : Position
  deriving DecidableEq, Repr

/-- A change to a text: a new text for the whole or for a range. -/
inductive Change where
  | whole (text : List Char)
  | within (range : Range) (text : List Char)
  deriving DecidableEq, Repr

/-- The number of characters before a position. A column behind the end of its line is the end of
the line, and a line behind the last one is the end of the text. -/
def Position.offset (p : Position) (text : List Char) : Nat :=
  let lines := Document.Line.ofText text
  match lines[p.line]? with
  | none => text.length
  | some line =>
    ((lines.take p.line).flatMap Document.Line.chars).length + Text.unitIndex p.character line.text

/-- The position behind the last character. -/
def Position.last (text : List Char) : Position :=
  let lines := Document.Line.ofText text
  ⟨lines.length - 1, Text.unitLength ((lines.getLast?.map Document.Line.text).getD [])⟩

/-- Replaces the text of a range. A range that stops before its start is empty. -/
def Range.replace (r : Range) (new text : List Char) : List Char :=
  let start := r.start.offset text
  let stop := max (r.stop.offset text) start
  text.take start ++ new ++ text.drop stop

def Change.apply (text : List Char) : Change → List Char
  | whole new => new
  | within range new => range.replace new text

structure Document where
  uri : Uri
  text : List Char
  version : Int
  deriving DecidableEq, Repr

namespace Document

def path (d : Document) : Path :=
  d.uri.path

def lines (d : Document) : List (List Char) :=
  (Line.ofText d.text).map Line.text

/-- Applies changes one after the other, each to the text that the one before it left. -/
def apply (d : Document) (changes : List Change) : Document :=
  { d with text := changes.foldl Change.apply d.text }

end Document

end MiniScriptLayout
