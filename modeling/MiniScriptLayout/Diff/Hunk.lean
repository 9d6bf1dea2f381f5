import MiniScriptLayout.Diff.Script
import MiniScriptLayout.Text.LineBreak

/-!
Unified diffs. The changes of a script are shown in hunks, with a few unchanged lines around them.
-/

namespace MiniScriptLayout
namespace Diff

/-- The number of unchanged lines to show before and behind a change. -/
def contextSize : Nat :=
  3

/-- Changes that are shown together, and the numbers of lines in front of them. -/
structure Hunk where
  oldStart : Nat
  newStart : Nat
  script : Script
  deriving DecidableEq, Repr

namespace Hunk

/-- Adds a segment at the end. -/
def push (h : Hunk) (s : Segment) : Hunk :=
  { h with script := h.script ++ [s] }

/-- Ends a hunk with the start of a long stretch of the same lines and begins the next one with the
end of it. -/
def next (h : Hunk) (lines : List Line) : Hunk :=
  let skipped := lines.length - contextSize
  ⟨h.oldStart + h.script.olds.length + skipped, h.newStart + h.script.news.length + skipped,
    [.same (lines.drop skipped)]⟩

/-- Cuts a script into hunks wherever more lines stay the same than are shown. -/
def ofScript (h : Hunk) : Script → List Hunk
  | [] => [h]
  | .same lines :: rest =>
    if lines.length > 2 * contextSize then
      h.push (.same (lines.take contextSize)) :: (h.next lines).ofScript rest
    else (h.push (.same lines)).ofScript rest
  | .change old new :: rest => (h.push (.change old new)).ofScript rest

/-- The hunk shows a change. -/
def hasChange (h : Hunk) : Bool :=
  h.script.any fun s =>
    match s with
    | .same _ => false
    | .change _ _ => true

end Hunk

/-- Shortens the last segment to the lines that are shown. -/
def trimEnd : Script → Script
  | [] => []
  | [.same lines] => [.same (lines.take contextSize)]
  | s :: rest => s :: trimEnd rest

/-- The hunks of a script. The first and the last segment show no more than the context. -/
def hunks (s : Script) : List Hunk :=
  let found :=
    match trimEnd s with
    | .same lines :: rest =>
      (Hunk.next ⟨0, 0, []⟩ lines).ofScript rest
    | script => Hunk.ofScript ⟨0, 0, []⟩ script
  found.filter Hunk.hasChange

/-- The range of lines behind `start` others. A single line is written without a count, and a range
without lines by the line in front of it. -/
def rangeText (start count : Nat) : List Char :=
  let text :=
    match count with
    | 0 => s!"{start},0"
    | 1 => s!"{start + 1}"
    | n => s!"{start + 1},{n}"
  text.toList

/-- Ends a line with a line feed, unless it has one. -/
def endLine (line : Line) : List Char :=
  if line.getLast? = some '\n' then line else line ++ ['\n']

def Segment.shown : Segment → List (List Char)
  | same lines => lines.map fun line => endLine (' ' :: line)
  | change old new =>
    old.map (fun line => endLine ('-' :: line)) ++ new.map fun line => endLine ('+' :: line)

def Hunk.shown (h : Hunk) : List (List Char) :=
  let header := "@@ -".toList ++ rangeText h.oldStart h.script.olds.length ++ " +".toList ++
    rangeText h.newStart h.script.news.length ++ " @@\n".toList
  header :: h.script.flatMap Segment.shown

/-- The unified diff of two texts; two equal texts have none. -/
def unified (name : List Char) (old new : List Char) : List Char :=
  match hunks (.between (Text.visibleLines old) (Text.visibleLines new)) with
  | [] => []
  | found =>
    endLine ("--- a/".toList ++ name) ++ endLine ("+++ b/".toList ++ name) ++
      (found.flatMap Hunk.shown).flatten

end Diff
end MiniScriptLayout
