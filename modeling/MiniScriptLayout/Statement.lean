import MiniScriptLayout.Text.Blank
import MiniScriptLayout.Text.Lines

/-!
Statements of a text. A semicolon separates two statements as a line break does; `split` gives every
statement a line of its own.
-/

namespace MiniScriptLayout
namespace Statement

/-- A separator right before a comment becomes the space before its `//`. -/
def dropBeforeComments (s : List Char) : List Char :=
  match s with
  | [] => []
  | c :: r =>
    if c = ';' then
      match _h : r.dropWhile Text.isInlineBlank with
      | '/' :: '/' :: rest => ' ' :: '/' :: '/' :: dropBeforeComments rest
      | _ => c :: dropBeforeComments r
    else c :: dropBeforeComments r
termination_by s.length
decreasing_by
  · have := Text.length_dropWhile_le Text.isInlineBlank r
    rw [_h] at this
    simp only [List.length_cons] at this ⊢
    omega
  · simp
  · simp

/-- The text behind one line feed, if it starts with one. -/
def skipLineFeed : List Char → List Char
  | '\n' :: r => r
  | r => r

theorem length_skipLineFeed_le (s : List Char) : (skipLineFeed s).length ≤ s.length := by
  unfold skipLineFeed
  split <;> simp

/-- Every other separator becomes a line break, with the blanks and the break behind it. -/
def breakAtSeparators (s : List Char) : List Char :=
  match s with
  | [] => []
  | c :: r =>
    if c = ';' then '\n' :: breakAtSeparators (skipLineFeed (r.dropWhile Text.isInlineBlank))
    else c :: breakAtSeparators r
termination_by s.length
decreasing_by
  · have h1 := length_skipLineFeed_le (r.dropWhile Text.isInlineBlank)
    have h2 := Text.length_dropWhile_le Text.isInlineBlank r
    simp only [List.length_cons]
    omega
  · simp

/-- The lines of a text with one statement each, without blank lines at either end. -/
def split (s : List Char) : List (List Char) :=
  Text.lines (Text.trim (breakAtSeparators (dropBeforeComments (Text.joinReturns s))))

end Statement
end MiniScriptLayout
