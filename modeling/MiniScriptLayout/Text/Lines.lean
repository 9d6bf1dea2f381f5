import MiniScriptLayout.Text.Split

/-!
Lines of a text that ends its lines with a single line feed, and the way there from other line ends.
-/

namespace MiniScriptLayout
namespace Text

/-- The lines of a text; there is always at least one. -/
def lines (s : List Char) : List (List Char) :=
  split '\n' s

/-- Puts one line feed between each line and the next. -/
def unlines (ls : List (List Char)) : List Char :=
  join '\n' ls

/-- Writes the pair of carriage return and line feed as a line feed alone. -/
def joinReturns : List Char → List Char
  | [] => []
  | [c] => [c]
  | c :: d :: r =>
    if c = '\r' ∧ d = '\n' then '\n' :: joinReturns r else c :: joinReturns (d :: r)

/-- Writes every carriage return, alone or before a line feed, as one line feed. -/
def toLineFeeds (s : List Char) : List Char :=
  (joinReturns s).map fun c => if c = '\r' then '\n' else c

theorem lines_ne_nil (s : List Char) : lines s ≠ [] :=
  split_ne_nil '\n' s

theorem unlines_lines (s : List Char) : unlines (lines s) = s :=
  join_split '\n' s

end Text
end MiniScriptLayout
