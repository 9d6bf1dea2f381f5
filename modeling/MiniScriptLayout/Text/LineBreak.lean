import MiniScriptLayout.Text.Split

/-!
Lines as a reader sees them: a line ends at any of the characters that move to a new line, and the
pair of carriage return and line feed ends it once. `visibleLines` keeps the line ends, so its lines
put together are the text.
-/

namespace MiniScriptLayout
namespace Text

/-- The characters that end a line by themselves. -/
def isLineEnd (c : Char) : Bool :=
  let n := c.toNat
  (0x0A ≤ n && n ≤ 0x0D) || (0x1C ≤ n && n ≤ 0x1E) || n == 0x85 || n == 0x2028 || n == 0x2029

/-- The lines of a text with their ends. A text without characters has no lines. -/
def visibleLines : List Char → List (List Char)
  | [] => []
  | [c] => [[c]]
  | c :: d :: r =>
    if c = '\r' ∧ d = '\n' then [c, d] :: visibleLines r
    else if isLineEnd c then [c] :: visibleLines (d :: r)
    else consPiece c (visibleLines (d :: r))

theorem flatten_consPiece (c : Char) (ls : List (List Char)) :
    (consPiece c ls).flatten = c :: ls.flatten := by
  cases ls <;> simp [consPiece]

theorem flatten_visibleLines (s : List Char) : (visibleLines s).flatten = s := by
  fun_induction visibleLines s <;> simp_all [flatten_consPiece]

end Text
end MiniScriptLayout
