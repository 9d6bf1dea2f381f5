/-!
Texts cut at a character and put together again: `join d (split d s) = s`.
-/

namespace MiniScriptLayout
namespace Text

/-- Puts a character before the first of some pieces. -/
def consPiece (c : Char) : List (List Char) → List (List Char)
  | [] => [[c]]
  | p :: ps => (c :: p) :: ps

/-- The pieces between the places of a character; there is always at least one. -/
def split (d : Char) : List Char → List (List Char)
  | [] => [[]]
  | c :: r => if c = d then [] :: split d r else consPiece c (split d r)

/-- Puts a character between each piece and the next. -/
def join (d : Char) : List (List Char) → List Char
  | [] => []
  | [p] => p
  | p :: q :: ps => p ++ d :: join d (q :: ps)

theorem consPiece_ne_nil (c : Char) (ps : List (List Char)) : consPiece c ps ≠ [] := by
  cases ps <;> simp [consPiece]

theorem split_ne_nil (d : Char) (s : List Char) : split d s ≠ [] := by
  cases s with
  | nil => simp [split]
  | cons c r =>
      simp only [split]
      split
      · simp
      · exact consPiece_ne_nil _ _

theorem join_cons_cons (d c : Char) (p : List Char) (ps : List (List Char)) :
    join d ((c :: p) :: ps) = c :: join d (p :: ps) := by
  cases ps <;> simp [join]

theorem join_split (d : Char) (s : List Char) : join d (split d s) = s := by
  induction s with
  | nil => rfl
  | cons c r ih =>
      cases hr : split d r with
      | nil => exact absurd hr (split_ne_nil d r)
      | cons p ps =>
          rw [hr] at ih
          simp only [split, hr]
          split
          · rename_i h
            simp [join, ih, h]
          · simp [consPiece, join_cons_cons, ih]

end Text
end MiniScriptLayout
