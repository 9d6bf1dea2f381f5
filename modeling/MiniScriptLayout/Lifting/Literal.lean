import MiniScriptLayout.Lifting.Marker

/-!
String literals. They are lifted out of a text before any rule is applied, so that no rule sees
what stands between quotes, and put back unchanged at the end.
-/

namespace MiniScriptLayout
namespace Literal

/-- A lifted literal leaves its number between quotes; no other quote stays in the text. -/
def marker : Marker := ⟨['"', '$'], ['"']⟩

/-- Reads a literal behind its opening quote, up to and with the quote that closes it. A doubled
quote stands for a quote and closes nothing; a literal without end takes the rest of the text. -/
def close : List Char → List Char × List Char
  | [] => ([], [])
  | [c] => ([c], [])
  | c :: d :: r =>
    if c = '"' then
      if d = '"' then
        let (body, rest) := close r
        (c :: d :: body, rest)
      else ([c], d :: r)
    else
      let (body, rest) := close (d :: r)
      (c :: body, rest)

theorem close_append (s : List Char) : (close s).1 ++ (close s).2 = s := by
  fun_induction close s <;> simp_all

theorem length_close_le (s : List Char) : (close s).2.length ≤ s.length := by
  have h := congrArg List.length (close_append s)
  rw [List.length_append] at h
  omega

/-- Lifts the literals of a text, numbering them from `next` on. -/
def liftFrom (next : Nat) (s : List Char) : Lifted :=
  match s with
  | [] => ⟨[], []⟩
  | c :: r =>
    if c = '"' then
      let lifted := liftFrom (next + 1) (close r).2
      ⟨marker.write next ++ lifted.text, (c :: (close r).1) :: lifted.table⟩
    else
      let lifted := liftFrom next r
      ⟨c :: lifted.text, lifted.table⟩
termination_by s.length
decreasing_by
  · exact Nat.lt_succ_of_le (length_close_le r)
  · simp

def lift (s : List Char) : Lifted :=
  liftFrom 0 s

/-- Puts lifted literals back. -/
def restore (table : List (List Char)) (s : List Char) : List Char :=
  marker.fill table s

end Literal
end MiniScriptLayout
