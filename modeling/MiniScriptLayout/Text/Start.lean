/-!
The start of a text and what comes behind it.
-/

namespace MiniScriptLayout
namespace Text

/-- The rest of a text behind a given start, if it has that start. -/
def strip? : List Char → List Char → Option (List Char)
  | [], s => some s
  | _ :: _, [] => none
  | p :: ps, c :: s => if p = c then strip? ps s else none

/-- Cuts off the first character if it is of a class. -/
def cutOne (p : Char → Bool) : List Char → List Char × List Char
  | [] => ([], [])
  | c :: r => if p c then ([c], r) else ([], c :: r)

theorem strip?_eq_some {p s r : List Char} : strip? p s = some r ↔ s = p ++ r := by
  induction p generalizing s with
  | nil => simp [strip?]
  | cons c p ih =>
      cases s with
      | nil => simp [strip?]
      | cons d s =>
          simp only [strip?]
          split
          · simp_all
          · simp_all [eq_comm]

theorem length_strip? {p s r : List Char} (h : strip? p s = some r) :
    s.length = p.length + r.length := by
  rw [strip?_eq_some.1 h, List.length_append]

theorem cutOne_append (p : Char → Bool) (s : List Char) :
    (cutOne p s).1 ++ (cutOne p s).2 = s := by
  cases s with
  | nil => rfl
  | cons c r =>
      simp only [cutOne]
      split <;> simp

theorem length_cutOne_le (p : Char → Bool) (s : List Char) :
    (cutOne p s).2.length ≤ s.length := by
  have h := congrArg List.length (cutOne_append p s)
  rw [List.length_append] at h
  omega

end Text
end MiniScriptLayout
