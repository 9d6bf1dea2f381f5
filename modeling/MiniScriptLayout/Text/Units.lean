/-!
Lengths in UTF-16 units, in which editors count columns. `unitIndex` turns a column into a number of
characters; at the ends of characters it is the inverse of `unitLength`.
-/

namespace MiniScriptLayout
namespace Text

/-- The units of a character. -/
def units (c : Char) : Nat :=
  if c.toNat ≤ 0xFFFF then 1 else 2

def unitLength : List Char → Nat
  | [] => 0
  | c :: r => units c + unitLength r

/-- The number of characters that begin before a column. -/
def unitIndex : Nat → List Char → Nat
  | _, [] => 0
  | 0, _ :: _ => 0
  | n + 1, c :: r => unitIndex (n + 1 - units c) r + 1

theorem units_pos (c : Char) : 0 < units c := by
  unfold units
  split <;> decide

theorem unitLength_append (s t : List Char) :
    unitLength (s ++ t) = unitLength s + unitLength t := by
  induction s with
  | nil => simp [unitLength]
  | cons c r ih => simp [unitLength, ih, Nat.add_assoc]

theorem unitIndex_le (n : Nat) (s : List Char) : unitIndex n s ≤ s.length := by
  fun_induction unitIndex n s with
  | case1 => exact Nat.le_refl _
  | case2 => exact Nat.zero_le _
  | case3 n c r ih => exact Nat.succ_le_succ ih

theorem unitIndex_unitLength (s t : List Char) : unitIndex (unitLength s) (s ++ t) = s.length := by
  induction s with
  | nil => cases t <;> rfl
  | cons c r ih =>
      obtain ⟨n, hn⟩ := Nat.exists_eq_succ_of_ne_zero (Nat.pos_iff_ne_zero.1 (units_pos c))
      have h : unitLength (c :: r) = (unitLength r + n) + 1 := by
        simp only [unitLength, hn]
        omega
      have hr : unitLength r + n + 1 - units c = unitLength r := by omega
      rw [h, List.cons_append, unitIndex, hr, ih]
      rfl

end Text
end MiniScriptLayout
