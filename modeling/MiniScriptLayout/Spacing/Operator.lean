import MiniScriptLayout.Text.Blank

/-!
Spacing around operators other than the minus sign: one space on each side.
-/

namespace MiniScriptLayout
namespace Spacing

/-- The signs that are operators by themselves. -/
def isOperator (c : Char) : Bool :=
  c = '+' || c = '*' || c = '/' || c = '%' || c = '^' || c = '<' || c = '>' || c = '='

/-- The signs that are an operator together with an equals sign behind them. -/
def takesEquals (c : Char) : Bool :=
  isOperator c || c = '!' || c = '-'

/-- The operator at the start of a text, the longest one, and the rest. -/
def operator? : List Char → Option (List Char × List Char)
  | [] => none
  | [c] => if isOperator c then some ([c], []) else none
  | c :: d :: r =>
    if takesEquals c && d = '=' then some ([c, d], r)
    else if isOperator c then some ([c], d :: r)
    else none

theorem length_operator? {s op r : List Char} (h : operator? s = some (op, r)) :
    r.length < s.length := by
  unfold operator? at h
  split at h
  · simp at h
  · split at h
    · simp only [Option.some.injEq, Prod.mk.injEq] at h
      simp [← h.2]
    · simp at h
  · split at h
    · simp only [Option.some.injEq, Prod.mk.injEq] at h
      simp only [← h.2, List.length_cons]
      omega
    · split at h
      · simp only [Option.some.injEq, Prod.mk.injEq] at h
        simp [← h.2]
      · simp at h

/-- Writes operators with one space on each side in place of the blanks around them; `after` says
that the text comes right after an operator. -/
def spaceOperatorsFrom (after : Bool) (s : List Char) : List Char :=
  match s with
  | [] => []
  | c :: r =>
    if Text.isBlank c then
      if after || (operator? (Text.trimLeft r)).isSome then spaceOperatorsFrom after r
      else c :: spaceOperatorsFrom false r
    else
      match _h : operator? (c :: r) with
      | some (op, rest) => ' ' :: op ++ ' ' :: spaceOperatorsFrom true rest
      | none => c :: spaceOperatorsFrom false r
termination_by s.length
decreasing_by
  · simp
  · simp
  · exact length_operator? _h
  · simp

def spaceOperators (s : List Char) : List Char :=
  spaceOperatorsFrom false s

end Spacing
end MiniScriptLayout
