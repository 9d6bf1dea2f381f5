import MiniScriptLayout.Spacing.Blanks

/-!
Spacing around commas: none before, one space after, and no comma before the end of a list or map.
-/

namespace MiniScriptLayout
namespace Spacing

def isComma (c : Char) : Bool :=
  c = ','

/-- A comma has no blank before it and one space after it. -/
def spaceCommas (s : List Char) : List Char :=
  (dropAfter isComma (dropBefore isComma s)).flatMap fun c => if isComma c then [c, ' '] else [c]

/-- The character closes a list or a map. -/
def closesItems (c : Char) : Bool :=
  c = ']' || c = '\x7d'

/-- Drops a comma, with the blanks after it, between an item and the bracket that closes a list or
map. A bracket that lost the comma before it is no item for a comma right after it. -/
def dropTrailingCommas (s : List Char) : List Char :=
  match s with
  | [] => []
  | [c] => [c]
  | c :: d :: r =>
    if !isComma c && !Text.isBlank c && isComma d then
      match _h : Text.trimLeft r with
      | [] => c :: dropTrailingCommas (d :: r)
      | e :: rest =>
        if closesItems e then c :: e :: dropTrailingCommas rest
        else c :: dropTrailingCommas (d :: r)
    else c :: dropTrailingCommas (d :: r)
termination_by s.length
decreasing_by
  · simp
  · have h := Text.length_trimLeft_le r
    rw [_h] at h
    simp only [List.length_cons] at h ⊢
    omega
  · simp
  · simp

end Spacing
end MiniScriptLayout
