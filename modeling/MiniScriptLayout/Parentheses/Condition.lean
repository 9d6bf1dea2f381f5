import MiniScriptLayout.Lexical.Word
import MiniScriptLayout.Parentheses.Partner

/-!
Conditions. `if (a) then` is written `if a then`, whatever the number of parentheses.
-/

namespace MiniScriptLayout
namespace Parentheses

/-- Takes one pair of parentheses from around a condition that `then` follows. -/
def openCondition? (s : List Char) : Option (List Char) :=
  match Text.trimLeft s with
  | [] => none
  | c :: r =>
    if c = '(' then
      match enclosed '(' ')' 0 r with
      | none => none
      | some (condition, rest) =>
        if Lexical.Keyword.thenWord.starts (Text.trimLeft rest) then
          some (condition ++ ' ' :: Text.trimLeft rest)
        else none
    else none

theorem length_openCondition? {s r : List Char} (h : openCondition? s = some r) :
    r.length < s.length := by
  unfold openCondition? at h
  split at h
  · simp at h
  · rename_i c t ht
    split at h
    · split at h
      · simp at h
      · rename_i condition rest he
        split at h
        · have h1 := Text.length_trimLeft_le s
          have h2 := length_enclosed he
          have h3 := Text.length_trimLeft_le rest
          rw [ht, List.length_cons] at h1
          simp only [Option.some.injEq] at h
          rw [← h, List.length_append, List.length_cons]
          omega
        · simp at h
    · simp at h

/-- Takes all pairs of parentheses from around a condition that `then` follows. -/
def openConditions (s : List Char) : List Char :=
  match _h : openCondition? s with
  | none => s
  | some r => openConditions r
termination_by s.length
decreasing_by exact length_openCondition? _h

/-- Writes the condition of an `if … then` line without parentheses around all of it. -/
def stripCondition (line : List Char) : List Char :=
  if Lexical.Keyword.ifWord.starts line then
    match openCondition? (line.drop 2) with
    | none => line
    | some r => 'i' :: 'f' :: ' ' :: openConditions r
  else line

end Parentheses
end MiniScriptLayout
