import MiniScriptLayout.Lexical.Word
import MiniScriptLayout.Text.Start

/-!
A function without parameters is written without parentheses.
-/

namespace MiniScriptLayout
namespace Spacing

/-- The rest of a text behind `function` and an empty pair of parentheses. -/
def emptyParameters? (s : List Char) : Option (List Char) :=
  match Text.strip? Lexical.Keyword.functionWord.spelling s with
  | none => none
  | some s =>
    match Text.strip? ['('] (Text.trimLeft s) with
    | none => none
    | some s => Text.strip? [')'] (Text.trimLeft s)

theorem length_emptyParameters? {s r : List Char} (h : emptyParameters? s = some r) :
    r.length < s.length := by
  unfold emptyParameters? at h
  split at h
  · simp at h
  · rename_i t ht
    split at h
    · simp at h
    · rename_i u hu
      have h1 := Text.length_strip? ht
      have h2 := Text.length_trimLeft_le t
      have h3 := Text.length_strip? hu
      have h4 := Text.length_trimLeft_le u
      have h5 := Text.length_strip? h
      simp only [List.length_cons, List.length_nil] at h3 h5
      omega

/-- Drops the empty parentheses behind the word `function`; `inName` says that the character before
the text belongs to an identifier. -/
def dropEmptyParametersFrom (inName : Bool) (s : List Char) : List Char :=
  match s with
  | [] => []
  | c :: r =>
    if inName then c :: dropEmptyParametersFrom (Lexical.isIdentifierChar c) r
    else
      match _h : emptyParameters? (c :: r) with
      | some rest => Lexical.Keyword.functionWord.spelling ++ dropEmptyParametersFrom false rest
      | none => c :: dropEmptyParametersFrom (Lexical.isIdentifierChar c) r
termination_by s.length
decreasing_by
  · simp
  · exact length_emptyParameters? _h
  · simp

def dropEmptyParameters (s : List Char) : List Char :=
  dropEmptyParametersFrom false s

end Spacing
end MiniScriptLayout
