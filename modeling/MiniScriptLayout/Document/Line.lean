/-!
The lines of a document, with their ends. A line ends with a carriage return, a line feed or the
pair of both; the lines put together are the text.
-/

namespace MiniScriptLayout
namespace Document

/-- A line and what ends it, which is nothing for the last one. -/
structure Line where
  text : List Char
  ending : List Char := []
  deriving DecidableEq, Repr

namespace Line

def chars (l : Line) : List Char :=
  l.text ++ l.ending

/-- Puts a character before the first of some lines. -/
def consChar (c : Char) : List Line → List Line
  | [] => [⟨[c], []⟩]
  | l :: ls => ⟨c :: l.text, l.ending⟩ :: ls

/-- The lines of a text; there is always at least one. -/
def ofText : List Char → List Line
  | [] => [⟨[], []⟩]
  | [c] => if c = '\r' ∨ c = '\n' then [⟨[], [c]⟩, ⟨[], []⟩] else [⟨[c], []⟩]
  | c :: d :: r =>
    if c = '\r' ∧ d = '\n' then ⟨[], [c, d]⟩ :: ofText r
    else if c = '\r' ∨ c = '\n' then ⟨[], [c]⟩ :: ofText (d :: r)
    else consChar c (ofText (d :: r))

theorem flatMap_chars_consChar (c : Char) (ls : List Line) :
    (consChar c ls).flatMap chars = c :: ls.flatMap chars := by
  cases ls <;> simp [consChar, chars]

theorem flatMap_chars_ofText (s : List Char) : (ofText s).flatMap chars = s := by
  fun_induction ofText s with
  | case1 => rfl
  | case2 | case3 => simp [chars]
  | case4 c d r _ ih => simp [chars, ih]
  | case5 c d r _ _ ih => simp [chars, ih]
  | case6 c d r _ _ ih => rw [flatMap_chars_consChar, ih]

theorem consChar_ne_nil (c : Char) (ls : List Line) : consChar c ls ≠ [] := by
  cases ls <;> simp [consChar]

theorem ofText_ne_nil (s : List Char) : ofText s ≠ [] := by
  fun_induction ofText s <;> simp [consChar_ne_nil]

end Line

end Document
end MiniScriptLayout
