/-!
Blank characters and the trimming of texts. Everything that layout may add, drop or replace between
two words is blank; `trimLeft`, `trimRight` and `trim` remove blanks at the ends of a text.
-/

namespace MiniScriptLayout
namespace Text

/-- The blanks: the control characters that move or separate, the spaces of every width, and the
line and paragraph separators. -/
def isBlank (c : Char) : Bool :=
  let n := c.toNat
  (0x09 ≤ n && n ≤ 0x0D) || (0x1C ≤ n && n ≤ 0x20) || n == 0x85 || n == 0xA0 || n == 0x1680 ||
    (0x2000 ≤ n && n ≤ 0x200A) || n == 0x2028 || n == 0x2029 || n == 0x202F || n == 0x205F ||
    n == 0x3000

/-- A blank that does not end a line of source text. -/
def isInlineBlank (c : Char) : Bool :=
  isBlank c && c != '\n'

def trimLeft (s : List Char) : List Char :=
  s.dropWhile isBlank

def trimRight (s : List Char) : List Char :=
  (s.reverse.dropWhile isBlank).reverse

def trim (s : List Char) : List Char :=
  trimRight (trimLeft s)

/-- The text begins with a blank. -/
def startsBlank (s : List Char) : Bool :=
  s.head?.any isBlank

theorem length_dropWhile_le (p : Char → Bool) (s : List Char) :
    (s.dropWhile p).length ≤ s.length := by
  induction s with
  | nil => exact Nat.le_refl _
  | cons c r ih =>
      rw [List.dropWhile_cons]
      split
      · exact Nat.le_succ_of_le ih
      · exact Nat.le_refl _

theorem length_trimLeft_le (s : List Char) : (trimLeft s).length ≤ s.length :=
  length_dropWhile_le isBlank s

theorem length_trimRight_le (s : List Char) : (trimRight s).length ≤ s.length := by
  simpa [trimRight] using length_dropWhile_le isBlank s.reverse

/-- A text trimmed on the left starts with no blank. -/
theorem startsBlank_trimLeft (s : List Char) : startsBlank (trimLeft s) = false := by
  induction s with
  | nil => rfl
  | cons c r ih =>
      unfold trimLeft at ih ⊢
      rw [List.dropWhile_cons]
      split
      · exact ih
      · simp_all [startsBlank]

end Text
end MiniScriptLayout
