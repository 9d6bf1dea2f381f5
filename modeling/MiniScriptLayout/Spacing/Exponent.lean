import MiniScriptLayout.Lexical.Character
import MiniScriptLayout.Text.Blank
import MiniScriptLayout.Text.DecimalDigit
import MiniScriptLayout.Text.Start

/-!
Numbers in scientific notation hold no blanks: the digits, the letter `e`, the sign and the digits
of the exponent stand together.
-/

namespace MiniScriptLayout
namespace Spacing

/-- A number in scientific notation. -/
structure Scientific where
  mantissa : List Char
  sign : List Char
  exponent : List Char
  deriving DecidableEq, Repr

namespace Scientific

def text (n : Scientific) : List Char :=
  n.mantissa ++ 'e' :: (n.sign ++ n.exponent)

/-- Reads a row of digits, with an optional point before it and an optional point and more digits
after it. -/
def readMantissa? (s : List Char) : Option (List Char × List Char) :=
  let (lead, s₁) := Text.cutOne (· = '.') s
  let whole := s₁.takeWhile Text.isAsciiDigit
  let (point, s₂) := Text.cutOne (· = '.') (s₁.dropWhile Text.isAsciiDigit)
  if whole.isEmpty then none
  else
    some (lead ++ whole ++ point ++ s₂.takeWhile Text.isAsciiDigit, s₂.dropWhile Text.isAsciiDigit)

/-- Reads what follows the letter `e`. -/
def readExponent? (mantissa : List Char) (s : List Char) : Option (Scientific × List Char) :=
  let (sign, s₁) := Text.cutOne (fun c => c = '+' || c = '-') (Text.trimLeft s)
  let s₂ := Text.trimLeft s₁
  let exponent := s₂.takeWhile Text.isAsciiDigit
  if exponent.isEmpty then none
  else some (⟨mantissa, sign, exponent⟩, s₂.dropWhile Text.isAsciiDigit)

/-- Reads a number in scientific notation, with blanks anywhere around its letter and sign. -/
def read? (s : List Char) : Option (Scientific × List Char) :=
  match readMantissa? s with
  | none => none
  | some (mantissa, rest) =>
    match Text.trimLeft rest with
    | [] => none
    | c :: rest => if c = 'e' then readExponent? mantissa rest else none

theorem length_readMantissa? {s m r : List Char} (h : readMantissa? s = some (m, r)) :
    r.length ≤ s.length := by
  simp only [readMantissa?] at h
  split at h
  · simp at h
  · simp only [Option.some.injEq, Prod.mk.injEq] at h
    rw [← h.2]
    refine Nat.le_trans (Text.length_dropWhile_le _ _) ?_
    refine Nat.le_trans (Text.length_cutOne_le _ _) ?_
    refine Nat.le_trans (Text.length_dropWhile_le _ _) ?_
    exact Text.length_cutOne_le _ _

theorem length_readExponent? {m s r : List Char} {n : Scientific}
    (h : readExponent? m s = some (n, r)) : r.length ≤ s.length := by
  simp only [readExponent?] at h
  split at h
  · simp at h
  · simp only [Option.some.injEq, Prod.mk.injEq] at h
    rw [← h.2]
    refine Nat.le_trans (Text.length_dropWhile_le _ _) ?_
    refine Nat.le_trans (Text.length_trimLeft_le _) ?_
    refine Nat.le_trans (Text.length_cutOne_le _ _) ?_
    exact Text.length_trimLeft_le _

theorem length_read? {s r : List Char} {n : Scientific} (h : read? s = some (n, r)) :
    r.length < s.length := by
  unfold read? at h
  split at h
  · simp at h
  · rename_i m rest hm
    split at h
    · simp at h
    · rename_i c rest' ht
      split at h
      · have h1 := length_readMantissa? hm
        have h2 := Text.length_trimLeft_le rest
        have h3 := length_readExponent? h
        rw [ht, List.length_cons] at h2
        omega
      · simp at h

end Scientific

/-- Writes the numbers in scientific notation without blanks. A number starts where no identifier
goes on; `inName` says that the character before the text belongs to one. -/
def joinExponentsFrom (inName : Bool) (s : List Char) : List Char :=
  match s with
  | [] => []
  | c :: r =>
    if inName then c :: joinExponentsFrom (Lexical.isIdentifierChar c) r
    else
      match _h : Scientific.read? (c :: r) with
      | some (n, rest) => n.text ++ joinExponentsFrom true rest
      | none => c :: joinExponentsFrom (Lexical.isIdentifierChar c) r
termination_by s.length
decreasing_by
  · simp
  · exact Scientific.length_read? _h
  · simp

def joinExponents (s : List Char) : List Char :=
  joinExponentsFrom false s

end Spacing
end MiniScriptLayout
