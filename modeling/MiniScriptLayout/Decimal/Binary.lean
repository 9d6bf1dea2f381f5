import MiniScriptLayout.Text.DecimalDigit

/-!
Binary floating-point numbers of double precision, by their exact values. `ofDecimal` rounds a
decimal number to the nearest of them, and of two nearest ones to the one with the even significand.
-/

namespace MiniScriptLayout

/-- A double-precision number. A finite one is `significand * 2 ^ exponent` with its sign; a zero
has significand 0, and the significand of every other number has 53 bits, or fewer at the least
exponent. -/
inductive Binary where
  | nan
  | infinite (negative : Bool)
  | finite (negative : Bool) (significand : Nat) (exponent : Int)
  deriving DecidableEq, Repr

namespace Binary

/-- The least exponent of a finite number. -/
def leastExponent : Int :=
  -1074

/-- The largest exponent of a finite number. -/
def largestExponent : Int :=
  971

/-- The quotient rounded to the nearest whole number, half to even. -/
def roundDiv (num den : Nat) : Nat :=
  let q := num / den
  let r := num % den
  if 2 * r < den then q
  else if den < 2 * r then q + 1
  else if q % 2 = 0 then q else q + 1

/-- The numerator and denominator of `num / den / 2 ^ e`. -/
def scale (num den : Nat) (e : Int) : Nat × Nat :=
  if 0 ≤ e then (num, den * Nat.pow 2 e.toNat) else (num * Nat.pow 2 (-e).toNat, den)

/-- The exponent with which the significand of `num / den` has 53 bits, or the least exponent. -/
def exponentOf (num den : Nat) : Int :=
  let e := max leastExponent ((Nat.log2 num : Int) - Nat.log2 den - 53)
  let (n, d) := scale num den e
  if n / d < Nat.pow 2 53 then e else e + 1

/-- The number nearest to a positive fraction. -/
def ofFraction (negative : Bool) (num den : Nat) : Binary :=
  let e := exponentOf num den
  let (n, d) := scale num den e
  let m := roundDiv n d
  let (m, e) := if m = Nat.pow 2 53 then (Nat.pow 2 52, e + 1) else (m, e)
  if largestExponent < e then .infinite negative else .finite negative m e

/-- The number nearest to `digits * 10 ^ exponent`. Numbers far outside the range are found by their
magnitude alone. -/
def ofDecimal (negative : Bool) (digits : Nat) (exponent : Int) : Binary :=
  let magnitude := (Text.decimal digits).length + exponent
  if digits = 0 ∨ magnitude < -400 then .finite negative 0 leastExponent
  else if 400 < magnitude then .infinite negative
  else if 0 ≤ exponent then ofFraction negative (digits * Nat.pow 10 exponent.toNat) 1
  else ofFraction negative digits (Nat.pow 10 (-exponent).toNat)

end Binary
end MiniScriptLayout
