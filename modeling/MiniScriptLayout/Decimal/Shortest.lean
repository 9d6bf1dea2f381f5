import MiniScriptLayout.Decimal.Binary

/-!
The shortest decimal text of a binary number: the fewest digits that read back as the same number,
and of the candidates with that many digits the nearest.
-/

namespace MiniScriptLayout
namespace Binary

/-- A positive decimal number: its digits stand behind the point, `0.digits * 10 ^ point`. -/
structure Digits where
  digits : Nat
  count : Nat
  point : Int
  deriving DecidableEq, Repr

/-- The numbers that round to a given one, as multiples of a quarter of its last binary place; the
ends count if the significand is even. -/
structure Neighbourhood where
  low : Nat
  value : Nat
  high : Nat
  closed : Bool
  deriving DecidableEq, Repr

def Neighbourhood.contains (b : Neighbourhood) (x : Nat) (unit : Nat) : Bool :=
  if b.closed then b.low * unit ≤ x && x ≤ b.high * unit else b.low * unit < x && x < b.high * unit

/-- Half a place on each side; below a power of two the places are half as wide. -/
def neighbourhood (significand : Nat) (exponent : Int) : Neighbourhood where
  low :=
    if significand = Nat.pow 2 52 ∧ leastExponent < exponent then 4 * significand - 1
    else 4 * significand - 2
  value := 4 * significand
  high := 4 * significand + 2
  closed := significand % 2 == 0

/-- The number of digits before the decimal point of `num / den`, counted below zero by the zeros
that follow the point. -/
def pointOf (num den : Nat) : Int :=
  if den ≤ num then ((Text.decimal (num / den)).length : Int)
  else
    Int.negOfNat (((List.range 400).find? fun k => den ≤ num * Nat.pow 10 (k + 1)).getD 0)

/-- The candidate with `count` digits nearest to the number, if one lies in its neighbourhood. The
number is `num / den`, and `num` is `value` times `unit`. -/
def candidate? (b : Neighbourhood) (unit den count : Nat) (point : Int) : Option Nat :=
  let e := point - count
  let step := if 0 ≤ e then den * Nat.pow 10 e.toNat else den
  let grow := if 0 ≤ e then 1 else Nat.pow 10 (-e).toNat
  let num := b.value * unit * grow
  let below := num / step
  let lowFits := b.contains (below * step) (unit * grow)
  let highFits := b.contains ((below + 1) * step) (unit * grow)
  let twice := 2 * (num - below * step)
  if lowFits && (!highFits || twice < step || (twice == step && below % 2 == 0)) then some below
  else if highFits then some (below + 1)
  else none

/-- The shortest digits of a positive number. -/
def shortest (significand : Nat) (exponent : Int) : Digits :=
  let b := neighbourhood significand exponent
  let unit := if 2 ≤ exponent then Nat.pow 2 (exponent - 2).toNat else 1
  let den := if 2 ≤ exponent then 1 else Nat.pow 2 (2 - exponent).toNat
  let point := pointOf (b.value * unit) den
  let found := (List.range 17).findSome? fun k =>
    (candidate? b unit den (k + 1) point).map fun digits => (digits, k + 1)
  match found with
  | some (digits, count) => ⟨digits, count, point⟩
  | none => ⟨0, 1, 1⟩

/-- How a number is written. -/
structure Style where
  /-- Numbers with a smaller decimal exponent are written with an exponent. -/
  lowest : Int
  /-- Numbers with a larger decimal exponent are written with an exponent. -/
  highest : Int
  /-- An exponent has at least this many digits. -/
  exponentWidth : Nat

/-- Numbers from 0.0001 to below 10 ^ 16 are written without an exponent. -/
def style : Style :=
  ⟨-4, 15, 2⟩

def writeExponent (s : Style) (e : Int) : List Char :=
  let digits := Text.decimal e.natAbs
  'e' :: (if e < 0 then '-' else '+') ::
    (List.replicate (s.exponentWidth - digits.length) '0' ++ digits)

/-- Drops the zeros at the end of a row of digits. -/
def dropZeros (digits : List Char) : List Char :=
  (digits.reverse.dropWhile (· = '0')).reverse

/-- Writes digits with a point and perhaps an exponent. A number without a fraction ends in `.0`,
unless it has an exponent. -/
def Digits.write (s : Style) (d : Digits) : List Char :=
  let all := Text.decimal d.digits
  let point := d.point + (all.length - d.count : Int)
  let digits := dropZeros all
  let e := point - 1
  if e < s.lowest ∨ s.highest < e then
    match digits with
    | [] => writeExponent s e
    | [c] => c :: writeExponent s e
    | c :: r => c :: '.' :: r ++ writeExponent s e
  else if point ≤ 0 then
    '0' :: '.' :: (List.replicate (-point).toNat '0' ++ digits)
  else
    let whole := point.toNat
    if digits.length ≤ whole then
      digits ++ List.replicate (whole - digits.length) '0' ++ ['.', '0']
    else digits.take whole ++ '.' :: digits.drop whole

/-- Writes a number so that it reads back. -/
def write (s : Style) : Binary → List Char
  | nan => ['n', 'a', 'n']
  | infinite negative => (if negative then ['-'] else []) ++ ['i', 'n', 'f']
  | finite negative significand exponent =>
    (if negative then ['-'] else []) ++
      if significand = 0 then ['0', '.', '0'] else (shortest significand exponent).write s

end Binary
end MiniScriptLayout
