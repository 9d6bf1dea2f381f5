import MiniScriptLayout.Config.Toml.Text

/-!
Numbers, dates and times in TOML.
-/

namespace MiniScriptLayout
namespace Config
namespace Toml

/-- Reads digits of a class with single underscores between them, and drops the underscores. -/
def readDigits (p : Char → Bool) : List Char → List Char × List Char
  | [] => ([], [])
  | [c] => if p c then ([c], []) else ([], [c])
  | c :: d :: r =>
    if p c then
      let (digits, rest) :=
        if d = '_' ∧ r.head?.any p then readDigits p r else readDigits p (d :: r)
      (c :: digits, rest)
    else ([], c :: d :: r)

/-- Reads a number in base two, eight or sixteen. -/
def readBased? (s : List Char) : Option (Value × List Char) :=
  match s with
  | '0' :: c :: r =>
    let base? : Option Nat :=
      if c = 'x' then some 16 else if c = 'o' then some 8 else if c = 'b' then some 2 else none
    base?.bind fun base =>
      let (digits, rest) := readDigits (fun c => (Text.hexValue? c).any (· < base)) r
      if digits.isEmpty then none
      else
        let n := digits.foldl (fun n c => base * n + (Text.hexValue? c).getD 0) 0
        some (.int n, rest)
  | _ => none

/-- Reads a fraction behind its point, if it has digits. -/
def readFraction (s : List Char) : List Char × List Char :=
  match s with
  | '.' :: r =>
    let (digits, rest) := readDigits Text.isAsciiDigit r
    if digits.isEmpty then ([], s) else (digits, rest)
  | _ => ([], s)

/-- Reads an exponent, if it has digits. -/
def readExponent (s : List Char) : Option Int × List Char :=
  match s with
  | c :: r =>
    if c = 'e' ∨ c = 'E' then
      let (sign, r) := Text.cutOne (fun c => c = '+' || c = '-') r
      let (digits, rest) := readDigits Text.isAsciiDigit r
      if digits.isEmpty then (none, s)
      else
        let n : Int := Text.readDecimal digits
        (some (if sign = ['-'] then -n else n), rest)
    else (none, s)
  | [] => (none, s)

/-- Reads a decimal number. With a fraction or an exponent it is a floating-point number. -/
def readDecimal? (s : List Char) : Option (Value × List Char) :=
  let (sign, r) := Text.cutOne (fun c => c = '+' || c = '-') s
  let negative := sign == ['-']
  let (digits, r) :=
    if r.head? = some '0' then (['0'], r.drop 1) else readDigits Text.isAsciiDigit r
  if digits.isEmpty then none
  else
    let (fraction, r) := readFraction r
    let (exponent, rest) := readExponent r
    if fraction.isEmpty && exponent.isNone then
      let n : Int := Text.readDecimal digits
      some (.int (if negative then -n else n), rest)
    else
      some (.float (Binary.ofDecimal negative (Text.readDecimal (digits ++ fraction))
        (exponent.getD 0 - fraction.length)), rest)

/-- Reads an infinity, or what is no number. -/
def readSpecial? (s : List Char) : Option (Value × List Char) :=
  let (sign, r) := Text.cutOne (fun c => c = '+' || c = '-') s
  match r with
  | 'i' :: 'n' :: 'f' :: rest => some (.float (.infinite (sign == ['-'])), rest)
  | 'n' :: 'a' :: 'n' :: rest => some (.float .nan, rest)
  | _ => none

/-- Reads exactly so many digits of a number that lies in a range. -/
def readField? (count low high : Nat) (s : List Char) : Option (Nat × List Char) :=
  let digits := s.take count
  let n := Text.readDecimal digits
  if digits.length = count ∧ digits.all Text.isAsciiDigit ∧ low ≤ n ∧ n ≤ high then
    some (n, s.drop count)
  else none

/-- Reads a year, a month and a day. -/
def readDate? (s : List Char) : Option (Date × List Char) := do
  let (year, r) ← readField? 4 0 9999 s
  let (month, r) ← readField? 2 1 12 (← Text.strip? ['-'] r)
  let (day, r) ← readField? 2 1 31 (← Text.strip? ['-'] r)
  some (⟨year, month, day⟩, r)

/-- Reads the fraction of a second in microseconds; further digits are dropped. -/
def readMicroseconds (s : List Char) : Nat × List Char :=
  match s with
  | '.' :: r =>
    let digits := r.takeWhile Text.isAsciiDigit
    if digits.isEmpty then (0, s)
    else
      let six := (digits ++ List.replicate 6 '0').take 6
      (Text.readDecimal six, r.dropWhile Text.isAsciiDigit)
  | _ => (0, s)

/-- Reads an hour, a minute, a second and perhaps a fraction. -/
def readTime? (s : List Char) : Option (Time × List Char) := do
  let (hour, r) ← readField? 2 0 23 s
  let (minute, r) ← readField? 2 0 59 (← Text.strip? [':'] r)
  let (second, r) ← readField? 2 0 59 (← Text.strip? [':'] r)
  let (microsecond, r) := readMicroseconds r
  some (⟨hour, minute, second, microsecond⟩, r)

/-- Reads an offset from universal time. -/
def readOffset? (s : List Char) : Option (Int × List Char) :=
  match s with
  | [] => none
  | c :: r =>
    if c = 'Z' ∨ c = 'z' then some (0, r)
    else if c = '+' ∨ c = '-' then do
      let (hour, r) ← readField? 2 0 23 r
      let (minute, r) ← readField? 2 0 59 (← Text.strip? [':'] r)
      let minutes : Int := 60 * hour + minute
      some (if c = '-' then -minutes else minutes, r)
    else none

/-- Reads the time behind a date, if one follows. -/
def readDateTail (d : Date) (s : List Char) : Moment × List Char :=
  let tail? : Option (Time × List Char) :=
    match s with
    | c :: r => if c = 'T' ∨ c = 't' ∨ c = ' ' then readTime? r else none
    | [] => none
  match tail? with
  | none => (.date d, s)
  | some (t, r) =>
    match readOffset? r with
    | none => (.both d t none, r)
    | some (minutes, r) => (.both d t (some minutes), r)

/-- Reads a number, a date or a time. A date that does not exist is not well-formed. -/
def readScalar? (s : List Char) : Option (Value × List Char) :=
  match readDate? s with
  | some (d, r) =>
    if d.isValid then
      let (m, rest) := readDateTail d r
      some (.moment m, rest)
    else none
  | none =>
    match readTime? s with
    | some (t, rest) => some (.moment (.time t), rest)
    | none => readBased? s <|> readDecimal? s <|> readSpecial? s

end Toml
end Config
end MiniScriptLayout
