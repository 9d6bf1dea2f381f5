import MiniScriptLayout.Text.Start

/-!
Patterns for names. `*` stands for any characters, `?` for one, and a set in brackets for one of its
characters; everything else stands for itself. A pattern has to match a whole name.
-/

namespace MiniScriptLayout
namespace Glob

/-- A part of a pattern. -/
inductive Part where
  | anyRun
  | anyChar
  | char (c : Char)
  /-- One character that lies in one of the ranges, or in none of them. -/
  | set (negated : Bool) (ranges : List (Char × Char))
  deriving DecidableEq, Repr

/-- The inside of a set and the pattern behind it. A bracket right at the start, or behind `!`, does
not close the set. -/
def setBody? (s : List Char) : Option (List Char × List Char) :=
  let (bang, s) := Text.cutOne (· = '!') s
  let (bracket, s) := Text.cutOne (· = ']') s
  match s.dropWhile (· ≠ ']') with
  | [] => none
  | _ :: rest => some (bang ++ bracket ++ s.takeWhile (· ≠ ']'), rest)

/-- Cuts the inside of a set at the hyphens that form ranges: those with a character before them
that is no end of a range, and one behind. The first `least` characters hold no such hyphen. -/
def chunks (fuel least : Nat) (s : List Char) : List (List Char) :=
  match fuel with
  | 0 => [s]
  | fuel + 1 =>
    let head := s.take least ++ (s.drop least).takeWhile (· ≠ '-')
    match (s.drop least).dropWhile (· ≠ '-') with
    | [] => [s]
    | [_] => [head ++ ['-']]
    | _ :: rest => head :: chunks fuel 2 rest

/-- Drops the ranges that end before they begin. -/
def dropEmptyRanges (cs : List (List Char)) : List (List Char) :=
  cs.foldr (fun c later =>
    match later with
    | [] => [c]
    | d :: ds =>
      match c.getLast?, d.head? with
      | some low, some high => if high < low then (c.dropLast ++ d.tail) :: ds else c :: d :: ds
      | _, _ => c :: d :: ds) []

/-- The ranges of a set that is cut at its hyphens. -/
def ranges : List (List Char) → List (Char × Char)
  | [] => []
  | [c] => c.map fun x => (x, x)
  | c :: d :: rest =>
    (c.dropLast.map fun x => (x, x)) ++
      (match c.getLast?, d.head? with
      | some low, some high => [(low, high)]
      | _, _ => []) ++ ranges (d.tail :: rest)
termination_by cs => cs.length

/-- Reads the inside of a set. -/
def readSet (body : List Char) : Part :=
  let cs := dropEmptyRanges (chunks body.length (if body.head? = some '!' then 2 else 1) body)
  match cs with
  | ('!' :: c) :: rest => .set true (ranges (c :: rest))
  | cs => .set false (ranges cs)

/-- Reads a pattern. A bracket that nothing closes stands for itself. -/
def readParts (fuel : Nat) (s : List Char) : List Part :=
  match fuel, s with
  | 0, _ | _, [] => []
  | fuel + 1, c :: r =>
    if c = '*' then .anyRun :: readParts fuel r
    else if c = '?' then .anyChar :: readParts fuel r
    else if c = '[' then
      match setBody? r with
      | none => .char c :: readParts fuel r
      | some (body, rest) => readSet body :: readParts fuel rest
    else .char c :: readParts fuel r

def parse (pattern : List Char) : List Part :=
  readParts pattern.length pattern

/-- The part, which stands for one character, stands for this one. -/
def Part.accepts : Part → Char → Bool
  | anyRun, _ | anyChar, _ => true
  | char d, c => d = c
  | set negated ranges, c => negated != ranges.any fun (low, high) => low ≤ c && c ≤ high

def matchParts (parts : List Part) (s : List Char) : Bool :=
  match parts, s with
  | [], [] => true
  | [], _ :: _ => false
  | .anyRun :: ps, [] => matchParts ps []
  | .anyRun :: ps, c :: r => matchParts ps (c :: r) || matchParts (.anyRun :: ps) r
  | _ :: _, [] => false
  | p :: ps, c :: r => p.accepts c && matchParts ps r
termination_by (parts.length, s.length)

/-- The pattern matches the whole name. -/
def isMatch (pattern name : List Char) : Bool :=
  matchParts (parse pattern) name

end Glob
end MiniScriptLayout
