import MiniScriptLayout.Text.DecimalDigit
import MiniScriptLayout.Text.HexDigit
import MiniScriptLayout.Text.Split
import MiniScriptLayout.Text.Start

/-!
Hosts in brackets. What stands between the brackets of an authority has to be an address of the
sixth or a later version.
-/

namespace MiniScriptLayout
namespace Uri

def isHexDigit (c : Char) : Bool :=
  (Text.hexValue? c).isSome

/-- A number up to 255, without zeros in front. -/
def isOctet (s : List Char) : Bool :=
  !s.isEmpty && s.all Text.isAsciiDigit && s.length ≤ 3 && (s.length == 1 || s.head? != some '0') &&
    Text.readDecimal s ≤ 255

/-- Four octets between dots. -/
def isQuad (s : List Char) : Bool :=
  let octets := Text.split '.' s
  octets.length == 4 && octets.all isOctet

/-- One to four hexadecimal digits. -/
def isGroup (s : List Char) : Bool :=
  !s.isEmpty && s.all isHexDigit && s.length ≤ 4

/-- The number of groups that pieces make, if they are well-formed. The last one may be four octets,
which count for two groups, if `quad` allows it. -/
def countGroups? (quad : Bool) : List (List Char) → Option Nat
  | [] => some 0
  | [p] => if isGroup p then some 1 else if quad && isQuad p then some 2 else none
  | p :: q :: ps => if isGroup p then (countGroups? quad (q :: ps)).map (· + 1) else none

/-- The groups of a part of an address; an empty part has none. -/
def groupsOf (s : List Char) : List (List Char) :=
  if s.isEmpty then [] else Text.split ':' s

/-- Cuts a text at the first pair of colons. -/
def cutColons? : List Char → Option (List Char × List Char)
  | [] => none
  | c :: r =>
    match Text.strip? [':', ':'] (c :: r) with
    | some rest => some ([], rest)
    | none => (cutColons? r).map fun (before, behind) => (c :: before, behind)

/-- Eight groups, or fewer with a pair of colons for the missing ones. -/
def isGroups (s : List Char) : Bool :=
  match cutColons? s with
  | none => countGroups? true (groupsOf s) == some 8
  | some (before, behind) =>
    match countGroups? false (groupsOf before), countGroups? true (groupsOf behind) with
    | some m, some n => m + n ≤ 7
    | _, _ => false

/-- An address may name its zone behind a percent sign. -/
def isAddress (s : List Char) : Bool :=
  match Text.split '%' s with
  | [address] => isGroups address
  | [address, zone] => isGroups address && !zone.isEmpty
  | _ => false

/-- An address of a later version: the version in hexadecimal digits, a dot and something more. -/
def isLaterAddress (s : List Char) : Bool :=
  match s.dropWhile isHexDigit with
  | '.' :: _ :: _ => s.head?.any isHexDigit
  | _ => false

def isHost (s : List Char) : Bool :=
  match s with
  | 'v' :: r => isLaterAddress r
  | _ => isAddress s

end Uri
end MiniScriptLayout
