import MiniScriptLayout.Lexical.Character
import MiniScriptLayout.Text.Blank

/-!
Spacing around minus signs. A sign that has a blank before it and none after it is unary and stays
with its operand; a sign with a blank or nothing after it, or right between two operands, is binary
and has one space on each side.
-/

namespace MiniScriptLayout
namespace Spacing

/-- Two adjacent minus signs come apart. -/
def splitMinusPairs : List Char → List Char
  | [] => []
  | [c] => [c]
  | c :: d :: r =>
    if c = '-' ∧ d = '-' then '-' :: ' ' :: '-' :: splitMinusPairs r
    else c :: splitMinusPairs (d :: r)

/-- The text starts with a minus sign that has something other than a blank right after it. -/
def startsUnary : List Char → Bool
  | c :: d :: _ => c = '-' && !Text.isBlank d
  | _ => false

/-- The text starts with a minus sign that has a blank or nothing after it. -/
def startsBinary : List Char → Bool
  | [c] => c = '-'
  | c :: d :: _ => c = '-' && Text.isBlank d
  | [] => false

/-- The blanks before a unary minus become one space. -/
def tightenUnary : List Char → List Char
  | [] => []
  | c :: r =>
    if Text.isBlank c && startsUnary (Text.trimLeft r) then
      if Text.startsBlank r then tightenUnary r else ' ' :: tightenUnary r
    else c :: tightenUnary r

/-- A binary minus with a blank or nothing after it gets one space on each side in place of the
blanks around it; `after` says that the text comes right after such a sign. -/
def spaceMinusFrom (after : Bool) : List Char → List Char
  | [] => []
  | c :: r =>
    if Text.isBlank c then
      if after || startsBinary (Text.trimLeft r) then spaceMinusFrom after r
      else c :: spaceMinusFrom false r
    else if startsBinary (c :: r) then ' ' :: c :: ' ' :: spaceMinusFrom true r
    else c :: spaceMinusFrom false r

def spaceMinus (s : List Char) : List Char :=
  spaceMinusFrom false s

/-- A minus sign right after this character joins two operands. -/
def endsOperand (c : Char) : Bool :=
  !(Text.isBlank c || Lexical.isOpener c || c = ':')

/-- A minus sign right between two operands gets a space on each side; `operand` says that the
character before the text ends an operand. -/
def spaceTightMinusFrom (operand : Bool) : List Char → List Char
  | [] => []
  | c :: r =>
    if operand && startsUnary (c :: r) then ' ' :: c :: ' ' :: spaceTightMinusFrom true r
    else c :: spaceTightMinusFrom (endsOperand c) r

def spaceTightMinus (s : List Char) : List Char :=
  spaceTightMinusFrom false s

end Spacing
end MiniScriptLayout
