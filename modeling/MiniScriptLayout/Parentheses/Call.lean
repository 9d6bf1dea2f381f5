import MiniScriptLayout.Lexical.Character
import MiniScriptLayout.Parentheses.Partner
import MiniScriptLayout.Text.Blank

/-!
Calls as statements. A line that is a chain of names and index groups followed by one list of
arguments in parentheses, such as `items[0].run(x)`, is written without the parentheses.
-/

namespace MiniScriptLayout
namespace Parentheses

/-- Checks a chain from its end: identifier characters, dots, and bracket groups that are closed. -/
def isReversedChain (s : List Char) : Bool :=
  match s with
  | [] => true
  | c :: r =>
    if c = '.' || Lexical.isIdentifierChar c then isReversedChain r
    else
      match Lexical.openerOf? c with
      | none => false
      | some opener =>
        match _h : enclosed c opener 0 r with
        | none => false
        | some (_, rest) => isReversedChain rest
termination_by s.length
decreasing_by
  · simp
  · have := length_enclosed _h
    simp only [List.length_cons]
    omega

/-- Writes a call statement without the parentheses around its arguments. A line of another shape
loses only the blanks at its end. -/
def stripCall (line : List Char) : List Char :=
  let line := Text.trimRight line
  match line.reverse with
  | ')' :: r =>
    match enclosed ')' '(' 0 r with
    | none => line
    | some (arguments, chain) =>
      if isReversedChain chain then chain.reverse ++ ' ' :: arguments.reverse else line
  | _ => line

end Parentheses
end MiniScriptLayout
