import MiniScriptLayout.Spacing.Bracket
import MiniScriptLayout.Spacing.Comma
import MiniScriptLayout.Spacing.Exponent
import MiniScriptLayout.Spacing.Minus
import MiniScriptLayout.Spacing.Operator
import MiniScriptLayout.Spacing.Parameters

/-!
The spacing of one line of code. The rules build on each other: the rule for commas before a closing
bracket relies on spaced commas, and the rule for numbers mends what the rules for operators did
to the sign of an exponent.
-/

namespace MiniScriptLayout
namespace Spacing

/-- Spacing of dots, brackets and commas, on a line whose blanks are single spaces. -/
def spaceBrackets (s : List Char) : List Char :=
  spaceCommas (spaceAfterClosers (tightenClosers (tightenOpeners (tightenDots s))))

/-- Spacing of minus signs. -/
def spaceMinuses (s : List Char) : List Char :=
  spaceTightMinus (spaceMinus (tightenUnary (splitMinusPairs s)))

/-- Writes the code of a line with the spacing of the layout. -/
def normalize (s : List Char) : List Char :=
  dropEmptyParameters <| dropTrailingCommas <| joinExponents <| spaceMinuses <|
    spaceOperators <| spaceBrackets <| collapse s

end Spacing
end MiniScriptLayout
