import MiniScriptLayout.Command.Visit
import MiniScriptLayout.Proofs.Rows.Lay
import MiniScriptLayout.Server.Store

/-!
The units of indentation are parameters of a layout. Every line of it has a depth and a body that
the text alone decides; the units only say what stands before the body.
-/

namespace MiniScriptLayout

open Text

namespace Row

variable {indent code : List Char} {body : Option (List Char)} {rows : List Row}

section PlaceAll

variable {codes : List (List Char)} {bodies : List (Option (List Char))}
  {depths : List Indentation.Depth}

end PlaceAll

end Row

namespace Log

/-- What is told about closing brackets that nothing opened. -/
def unmatched (n : Nat) : List Record :=
  if n = 0 then []
  else [⟨.debug, .indentation, .text s!"Found {n} unmatched closing bracket(s)"⟩]

end Log

end MiniScriptLayout
