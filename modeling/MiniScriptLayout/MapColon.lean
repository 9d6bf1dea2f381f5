import MiniScriptLayout.Lexical.Character

/-!
Colons of maps. A colon whose innermost open bracket is a brace separates a key from a value: it has
no space before it and one behind it. All other colons keep their spacing.
-/

namespace MiniScriptLayout
namespace MapColon

def isSpace (c : Char) : Bool :=
  c = ' ' || c = '\t'

/-- Where a character stands in its line. -/
inductive Context where
  /-- At the start of a line, or behind spaces alone. -/
  | lineStart
  | inLine
  /-- Behind a colon of a map and perhaps some spaces. -/
  | afterColon
  deriving DecidableEq, Repr

/-- The brackets that are open behind a character, innermost first. Any closer closes the innermost
bracket. -/
def pushBracket (c : Char) (brackets : List Char) : List Char :=
  if Lexical.isOpener c then c :: brackets
  else if Lexical.isCloser c then brackets.tail
  else brackets

/-- Writes the colons of maps in a text that follows the given open brackets and context. -/
def spaceFrom (brackets : List Char) (context : Context) : List Char → List Char
  | [] => []
  | c :: r =>
    let inMap := brackets.head? = some '\x7b'
    if isSpace c then
      match context with
      | .lineStart => c :: spaceFrom brackets .lineStart r
      | .inLine =>
        if inMap ∧ (r.dropWhile isSpace).head? = some ':' then spaceFrom brackets .inLine r
        else c :: spaceFrom brackets .inLine r
      | .afterColon => spaceFrom brackets .afterColon r
    else if c = ':' ∧ inMap then c :: spaceFrom brackets .afterColon r
    else if c = '\n' then c :: spaceFrom brackets .lineStart r
    else if context = .afterColon then
      ' ' :: c :: spaceFrom (pushBracket c brackets) .inLine r
    else c :: spaceFrom (pushBracket c brackets) .inLine r

/-- Writes `key: value` for every colon of a map. -/
def space (s : List Char) : List Char :=
  spaceFrom [] .lineStart s

end MapColon
end MiniScriptLayout
