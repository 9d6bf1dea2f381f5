import MiniScriptLayout.Lexical.Character

/-!
The bracket balance of a text: the closers and the openers that find no partner in it. Kinds are
not compared, so any closer pairs with any opener before it.
-/

namespace MiniScriptLayout
namespace Lexical

/-- The brackets of a text without a partner: all closers stand before all openers. -/
structure Balance where
  opened : Nat
  closed : Nat
  deriving DecidableEq, Repr

namespace Balance

/-- A closer pairs with an opener that waits, if there is one. -/
def step (b : Balance) (c : Char) : Balance :=
  if isCloser c then
    if 0 < b.opened then ⟨b.opened - 1, b.closed⟩ else ⟨b.opened, b.closed + 1⟩
  else if isOpener c then ⟨b.opened + 1, b.closed⟩
  else b

def ofCode (code : List Char) : Balance :=
  code.foldl step ⟨0, 0⟩

end Balance

end Lexical
end MiniScriptLayout
