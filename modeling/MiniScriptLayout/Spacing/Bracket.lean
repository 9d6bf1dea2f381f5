import MiniScriptLayout.Lexical.Character
import MiniScriptLayout.Spacing.Blanks

/-!
Spacing around dots and brackets: none around a dot, none on the inner side of a bracket, and one
space between a closing bracket and a word or sign behind it.
-/

namespace MiniScriptLayout
namespace Spacing

def isDot (c : Char) : Bool :=
  c = '.'

/-- No blank stands on either side of a dot. -/
def tightenDots (s : List Char) : List Char :=
  dropAfter isDot (dropBefore isDot s)

/-- No blank stands right after an opening bracket. -/
def tightenOpeners (s : List Char) : List Char :=
  dropAfter Lexical.isOpener s

/-- No blank stands right before a closing bracket. -/
def tightenClosers (s : List Char) : List Char :=
  dropBefore Lexical.isCloser s

/-- A character that stands apart from a closing bracket before it: any but blanks, dots, brackets
and minus signs. -/
def standsApart (c : Char) : Bool :=
  !(Text.isBlank c || c = '.' || c = '-' || Lexical.isBracket c)

/-- Exactly one space separates a closing bracket from a character that stands apart from it. -/
def spaceAfterClosers : List Char → List Char
  | [] => []
  | c :: r =>
    let rest := spaceAfterClosers r
    if Lexical.isCloser c && (Text.trimLeft r).head?.any standsApart then
      c :: ' ' :: Text.trimLeft rest
    else c :: rest

end Spacing
end MiniScriptLayout
