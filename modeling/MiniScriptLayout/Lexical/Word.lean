import MiniScriptLayout.Lexical.Character
import MiniScriptLayout.Text.Blank

/-!
Whole words at the ends of a line of code, and the keywords that open, divide and close blocks.
-/

namespace MiniScriptLayout
namespace Lexical

/-- The line starts with the word, and the word ends there: `forest` does not start with `for`. -/
def startsWithWord (word code : List Char) : Bool :=
  word.isPrefixOf code && (code.drop word.length).head?.all fun c => !isIdentifierChar c

/-- The line ends with the word, and the word starts there. -/
def endsWithWord (word code : List Char) : Bool :=
  startsWithWord word.reverse code.reverse

/-- The keywords that layout looks at. -/
inductive Keyword where
  | ifWord
  | thenWord
  | elseWord
  | endWord
  | whileWord
  | forWord
  | functionWord
  deriving DecidableEq, Repr

namespace Keyword

def spelling : Keyword → List Char
  | ifWord => ['i', 'f']
  | thenWord => ['t', 'h', 'e', 'n']
  | elseWord => ['e', 'l', 's', 'e']
  | endWord => ['e', 'n', 'd']
  | whileWord => ['w', 'h', 'i', 'l', 'e']
  | forWord => ['f', 'o', 'r']
  | functionWord => ['f', 'u', 'n', 'c', 't', 'i', 'o', 'n']

def starts (k : Keyword) (code : List Char) : Bool :=
  startsWithWord k.spelling code

def ends (k : Keyword) (code : List Char) : Bool :=
  endsWithWord k.spelling code

end Keyword

/-- The text starts with `function`, followed by `(`, a blank or the end. -/
def startsFunction (s : List Char) : Bool :=
  Keyword.functionWord.spelling.isPrefixOf s &&
    (s.drop Keyword.functionWord.spelling.length).head?.all fun c => c = '(' || Text.isBlank c

/-- Looks for `function` after a blank; `boundary` says that the text itself may start with it. -/
def holdsFunctionFrom (boundary : Bool) : List Char → Bool
  | [] => false
  | c :: r => (boundary && startsFunction (c :: r)) || holdsFunctionFrom (Text.isBlank c) r

/-- The line holds the keyword `function`, at its start or after a blank. -/
def holdsFunction (code : List Char) : Bool :=
  holdsFunctionFrom true code

end Lexical
end MiniScriptLayout
