import MiniScriptLayout.Lexical.Character

/-!
Statements that go on: a line whose last character is a binary operator, a comma, a colon or an
opening bracket is completed by the next line.
-/

namespace MiniScriptLayout
namespace Lexical

/-- The last character of a line, not counting one line feed that ends it. -/
def lastChar? (code : List Char) : Option Char :=
  match code.reverse with
  | '\n' :: r => r.head?
  | r => r.head?

def isOperatorEnd (c : Char) : Bool :=
  c = '+' || c = '-' || c = '*' || c = '/' || c = '%' || c = '^' || c = '<' || c = '>' || c = '='

/-- The line ends in a binary operator. -/
def endsWithOperation (code : List Char) : Bool :=
  (lastChar? code).any isOperatorEnd

/-- The line ends in a colon, a comma or an opening bracket. -/
def endsOpen (code : List Char) : Bool :=
  (lastChar? code).any fun c => c = ':' || c = ',' || isOpener c

/-- The statement of this line goes on in the next one. -/
def isIncomplete (code : List Char) : Bool :=
  endsWithOperation code || endsOpen code

def startsWithCloser (code : List Char) : Bool :=
  code.head?.any isCloser

end Lexical
end MiniScriptLayout
