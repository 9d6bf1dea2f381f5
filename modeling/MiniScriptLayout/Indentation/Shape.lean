import MiniScriptLayout.Lexical.Balance
import MiniScriptLayout.Lexical.Continuation
import MiniScriptLayout.Lexical.Word

/-!
What the indentation of a text depends on: for every line which blocks it opens, divides or closes,
how it ends, and its bracket balance.
-/

namespace MiniScriptLayout
namespace Indentation

/-- The part of a line of code that decides about indentation. -/
structure Shape where
  /-- The line is `if … then` with nothing behind it. -/
  opensBranch : Bool := false
  /-- The line is the head of a loop or holds a function. -/
  opensBlock : Bool := false
  startsElse : Bool := false
  startsEnd : Bool := false
  endsWithOperation : Bool := false
  endsOpen : Bool := false
  startsWithCloser : Bool := false
  balance : Lexical.Balance := ⟨0, 0⟩
  deriving DecidableEq, Repr

namespace Shape

def ofCode (code : List Char) : Shape where
  opensBranch := Lexical.Keyword.ifWord.starts code && Lexical.Keyword.thenWord.ends code
  opensBlock :=
    Lexical.Keyword.whileWord.starts code || Lexical.Keyword.forWord.starts code ||
      Lexical.holdsFunction code
  startsElse := Lexical.Keyword.elseWord.starts code
  startsEnd := Lexical.Keyword.endWord.starts code
  endsWithOperation := Lexical.endsWithOperation code
  endsOpen := Lexical.endsOpen code
  startsWithCloser := Lexical.startsWithCloser code
  balance := Lexical.Balance.ofCode code

/-- The statement of the line goes on in the next one. -/
def isIncomplete (s : Shape) : Bool :=
  s.endsWithOperation || s.endsOpen

end Shape

/-- How far a line is indented: by the blocks around it, and by the brackets and operators that it
continues. -/
structure Depth where
  blocks : Nat := 0
  continuations : Nat := 0
  deriving DecidableEq, Repr

namespace Depth

def intoBlock (d : Depth) : Depth :=
  ⟨d.blocks + 1, d.continuations⟩

def continued (units : Nat) (d : Depth) : Depth :=
  ⟨d.blocks, d.continuations + units⟩

end Depth

/-- The texts that one unit of indentation stands for. -/
structure Units where
  block : List Char
  continuation : List Char
  deriving DecidableEq, Repr

/-- The indentation of a line: the units of its blocks, then those of its continuations. -/
def Depth.render (u : Units) (d : Depth) : List Char :=
  (List.replicate d.blocks u.block).flatten ++
    (List.replicate d.continuations u.continuation).flatten

end Indentation
end MiniScriptLayout
