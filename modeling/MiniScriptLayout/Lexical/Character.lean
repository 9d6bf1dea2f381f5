/-!
The character classes of MiniScript source text: the characters of identifiers, and brackets with
their partners.
-/

namespace MiniScriptLayout
namespace Lexical

/-- An underscore, an ASCII letter or digit, or any character from U+00A0 on. -/
def isIdentifierChar (c : Char) : Bool :=
  c = '_' || ('a' ≤ c && c ≤ 'z') || ('A' ≤ c && c ≤ 'Z') || ('0' ≤ c && c ≤ '9') || 0x9F < c.toNat

def isOpener (c : Char) : Bool :=
  c = '(' || c = '[' || c = '\x7b'

def isCloser (c : Char) : Bool :=
  c = ')' || c = ']' || c = '\x7d'

def isBracket (c : Char) : Bool :=
  isOpener c || isCloser c

/-- The opening bracket of the same kind. -/
def openerOf? (c : Char) : Option Char :=
  if c = ')' then some '('
  else if c = ']' then some '['
  else if c = '\x7d' then some '\x7b'
  else none

theorem openerOf?_isSome (c : Char) : (openerOf? c).isSome = isCloser c := by
  unfold openerOf? isCloser
  split
  · simp_all
  · split
    · simp_all
    · split <;> simp_all

end Lexical
end MiniScriptLayout
