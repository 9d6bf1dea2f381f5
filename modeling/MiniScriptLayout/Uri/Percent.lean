import MiniScriptLayout.Text.HexDigit
import MiniScriptLayout.Text.Utf8

/-!
Percent-encoding: a percent sign with two hexadecimal digits stands for a byte.
-/

namespace MiniScriptLayout
namespace Uri

/-- The byte that two digits write. -/
def hexByte? (a b : Char) : Option UInt8 := do
  return UInt8.ofNat (16 * (← Text.hexValue? a) + (← Text.hexValue? b))

/-- The bytes of a text. A percent sign without digits stands for itself. -/
def bytes : List Char → List UInt8
  | [] => []
  | [c] => Utf8.encodeChar c
  | [c, d] => Utf8.encodeChar c ++ Utf8.encodeChar d
  | c :: a :: b :: r =>
    if c = '%' then
      match hexByte? a b with
      | some byte => byte :: bytes r
      | none => Utf8.encodeChar c ++ bytes (a :: b :: r)
    else Utf8.encodeChar c ++ bytes (a :: b :: r)

/-- The text that an encoded one stands for. -/
def decode (s : List Char) : List Char :=
  Utf8.decodeLossy (bytes s)

end Uri
end MiniScriptLayout
