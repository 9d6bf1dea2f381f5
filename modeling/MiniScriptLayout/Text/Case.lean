/-!
Small letters.
-/

namespace MiniScriptLayout
namespace Text

/-- Writes the ASCII letters of a text small. -/
def toLower (s : List Char) : List Char :=
  s.map fun c => if 'A' ≤ c ∧ c ≤ 'Z' then Char.ofNat (c.toNat + 0x20) else c

theorem length_toLower (s : List Char) : (toLower s).length = s.length :=
  List.length_map _

end Text
end MiniScriptLayout
