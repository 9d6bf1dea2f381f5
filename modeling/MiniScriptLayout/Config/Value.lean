import MiniScriptLayout.Config.Moment
import MiniScriptLayout.Decimal.Shortest
import MiniScriptLayout.Text.Quoted

/-!
Configuration values, as a configuration file gives them before anything is checked, and how
messages show them.
-/

namespace MiniScriptLayout
namespace Config

/-- A value of a configuration file. The keys of a table are in the order in which they came up. -/
inductive Value where
  | null
  | bool (b : Bool)
  | int (n : Int)
  | float (x : Binary)
  | text (s : List Char)
  | moment (m : Moment)
  | list (items : List Value)
  | table (entries : List (List Char × Value))
  deriving Repr

/-- Keys with their values. -/
abbrev Table := List (List Char × Value)

namespace Table

def get? (t : Table) (key : List Char) : Option Value :=
  t.lookup key

/-- Sets a key. A key that the table has already keeps its place. -/
def set (t : Table) (key : List Char) (v : Value) : Table :=
  if t.any fun entry => entry.1 == key then
    t.map fun entry => if entry.1 == key then (key, v) else entry
  else t ++ [(key, v)]

end Table

namespace Value

/-- A value that says nothing: null, false, a zero, or something empty. -/
def isBlank : Value → Bool
  | null => true
  | bool b => !b
  | int n => n == 0
  | float (.finite _ significand _) => significand == 0
  | float _ => false
  | text s => s.isEmpty
  | moment _ => false
  | list items => items.isEmpty
  | table entries => entries.isEmpty

mutual

/-- Shows a value, texts between quotes. -/
def quoted : Value → List Char
  | null => ['N', 'o', 'n', 'e']
  | bool true => ['T', 'r', 'u', 'e']
  | bool false => ['F', 'a', 'l', 's', 'e']
  | int n => Text.decimalInt n
  | float x => x.write Binary.style
  | text s => Text.quoted s
  | moment m => m.name.toList
  | list items => '[' :: (quotedItems true items ++ [']'])
  | table entries => '\x7b' :: (quotedEntries true entries ++ ['\x7d'])

/-- Shows items with commas between them. -/
def quotedItems (first : Bool) : List Value → List Char
  | [] => []
  | v :: vs => (if first then [] else [',', ' ']) ++ v.quoted ++ quotedItems false vs

/-- Shows keys and values with commas between them. -/
def quotedEntries (first : Bool) : List (List Char × Value) → List Char
  | [] => []
  | (key, v) :: rest =>
    (if first then [] else [',', ' ']) ++ Text.quoted key ++ ':' :: ' ' :: v.quoted ++
      quotedEntries false rest

end

/-- Shows a value, a text as it is. -/
def plain : Value → List Char
  | text s => s
  | moment m => m.write
  | v => v.quoted

end Value

end Config
end MiniScriptLayout
