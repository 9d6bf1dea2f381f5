import MiniScriptLayout.Indentation.Shape

/-!
Places in the walk over the lines of a text, and the stretches of lines between two places.
-/

namespace MiniScriptLayout
namespace Indentation

/-- A place in the walk: the lines that are still to be indented, the continuation units that the
first of them has already, and whether the line before them ends in a binary operator. -/
structure Place where
  lines : List Shape
  carried : Nat := 0
  afterOperation : Bool := false
  deriving DecidableEq, Repr

/-- The continuation units that a line gets for the operator before it. -/
def Place.operatorUnits (p : Place) : Nat :=
  if p.afterOperation then 1 else 0

/-- Some lines that got their depths, the closing brackets among them that no bracket before them
opened, and the place behind them. -/
structure Stretch where
  depths : List Depth
  excess : Nat
  next : Place
  deriving DecidableEq, Repr

namespace Stretch

/-- No lines at all. -/
def stop (p : Place) : Stretch :=
  ⟨[], 0, p⟩

/-- A line before a stretch. -/
def cons (d : Depth) (s : Stretch) : Stretch :=
  ⟨d :: s.depths, s.excess, s.next⟩

/-- Changes the depths of a stretch. -/
def map (f : Depth → Depth) (s : Stretch) : Stretch :=
  ⟨s.depths.map f, s.excess, s.next⟩

/-- A stretch and the one that begins where it ends. -/
def append (s t : Stretch) : Stretch :=
  ⟨s.depths ++ t.depths, s.excess + t.excess, t.next⟩

/-- As `append`, with the closing brackets of the second stretch alone. -/
def resume (s t : Stretch) : Stretch :=
  ⟨s.depths ++ t.depths, t.excess, t.next⟩

end Stretch

end Indentation
end MiniScriptLayout
