/-!
The longest run of lines that two texts share. Lines that are all over the new text start no run,
but a run goes on over them.
-/

namespace MiniScriptLayout
namespace Diff

abbrev Line := List Char

/-- A run of lines: where it starts in the old and in the new text, and how long it is. -/
structure Run where
  old : Nat
  new : Nat
  size : Nat
  deriving DecidableEq, Repr

/-- A text has to be this long for any of its lines to be all over it. -/
def frequentLength : Nat :=
  200

/-- The lines that make up more than a hundredth of a long text, rounded up. -/
def frequentLines (new : List Line) : List Line :=
  if new.length < frequentLength then []
  else new.eraseDups.filter fun line => new.count line > new.length / 100 + 1

/-- The lengths of the runs that end with a line of the old text at each line of the new one. They
go on from the lengths for the old line before; `before` is the length to go on from for the first
line. -/
def runLengths (frequent : List Line) (line : Line) : Nat → List Line → List Nat → List Nat
  | before, y :: ys, n :: ns =>
    (if line = y ∧ ¬ frequent.contains y then before + 1 else 0) ::
      runLengths frequent line n ys ns
  | _, _, _ => []

/-- The first longest run, among a run found before and those that end at one old line. -/
def longer (old : Nat) : Nat → List Nat → Run → Run
  | _, [], best => best
  | new, n :: ns, best =>
    longer old (new + 1) ns (if best.size < n then ⟨old + 1 - n, new + 1 - n, n⟩ else best)

/-- Looks for the longest run that ends at one of the old lines from a place on. -/
def longestFrom (frequent new : List Line) : Nat → List Line → List Nat → Run → Run
  | _, [], _, best => best
  | old, line :: lines, lengths, best =>
    let lengths := runLengths frequent line 0 new lengths
    longestFrom frequent new (old + 1) lines lengths (longer old 0 lengths best)

/-- The longest run without frequent lines. -/
def longest (frequent old new : List Line) : Run :=
  longestFrom frequent new 0 old (List.replicate new.length 0) ⟨0, 0, 0⟩

/-- The lines that two texts begin with. -/
def commonStart : List Line → List Line → List Line
  | x :: xs, y :: ys => if x = y then x :: commonStart xs ys else []
  | _, _ => []

theorem commonStart_append_left (xs ys : List Line) :
    commonStart xs ys ++ xs.drop (commonStart xs ys).length = xs := by
  fun_induction commonStart xs ys <;> simp_all

theorem commonStart_append_right (xs ys : List Line) :
    commonStart xs ys ++ ys.drop (commonStart xs ys).length = ys := by
  fun_induction commonStart xs ys <;> simp_all

/-- Two texts around a run that they share. -/
structure Parts where
  oldBefore : List Line
  newBefore : List Line
  run : List Line
  oldBehind : List Line
  newBehind : List Line
  deriving DecidableEq, Repr

/-- Cuts two texts where a run starts in them. -/
def partsAt (i j : Nat) (old new : List Line) : Parts :=
  let run := commonStart (old.drop i) (new.drop j)
  ⟨old.take i, new.take j, run, (old.drop i).drop run.length, (new.drop j).drop run.length⟩

/-- Cuts two texts at their longest run, extended to the lines before and behind it. -/
def parts (frequent old new : List Line) : Parts :=
  let run := longest frequent old new
  let extent := (commonStart (old.take run.old).reverse (new.take run.new).reverse).length
  partsAt (run.old - extent) (run.new - extent) old new

theorem old_parts (frequent old new : List Line) :
    (parts frequent old new).oldBefore ++
      ((parts frequent old new).run ++ (parts frequent old new).oldBehind) = old := by
  simp only [parts, partsAt, commonStart_append_left, List.take_append_drop]

theorem new_parts (frequent old new : List Line) :
    (parts frequent old new).newBefore ++
      ((parts frequent old new).run ++ (parts frequent old new).newBehind) = new := by
  simp only [parts, partsAt, commonStart_append_right, List.take_append_drop]

end Diff
end MiniScriptLayout
