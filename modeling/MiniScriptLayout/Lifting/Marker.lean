import MiniScriptLayout.Text.DecimalDigit
import MiniScriptLayout.Text.Start

/-!
Markers: numbered place holders that stand in a text for the entries of a table. `fill` puts the
entries back; `missing?` finds the first marker whose number the table does not have.
-/

namespace MiniScriptLayout

/-- A text with markers and the table of what they stand for. -/
structure Lifted where
  text : List Char
  table : List (List Char)
  deriving DecidableEq, Repr

/-- A marker is a number between two fixed texts. -/
structure Marker where
  before : List Char
  after : List Char
  deriving DecidableEq, Repr

namespace Marker

def write (m : Marker) (n : Nat) : List Char :=
  m.before ++ Text.decimal n ++ m.after

/-- The number of the marker that the text starts with, its digits as written, and the rest.
Digits of any script are read. -/
def read? (m : Marker) (s : List Char) : Option (Nat × List Char × List Char) := do
  let s ← Text.strip? m.before s
  let digits := s.takeWhile Text.isDecimalDigit
  if digits.isEmpty then none
  else
    let rest ← Text.strip? m.after (s.dropWhile Text.isDecimalDigit)
    some (Text.readDecimal digits, digits, rest)

theorem length_read? {m : Marker} {s digits r : List Char} {n : Nat}
    (h : m.read? s = some (n, digits, r)) : r.length < s.length := by
  simp only [read?, Option.bind_eq_bind, Option.bind_eq_some_iff] at h
  obtain ⟨t, ht, h⟩ := h
  split at h
  · simp at h
  · rename_i hne
    simp only [Option.bind_eq_some_iff] at h
    obtain ⟨u, hu, h⟩ := h
    simp only [Option.some.injEq, Prod.mk.injEq] at h
    obtain ⟨_, _, rfl⟩ := h
    have h1 := Text.length_strip? ht
    have h2 := Text.length_strip? hu
    have h3 : (t.takeWhile Text.isDecimalDigit).length +
        (t.dropWhile Text.isDecimalDigit).length = t.length := by
      rw [← List.length_append, List.takeWhile_append_dropWhile]
    have h4 : 0 < (t.takeWhile Text.isDecimalDigit).length := by
      rw [List.length_pos_iff]
      simpa using hne
    omega

/-- A stretch of a text with markers. -/
inductive Piece where
  | char (c : Char)
  | slot (n : Nat) (digits : List Char)
  deriving DecidableEq, Repr

/-- Cuts a text at its markers, read from the left. -/
def pieces (m : Marker) (s : List Char) : List Piece :=
  match s with
  | [] => []
  | c :: r =>
    match _h : m.read? (c :: r) with
    | some (n, digits, rest) => .slot n digits :: pieces m rest
    | none => .char c :: pieces m r
termination_by s.length
decreasing_by
  · exact length_read? _h
  · simp

/-- What stands for a piece once the table is put back; a marker without an entry stays. -/
def Piece.fill (m : Marker) (table : List (List Char)) : Piece → List Char
  | .char c => [c]
  | .slot n digits => (table[n]?).getD (m.before ++ digits ++ m.after)

/-- Puts the entries of the table back in place of their markers. -/
def fill (m : Marker) (table : List (List Char)) (s : List Char) : List Char :=
  (m.pieces s).flatMap (Piece.fill m table)

/-- The number of the first marker that the table has no entry for. -/
def missing? (m : Marker) (table : List (List Char)) (s : List Char) : Option Nat :=
  (m.pieces s).findSome? fun
    | .char _ => none
    | .slot n _ => if n < table.length then none else some n

end Marker

end MiniScriptLayout
