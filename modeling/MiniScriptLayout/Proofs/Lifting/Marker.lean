import Mathlib.Data.List.TakeWhile
import MiniScriptLayout.Lifting.Marker

/-!
Reading and filling markers. A written marker reads back as its number and the text behind it, so
filling a text goes marker by marker and leaves all else as it is. No entry is missing if the number
of every marker is in the table.
-/

namespace MiniScriptLayout
namespace Text

theorem isAsciiDigit_digit {n : Nat} (h : n < 10) : isAsciiDigit (digit n) = true := by
  match n, h with
  | 0, _ | 1, _ | 2, _ | 3, _ | 4, _ | 5, _ | 6, _ | 7, _ | 8, _ | 9, _ => rfl

theorem isDecimalDigit_digit {n : Nat} (h : n < 10) : isDecimalDigit (digit n) = true := by
  simp [isDecimalDigit, digitValue?_digit n h]

/-- Whatever holds of the ten digits holds of every digit of a written number. -/
theorem decimal_induction {p : Char → Prop} (h : ∀ n, n < 10 → p (digit n)) (n : Nat) :
    ∀ c ∈ decimal n, p c := by
  induction n using Nat.strongRecOn with
  | ind n ih =>
      rw [decimal]
      split
      · rename_i hn
        simpa using h n hn
      · intro c hc
        rcases List.mem_append.1 hc with hc | hc
        · exact ih (n / 10) (by omega) c hc
        · rw [List.mem_singleton.1 hc]
          exact h (n % 10) (by omega)

theorem isAsciiDigit_decimal (n : Nat) : ∀ c ∈ decimal n, isAsciiDigit c = true :=
  decimal_induction (fun _ h => isAsciiDigit_digit h) n

theorem isDecimalDigit_decimal (n : Nat) : ∀ c ∈ decimal n, isDecimalDigit c = true :=
  decimal_induction (fun _ h => isDecimalDigit_digit h) n

theorem strip?_append (p s : List Char) : strip? p (p ++ s) = some s :=
  strip?_eq_some.2 rfl

theorem strip?_eq_none {p s : List Char} (h : ¬ p <+: s) : strip? p s = none := by
  cases hs : strip? p s with
  | none => rfl
  | some r => exact absurd ⟨r, (strip?_eq_some.1 hs).symm⟩ h

end Text

namespace Marker

variable {m : Marker} {table : List (List Char)}

theorem read?_write {n : Nat} {s : List Char}
    (hs : ∀ d ∈ (m.after ++ s).head?, Text.isDecimalDigit d = false) :
    m.read? (m.write n ++ s) = some (n, Text.decimal n, s) := by
  have htake : (Text.decimal n ++ (m.after ++ s)).takeWhile Text.isDecimalDigit =
      Text.decimal n := by
    rw [List.takeWhile_append_of_pos (Text.isDecimalDigit_decimal n)]
    cases ht : m.after ++ s with
    | nil => simp
    | cons d t => simp [hs d (by simp [ht])]
  have hdrop : (Text.decimal n ++ (m.after ++ s)).dropWhile Text.isDecimalDigit =
      m.after ++ s := by
    rw [List.dropWhile_append_of_pos (Text.isDecimalDigit_decimal n)]
    cases ht : m.after ++ s with
    | nil => simp
    | cons d t => simp [hs d (by simp [ht])]
  simp only [write, read?, List.append_assoc, Text.strip?_append, htake, hdrop,
    Option.bind_eq_bind, Option.bind_some, List.isEmpty_iff, Text.decimal_ne_nil, if_false,
    Text.readDecimal_decimal]

theorem read?_eq_none {s : List Char} (h : ¬ m.before <+: s) : m.read? s = none := by
  simp [read?, Text.strip?_eq_none h]

theorem pieces_nil : m.pieces [] = [] := by
  rw [pieces]

theorem pieces_cons {c : Char} {s : List Char} (h : ¬ m.before <+: c :: s) :
    m.pieces (c :: s) = .char c :: m.pieces s := by
  rw [pieces]
  split
  · rename_i hr
    rw [read?_eq_none h] at hr
    cases hr
  · rfl

theorem pieces_write {n : Nat} {s : List Char} (hm : m.before ≠ [])
    (hs : ∀ d ∈ (m.after ++ s).head?, Text.isDecimalDigit d = false) :
    m.pieces (m.write n ++ s) = .slot n (Text.decimal n) :: m.pieces s := by
  have hread := read?_write hs (n := n)
  cases hw : m.write n ++ s with
  | nil => simp [write, hm] at hw
  | cons c t =>
      rw [hw] at hread
      rw [pieces]
      split
      · rename_i heq
        rw [hread] at heq
        cases heq
        rfl
      · rename_i heq
        rw [hread] at heq
        cases heq

theorem fill_nil : m.fill table [] = [] := by
  rw [fill, pieces_nil, List.flatMap_nil]

theorem fill_chars (s : List Char) : (s.map Piece.char).flatMap (Piece.fill m table) = s := by
  rw [List.flatMap_map]
  exact List.flatMap_singleton' s

theorem missing?_eq_none_iff {s : List Char} :
    m.missing? table s = none ↔ ∀ n digits, .slot n digits ∈ m.pieces s → n < table.length := by
  rw [missing?, List.findSome?_eq_none_iff]
  constructor
  · intro h n digits hmem
    have hslot := h _ hmem
    by_contra hn
    simp [hn] at hslot
  · rintro h (c | ⟨n, digits⟩) hmem
    · rfl
    · exact if_pos (h n digits hmem)

end Marker
end MiniScriptLayout
