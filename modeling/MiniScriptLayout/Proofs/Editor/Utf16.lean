import Mathlib.Data.List.Basic
import MiniScriptLayout.Text.Units

/-!
Texts in UTF-16. A character beyond the first 65536 takes two units, a high and a low surrogate; a
number of units is the end of a character unless it parts two such units.
-/

namespace MiniScriptLayout
namespace Utf16

def ofChar (c : Char) : List UInt16 :=
  if c.toNat ≤ 0xFFFF then [UInt16.ofNat c.toNat]
  else
    [UInt16.ofNat (0xD800 + (c.toNat - 0x10000) / 0x400),
      UInt16.ofNat (0xDC00 + (c.toNat - 0x10000) % 0x400)]

def encode (s : List Char) : List UInt16 :=
  s.flatMap ofChar

def isHigh (u : UInt16) : Bool :=
  0xD800 ≤ u.toNat && u.toNat ≤ 0xDBFF

def isLow (u : UInt16) : Bool :=
  0xDC00 ≤ u.toNat && u.toNat ≤ 0xDFFF

/-- A high surrogate comes right before this place, and a low one right after it. -/
def splitsPair (n : Nat) (us : List UInt16) : Bool :=
  (us.take n).getLast?.any isHigh && (us.drop n).head?.any isLow

variable {c : Char} {s t : List Char}

theorem encode_cons (c : Char) (s : List Char) : encode (c :: s) = ofChar c ++ encode s := rfl

theorem encode_append (s t : List Char) : encode (s ++ t) = encode s ++ encode t :=
  List.flatMap_append

theorem encode_flatMap {α : Type} (f : α → List Char) (as : List α) :
    encode (as.flatMap f) = as.flatMap fun a => encode (f a) :=
  List.flatMap_assoc

theorem length_ofChar (c : Char) : (ofChar c).length = Text.units c := by
  unfold ofChar Text.units
  split <;> rfl

theorem length_encode (s : List Char) : (encode s).length = Text.unitLength s := by
  induction s with
  | nil => rfl
  | cons c s ih => rw [encode_cons, List.length_append, length_ofChar, ih, Text.unitLength]

theorem toNat_lt (c : Char) : c.toNat < 0x110000 := by
  rcases c.valid with h | h
  · exact Nat.lt_trans h (by decide)
  · exact h.2

/-- The units of a character beyond the first 65536. -/
theorem ofChar_pair (h : 0xFFFF < c.toNat) :
    ∃ high low, ofChar c = [high, low] ∧ isHigh high = true ∧ isLow low = true := by
  have hc := toNat_lt c
  refine ⟨_, _, if_neg (Nat.not_le.2 h), ?_, ?_⟩
  · rw [isHigh, UInt16.toNat_ofNat_of_lt' (show _ < 0x10000 by omega), Bool.and_eq_true,
      decide_eq_true_iff, decide_eq_true_iff]
    omega
  · rw [isLow, UInt16.toNat_ofNat_of_lt' (show _ < 0x10000 by omega), Bool.and_eq_true,
      decide_eq_true_iff, decide_eq_true_iff]
    omega

/-- A unit that is no surrogate is the character itself. -/
theorem toNat_of_mem_ofChar {u : UInt16} (h : u ∈ ofChar c) (hu : u.toNat < 0xD800) :
    u.toNat = c.toNat := by
  have hc := toNat_lt c
  unfold ofChar at h
  split at h
  · rw [List.mem_singleton] at h
    rw [h, UInt16.toNat_ofNat_of_lt' (show _ < 0x10000 by omega)]
  · simp only [List.mem_cons, List.not_mem_nil, or_false] at h
    -- the units of a pair are surrogates
    rcases h with rfl | rfl
    · rw [UInt16.toNat_ofNat_of_lt' (show _ < 0x10000 by omega)] at hu
      omega
    · rw [UInt16.toNat_ofNat_of_lt' (show _ < 0x10000 by omega)] at hu
      omega

/-- A place between units stands between characters, or in the middle of one. -/
theorem exists_place (s : List Char) {n : Nat} (h : n ≤ Text.unitLength s) :
    (∃ q r, s = q ++ r ∧ Text.unitLength q = n) ∨
      ∃ q c r, s = q ++ c :: r ∧ 0xFFFF < c.toNat ∧ n = Text.unitLength q + 1 := by
  induction s generalizing n with
  | nil =>
      have hn : n = 0 := Nat.le_zero.1 h
      exact .inl ⟨[], [], rfl, hn.symm⟩
  | cons c s ih =>
      rw [Text.unitLength] at h
      by_cases hc : Text.units c ≤ n
      · have hn : n - Text.units c ≤ Text.unitLength s := by omega
        rcases ih hn with ⟨q, r, rfl, hq⟩ | ⟨q, d, r, rfl, hd, hq⟩
        · exact .inl ⟨c :: q, r, rfl, by rw [Text.unitLength]; omega⟩
        · exact .inr ⟨c :: q, d, r, rfl, hd, by rw [Text.unitLength]; omega⟩
      · by_cases hn : n = 0
        · exact .inl ⟨[], c :: s, rfl, hn.symm⟩
        · have hlong : ¬ c.toNat ≤ 0xFFFF := by
            intro hshort
            rw [Text.units, if_pos hshort] at hc
            omega
          rw [Text.units, if_neg hlong] at hc
          refine .inr ⟨[], c, s, rfl, Nat.lt_of_not_le hlong, ?_⟩
          rw [Text.unitLength]
          omega

theorem exists_prefix {n : Nat} (h : n ≤ Text.unitLength s)
    (hpair : splitsPair n (encode s) = false) : ∃ q r, s = q ++ r ∧ Text.unitLength q = n := by
  refine (exists_place s h).resolve_right ?_
  rintro ⟨q, c, r, rfl, hc, rfl⟩
  obtain ⟨high, low, hpairs, hhigh, hlow⟩ := ofChar_pair hc
  have hunits : encode (q ++ c :: r) = (encode q ++ [high]) ++ low :: encode r := by
    rw [encode_append, encode_cons, hpairs]
    simp
  have hlength : (encode q ++ [high]).length = Text.unitLength q + 1 := by
    rw [List.length_append, length_encode, List.length_singleton]
  rw [hunits, splitsPair, ← hlength, List.take_left, List.drop_left] at hpair
  simp [hhigh, hlow] at hpair

end Utf16
end MiniScriptLayout
