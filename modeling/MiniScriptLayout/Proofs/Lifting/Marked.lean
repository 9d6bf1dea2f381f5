import MiniScriptLayout.Lifting.Literal
import MiniScriptLayout.Proofs.Lifting.Marker
import MiniScriptLayout.Proofs.Token.View

/-!
Texts with the markers of literals. A marked text holds the markers of a range of numbers, each once
and in order, no two of them side by side, and no other quote. Rules that keep the tokens of a text
keep its markers, whatever else they do to the text.
-/

namespace MiniScriptLayout
namespace Literal

/-- The quotes of the text are those of the markers from `n` up to `m`, in this order, and there is
something between each marker and the next. -/
inductive Marked : Nat → Nat → List Char → Prop
  | nil (n : Nat) : Marked n n []
  | char {n m : Nat} {c : Char} {s : List Char} :
      c ≠ '"' → Marked n m s → Marked n m (c :: s)
  | slot {n m : Nat} {s : List Char} :
      s.head? ≠ some '"' → Marked (n + 1) m s → Marked n m (marker.write n ++ s)

theorem write_eq (n : Nat) : marker.write n = '"' :: '$' :: (Text.decimal n ++ ['"']) := rfl

namespace Marked

variable {n m k : Nat} {s t : List Char}

theorem le (h : Marked n m s) : n ≤ m := by
  induction h with
  | nil n => exact Nat.le_refl n
  | char _ _ ih => exact ih
  | slot _ _ ih => omega

theorem not_mem (h : Marked n m s) (hn : m = n) : '"' ∉ s := by
  induction h with
  | nil => simp
  | char hc _ ih =>
      rw [List.mem_cons, not_or]
      exact ⟨Ne.symm hc, ih hn⟩
  | slot _ h _ =>
      have := h.le
      omega

/-- Marked texts with something other than two quotes where they meet. -/
theorem append (h : Marked n k s) (ht : Marked k m t)
    (hseam : t.head? ≠ some '"' ∨ s.getLast? ≠ some '"') : Marked n m (s ++ t) := by
  induction h with
  | nil => exact ht
  | @char n k c s hc _ ih =>
      refine .char hc (ih ht ?_)
      refine hseam.imp_right fun h => ?_
      cases s with
      | nil => simp
      | cons d s => rwa [List.getLast?_cons_cons] at h
  | @slot n k s hs _ ih =>
      rw [List.append_assoc]
      cases s with
      | nil =>
          have ht' : t.head? ≠ some '"' := by
            refine hseam.resolve_right ?_
            simp [write_eq, List.getLast?_cons, List.getLast?_append]
          refine .slot ht' ?_
          simpa using ih ht (.inl ht')
      | cons d s =>
          refine .slot hs (ih ht ?_)
          exact hseam.imp_right fun h => by simpa [List.getLast?_append] using h

/-- The characters of markers. -/
def isMarkerChar (c : Char) : Bool :=
  c = '"' || c = '$' || Text.isAsciiDigit c

theorem isMarkerChar_write (n : Nat) : ∀ c ∈ marker.write n, isMarkerChar c = true := by
  intro c hc
  simp only [write_eq, List.mem_cons, List.mem_append, List.not_mem_nil, or_false] at hc
  rcases hc with rfl | rfl | hc | rfl
  · rfl
  · rfl
  · simp [isMarkerChar, Text.isAsciiDigit_decimal n c hc]
  · rfl

/-- A character that is part of no marker cuts a marked text in two. -/
theorem cut {x : List Char} {c : Char} (h : Marked n m s) (hc : isMarkerChar c = false)
    (hs : s = x ++ c :: t) : ∃ k, Marked n k x ∧ Marked k m t := by
  induction h generalizing x with
  | nil => simp at hs
  | @char n m d s hd h ih =>
      cases x with
      | nil =>
          simp only [List.nil_append, List.cons.injEq] at hs
          exact ⟨n, .nil n, hs.2 ▸ h⟩
      | cons e x =>
          simp only [List.cons_append, List.cons.injEq] at hs
          obtain ⟨k, hx, ht⟩ := ih hs.2
          exact ⟨k, .char (hs.1 ▸ hd) hx, ht⟩
  | @slot n m s hhead h ih =>
      rw [List.append_eq_append_iff] at hs
      rcases hs with ⟨y, hx, hs⟩ | ⟨y, hw, hy⟩
      · obtain ⟨k, hxk, ht⟩ := ih hs
        refine ⟨k, hx ▸ .slot ?_ hxk, ht⟩
        rw [hs] at hhead
        cases y with
        | nil => simp
        | cons d y => simpa using hhead
      · cases y with
        | nil =>
            have hs : s = c :: t := by simpa using hy.symm
            obtain ⟨k, hxk, ht⟩ := ih (x := []) hs
            refine ⟨k, ?_, ht⟩
            have : x = marker.write n ++ [] := by simpa using hw.symm
            exact this ▸ .slot (by simp) hxk
        | cons d y =>
            simp only [List.cons_append, List.cons.injEq] at hy
            have hmem : c ∈ marker.write n := by rw [hw, hy.1]; simp
            rw [isMarkerChar_write n c hmem] at hc
            cases hc

end Marked

/-- The runs of characters that markers are made of. -/
def markers : View where
  glued := Marked.isMarkerChar
  kept _ := false
  glued_blank := by
    intro c hc
    cases h : Marked.isMarkerChar c with
    | false => rfl
    | true =>
        simp only [Marked.isMarkerChar, Text.isAsciiDigit, Bool.or_eq_true, Bool.and_eq_true,
          decide_eq_true_eq] at h
        rcases h with (rfl | rfl) | h
        · simp [Text.isBlank] at hc
        · simp [Text.isBlank] at hc
        · have h1 : 0x30 ≤ c.toNat := h.1
          have h2 : c.toNat ≤ 0x39 := h.2
          simp only [Text.isBlank, Bool.or_eq_true, Bool.and_eq_true, decide_eq_true_eq,
            beq_iff_eq] at hc
          omega
  kept_blank _ _ := rfl

/-- Texts that are marked one after the other. -/
def MarkedWords (n m : Nat) : List (List Char) → Prop
  | [] => n = m
  | w :: ws => ∃ k, Marked n k w ∧ MarkedWords k m ws

theorem marked_nil_iff {n m : Nat} : Marked n m [] ↔ n = m := by
  constructor
  · intro h
    generalize hs : ([] : List Char) = s at h
    cases h with
    | nil => rfl
    | char _ _ => cases hs
    | slot _ _ => simp [write_eq] at hs
  · rintro rfl
    exact .nil n

theorem marked_append_cons_iff {n m : Nat} {x t : List Char} {c : Char}
    (hc : Marked.isMarkerChar c = false) :
    Marked n m (x ++ c :: t) ↔ ∃ k, Marked n k x ∧ Marked k m t := by
  have hne : c ≠ '"' := by
    rintro rfl
    cases hc
  constructor
  · intro h
    exact h.cut hc rfl
  · rintro ⟨k, hx, ht⟩
    exact hx.append (.char hne ht) (.inl (by simpa using hne))

theorem marked_iff_words (n m : Nat) (s : List Char) :
    Marked n m s ↔ MarkedWords n m (markers.tokens s) := by
  induction s using markers.run_induction generalizing n with
  | run w hw =>
      cases w with
      | nil => exact marked_nil_iff
      | cons c w =>
          rw [← List.append_nil (c :: w), View.tokens_run_append (by simp) hw rfl]
          simp [View.tokens, MarkedWords]
  | cut w c t hw hc ih =>
      have hc : Marked.isMarkerChar c = false := hc
      have hskip : markers.skips c = true := by simp [View.skips, markers, hc]
      have hstop : markers.continues (c :: t) = false := hc
      rw [marked_append_cons_iff hc]
      simp only [ih]
      cases w with
      | nil =>
          rw [List.nil_append, View.tokens_skips hskip]
          simp [marked_nil_iff]
      | cons d w =>
          rw [View.tokens_run_append (by simp) hw hstop, View.tokens_skips hskip]
          rfl

/-- Texts with the same runs of marker characters are marked alike. -/
theorem Marked.congr {n m : Nat} {s t : List Char} (h : markers.tokens s = markers.tokens t) :
    Marked n m s ↔ Marked n m t := by
  rw [marked_iff_words, h, ← marked_iff_words]

end Literal
end MiniScriptLayout
