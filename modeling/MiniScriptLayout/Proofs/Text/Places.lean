/-!
Places of a character in a text, by what stands before and behind it.
-/

namespace MiniScriptLayout
namespace Text

/-- Wherever the mark stands in a text behind `before`, all that stands before it and all that
stands behind it have the property. -/
def AtEach (mark : Char) (P : List Char → List Char → Prop) (before s : List Char) : Prop :=
  ∀ x y, s = x ++ mark :: y → P (before ++ x) y

variable {mark c : Char} {P : List Char → List Char → Prop} {before s x : List Char}

/-- What stands before a rest of the text stands before each place in that rest. -/
theorem AtEach.right (h : AtEach mark P before (x ++ s)) : AtEach mark P (before ++ x) s := by
  intro y z hs
  rw [List.append_assoc]
  exact h (x ++ y) z (by rw [hs, List.append_assoc])

theorem atEach_nil : AtEach mark P before [] :=
  fun _ _ h => by simp at h

theorem atEach_cons : AtEach mark P before (c :: s) ↔
    (c = mark → P before s) ∧ AtEach mark P (before ++ [c]) s := by
  constructor
  · refine fun h => ⟨?_, fun x y hs => ?_⟩
    · rintro rfl
      simpa using h [] s rfl
    · have hplace := h (c :: x) y (by rw [hs, List.cons_append])
      rwa [List.append_assoc, List.singleton_append]
  · rintro ⟨hfirst, hbehind⟩ x y hs
    cases x with
    | nil =>
        obtain ⟨hc, rfl⟩ := List.cons_eq_cons.1 hs
        rw [List.append_nil]
        exact hfirst hc
    | cons d x =>
        obtain ⟨rfl, htail⟩ := List.cons_eq_cons.1 hs
        have hplace := hbehind x y htail
        rwa [List.append_assoc, List.singleton_append] at hplace

theorem atEach_cons_of_ne (hc : c ≠ mark) :
    AtEach mark P before (c :: s) ↔ AtEach mark P (before ++ [c]) s :=
  atEach_cons.trans ⟨fun h => h.2, fun h => ⟨fun heq => absurd heq hc, h⟩⟩

/-- A text without the mark is passed over. -/
theorem atEach_append (hx : mark ∉ x) :
    AtEach mark P before (x ++ s) ↔ AtEach mark P (before ++ x) s := by
  induction x generalizing before with
  | nil => rw [List.nil_append, List.append_nil]
  | cons c x ih =>
      rw [List.mem_cons, not_or] at hx
      have hne : c ≠ mark := fun h => hx.1 h.symm
      rw [List.cons_append, atEach_cons_of_ne hne, ih hx.2, List.append_assoc,
        List.singleton_append]

end Text
end MiniScriptLayout
