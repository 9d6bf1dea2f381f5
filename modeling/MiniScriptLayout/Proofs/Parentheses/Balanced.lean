import MiniScriptLayout.Parentheses.Partner

/-!
Balanced texts. Reading on from a bracket stops at its partner exactly if what stands between them
is balanced in brackets of that kind. A text is as balanced from its end as from its start.
-/

namespace MiniScriptLayout
namespace Parentheses

/-- Every bracket of the kind has its partner in the text. Other characters are free. -/
inductive Balanced (opener closer : Char) : List Char → Prop
  | nil : Balanced opener closer []
  | char {c : Char} {s : List Char} (ho : c ≠ opener) (hc : c ≠ closer)
      (hs : Balanced opener closer s) : Balanced opener closer (c :: s)
  | group {s t : List Char} (hs : Balanced opener closer s) (ht : Balanced opener closer t) :
      Balanced opener closer (opener :: (s ++ closer :: t))

variable {opener closer : Char} {s t : List Char}

namespace Balanced

theorem append (hs : Balanced opener closer s) (ht : Balanced opener closer t) :
    Balanced opener closer (s ++ t) := by
  induction hs with
  | nil => exact ht
  | char ho hc _ ih => exact .char ho hc ih
  | group hs _ _ ih =>
      rw [List.cons_append, List.append_assoc, List.cons_append]
      exact .group hs ih

theorem reverse (hs : Balanced opener closer s) : Balanced closer opener s.reverse := by
  induction hs with
  | nil => exact .nil
  | char ho hc _ ih =>
      rw [List.reverse_cons]
      exact ih.append (.char hc ho .nil)
  | group _ _ ihs iht =>
      have h := iht.append (.group ihs .nil)
      simpa only [List.reverse_cons, List.reverse_append, List.append_assoc, List.cons_append,
        List.nil_append] using h

end Balanced

section Enclosed

variable (depth : Nat) (r : List Char)

theorem enclosed_opener : enclosed opener closer depth (opener :: r) =
    (enclosed opener closer (depth + 1) r).map fun (inner, rest) => (opener :: inner, rest) := by
  simp only [enclosed, if_true]

theorem enclosed_closer (hne : closer ≠ opener) :
    enclosed opener closer 0 (closer :: r) = some ([], r) := by
  simp only [enclosed, hne, if_true, if_false]

theorem enclosed_closer_succ (hne : closer ≠ opener) :
    enclosed opener closer (depth + 1) (closer :: r) =
      (enclosed opener closer depth r).map fun (inner, rest) => (closer :: inner, rest) := by
  simp only [enclosed, hne, if_true, if_false]

theorem enclosed_char {c : Char} (ho : c ≠ opener) (hc : c ≠ closer) :
    enclosed opener closer depth (c :: r) =
      (enclosed opener closer depth r).map fun (inner, rest) => (c :: inner, rest) := by
  simp only [enclosed, ho, hc, if_false]

end Enclosed

/-- Reading passes over a balanced text, however deep it stands. -/
theorem enclosed_append (hne : closer ≠ opener) (hs : Balanced opener closer s) (depth : Nat)
    (t : List Char) : enclosed opener closer depth (s ++ t) =
      (enclosed opener closer depth t).map fun (inner, rest) => (s ++ inner, rest) := by
  induction hs generalizing depth t with
  | nil => simp
  | char ho hc _ ih =>
      rw [List.cons_append, enclosed_char _ _ ho hc, ih, Option.map_map]
      rfl
  | @group s u _ _ ihs ihu =>
      rw [List.cons_append, enclosed_opener, List.append_assoc, ihs, List.cons_append,
        enclosed_closer_succ _ _ hne, ihu]
      simp only [Option.map_map]
      congr 1
      funext p
      simp

/-- The text ends as many groups as stand open before it, and is balanced but for these closers. -/
def Closes (opener closer : Char) : Nat → List Char → Prop
  | 0, s => Balanced opener closer s
  | depth + 1, s => ∃ first behind, s = first ++ closer :: behind ∧
      Balanced opener closer first ∧ Closes opener closer depth behind

namespace Closes

variable {depth : Nat}

theorem char {c : Char} (ho : c ≠ opener) (hc : c ≠ closer) (h : Closes opener closer depth s) :
    Closes opener closer depth (c :: s) := by
  cases depth with
  | zero => exact .char ho hc h
  | succ depth =>
      obtain ⟨first, behind, rfl, hfirst, hbehind⟩ := h
      exact ⟨c :: first, behind, rfl, .char ho hc hfirst, hbehind⟩

/-- An opener in front takes the first closer for its partner. -/
theorem opener_cons (h : Closes opener closer (depth + 1) s) :
    Closes opener closer depth (opener :: s) := by
  obtain ⟨first, behind, rfl, hfirst, hbehind⟩ := h
  cases depth with
  | zero => exact .group hfirst hbehind
  | succ depth =>
      obtain ⟨second, behind, rfl, hsecond, hbehind⟩ := hbehind
      exact ⟨opener :: (first ++ closer :: second), behind, by simp, .group hfirst hsecond, hbehind⟩

theorem closer_cons (h : Closes opener closer depth s) :
    Closes opener closer (depth + 1) (closer :: s) :=
  ⟨[], s, rfl, .nil, h⟩

end Closes

theorem closes_of_enclosed {depth : Nat} {inner rest : List Char}
    (h : enclosed opener closer depth s = some (inner, rest)) :
    Closes opener closer depth inner := by
  induction s generalizing depth inner with
  | nil => cases h
  | cons c r ih =>
      simp only [enclosed] at h
      split at h
      · rename_i ho
        simp only [Option.map_eq_some_iff, Prod.mk.injEq, Prod.exists] at h
        obtain ⟨inner, rest, hr, rfl, rfl⟩ := h
        rw [ho]
        exact (ih hr).opener_cons
      · rename_i ho
        split at h
        · rename_i hc
          cases depth with
          | zero =>
              cases h
              exact .nil
          | succ depth =>
              simp only [Option.map_eq_some_iff, Prod.mk.injEq, Prod.exists] at h
              obtain ⟨inner, rest, hr, rfl, rfl⟩ := h
              rw [hc]
              exact (ih hr).closer_cons
        · rename_i hc
          simp only [Option.map_eq_some_iff, Prod.mk.injEq, Prod.exists] at h
          obtain ⟨inner, rest, hr, rfl, rfl⟩ := h
          exact (ih hr).char ho hc

/-- The partner of a bracket is the closer behind the balanced text that follows the bracket. -/
theorem enclosed_eq_some_iff (hne : closer ≠ opener) {inner rest : List Char} :
    enclosed opener closer 0 s = some (inner, rest) ↔
      s = inner ++ closer :: rest ∧ Balanced opener closer inner := by
  constructor
  · exact fun h => ⟨enclosed_eq_some h, closes_of_enclosed h⟩
  · rintro ⟨rfl, hinner⟩
    rw [enclosed_append hne hinner, enclosed_closer _ hne]
    simp

end Parentheses
end MiniScriptLayout
