import Mathlib.Data.List.Chain
import MiniScriptLayout.Proofs.Token.View

/-!
Characters that never meet. Whether a character of one class stands right before one of another
class can be read off the tokens of any view that glues both classes.
-/

namespace MiniScriptLayout
namespace Text

/-- No character of class `a` stands right before one of class `b`. -/
def Apart (a b : Char → Bool) (s : List Char) : Prop :=
  s.IsChain fun c d => a c = true → b d = false

theorem apart_cons {a b : Char → Bool} {c : Char} {r : List Char} :
    Apart a b (c :: r) ↔ (∀ d ∈ r.head?, a c = true → b d = false) ∧ Apart a b r :=
  List.isChain_cons

theorem Apart.mono {a b a' b' : Char → Bool} (ha : ∀ c, a' c = true → a c = true)
    (hb : ∀ c, b' c = true → b c = true) {s : List Char} (h : Apart a b s) : Apart a' b' s := by
  refine List.IsChain.imp ?_ h
  intro c d hcd hc
  cases hd : b' d with
  | false => rfl
  | true =>
      have := hcd (ha c hc)
      rw [hb d hd] at this
      contradiction

theorem ne_slash_of_isBlank {c : Char} (h : isBlank c = true) : c ≠ '/' := by
  rintro rfl
  simp [isBlank] at h

/-- No slash stands right before another one. -/
def SlashesApart (s : List Char) : Prop :=
  Apart (· = '/') (· = '/') s

namespace SlashesApart

variable {c d : Char} {s t : List Char}

theorem cons_of_ne (hc : c ≠ '/') (h : SlashesApart s) : SlashesApart (c :: s) := by
  rw [SlashesApart, apart_cons]
  exact ⟨fun _ _ hs => absurd (by simpa using hs) hc, h⟩

theorem slash_cons (hd : d ≠ '/') (h : SlashesApart (d :: s)) :
    SlashesApart ('/' :: d :: s) := by
  rw [SlashesApart, apart_cons]
  exact ⟨by simpa using hd, h⟩

theorem of_not_mem (h : '/' ∉ s) : SlashesApart s := by
  induction s with
  | nil => exact List.isChain_nil
  | cons c s ih =>
      rw [List.mem_cons, not_or] at h
      exact (ih h.2).cons_of_ne (Ne.symm h.1)

theorem tail (h : SlashesApart (c :: s)) : SlashesApart s :=
  (apart_cons.1 h).2

theorem not_pair (h : SlashesApart s) : ¬ ['/', '/'] <+: s := by
  rintro ⟨t, rfl⟩
  simpa using (apart_cons.1 h).1 '/' rfl

theorem left (h : SlashesApart (s ++ t)) : SlashesApart s :=
  List.IsChain.left_of_append h

theorem right (h : SlashesApart (s ++ t)) : SlashesApart t :=
  List.IsChain.right_of_append h

theorem append (hs : SlashesApart s) (ht : SlashesApart t)
    (hseam : s.getLast? ≠ some '/' ∨ t.head? ≠ some '/') : SlashesApart (s ++ t) := by
  refine List.IsChain.append hs ht ?_
  intro c hc d hd hslash
  simp only [decide_eq_true_eq, decide_eq_false_iff_not] at hslash ⊢
  rintro rfl
  subst hslash
  rcases hseam with h | h
  · exact h hc
  · exact h hd

/-- Another character keeps slashes apart. -/
theorem append_cons_iff (hc : c ≠ '/') :
    SlashesApart (s ++ c :: t) ↔ SlashesApart s ∧ SlashesApart t := by
  constructor
  · exact fun h => ⟨h.left, h.right.tail⟩
  · rintro ⟨hs, ht⟩
    exact hs.append (ht.cons_of_ne hc) (.inr (by simpa using hc))

end SlashesApart

end Text

namespace View

variable {v : View}

theorem apart_iff_tokens {a b : Char → Bool} (ha : ∀ c, a c = true → v.glued c = true)
    (hb : ∀ c, b c = true → v.glued c = true) (s : List Char) :
    Text.Apart a b s ↔ ∀ w ∈ v.tokens s, Text.Apart a b w := by
  induction s with
  | nil => simp [tokens, Text.Apart]
  | cons c r ih =>
      rw [Text.apart_cons, ih]
      cases hc : v.glued c with
      | false =>
          have hac : ¬ a c = true := fun h => by simp [ha c h] at hc
          have single : Text.Apart a b [c] := List.isChain_singleton c
          simp only [tokens, hc, Bool.false_eq_true, if_false]
          split <;> simp [hac, single]
      | true =>
          cases hr : v.continues r with
          | true =>
              obtain ⟨d, t, w, ws, rfl, hw⟩ := tokens_of_continues hr
              simp only [tokens, hc, hr, if_true] at hw ⊢
              rw [hw]
              simp only [Text.consPiece, List.mem_cons, forall_eq_or_imp, Text.apart_cons (c := c),
                List.head?_cons, Option.mem_some_iff]
              tauto
          | false =>
              have hd : ∀ d ∈ r.head?, a c = true → b d = false := by
                intro d hd _
                cases hbd : b d with
                | false => rfl
                | true =>
                    have : v.continues r = true := by
                      simp only [continues, Option.mem_def.1 hd]
                      exact hb d hbd
                    rw [hr] at this
                    contradiction
              have single : Text.Apart a b [c] := List.isChain_singleton c
              simp only [tokens, hc, hr, if_true, Bool.false_eq_true, if_false]
              simp only [List.mem_cons, forall_eq_or_imp]
              exact ⟨fun h => ⟨single, h.2⟩, fun h => ⟨hd, h.2⟩⟩

theorem apart_congr {a b : Char → Bool} (ha : ∀ c, a c = true → v.glued c = true)
    (hb : ∀ c, b c = true → v.glued c = true) {s t : List Char} (h : v.tokens s = v.tokens t) :
    Text.Apart a b s ↔ Text.Apart a b t := by
  rw [apart_iff_tokens ha hb s, h, ← apart_iff_tokens ha hb t]

end View
end MiniScriptLayout
