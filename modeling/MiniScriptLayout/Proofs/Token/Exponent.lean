import MiniScriptLayout.Proofs.Token.View
import MiniScriptLayout.Spacing.Exponent

/-!
Tokens and numbers in scientific notation. The rule for these numbers is the only one that may join
two words: it does so where blanks alone separate the digits, the letter `e` and the exponent.
-/

namespace MiniScriptLayout
namespace Spacing

/-- A stretch of a text that is a number in scientific notation with blanks where two of its words
meet: before the letter `e`, or behind it if there is no sign. -/
def SpacedNumber (stretch : List Char) : Prop :=
  ∃ mantissa gap₁ gap₂ sign gap₃ exponent : List Char,
    stretch = mantissa ++ (gap₁ ++ 'e' :: (gap₂ ++ (sign ++ (gap₃ ++ exponent)))) ∧
      (∀ c ∈ gap₁ ++ (gap₂ ++ gap₃), Text.isBlank c = true) ∧
      (gap₁ ≠ [] ∨ sign = [] ∧ gap₂ ++ gap₃ ≠ [])

namespace Scientific

/-- The stretches of a text that the rule for scientific notation reads as numbers. -/
def stretchesFrom (inName : Bool) (s : List Char) : List (List Char) :=
  match s with
  | [] => []
  | c :: r =>
    if inName then stretchesFrom (Lexical.isIdentifierChar c) r
    else
      match _h : read? (c :: r) with
      | some (_, rest) =>
        (c :: r).take ((c :: r).length - rest.length) :: stretchesFrom true rest
      | none => stretchesFrom (Lexical.isIdentifierChar c) r
termination_by s.length
decreasing_by
  · simp
  · exact length_read? _h
  · simp

def stretches (s : List Char) : List (List Char) :=
  stretchesFrom false s

theorem readMantissa?_eq_some {s m r : List Char} (h : readMantissa? s = some (m, r)) :
    s = m ++ r := by
  simp only [readMantissa?] at h
  split at h
  · simp at h
  · simp only [Option.some.injEq, Prod.mk.injEq] at h
    rw [← h.1, ← h.2]
    simp only [List.append_assoc, List.takeWhile_append_dropWhile, Text.cutOne_append]

theorem cutOne_sign (s : List Char) :
    (Text.cutOne (fun c => c = '+' || c = '-') s).1 = [] ∨
      ∃ c, (c = '+' ∨ c = '-') ∧ (Text.cutOne (fun c => c = '+' || c = '-') s).1 = [c] := by
  cases s with
  | nil => exact .inl rfl
  | cons c r =>
      simp only [Text.cutOne]
      split
      · rename_i h
        exact .inr ⟨c, by simpa using h, rfl⟩
      · exact .inl rfl

/-- A number is read with the blanks around its letter and sign. -/
theorem read?_eq_some {s r : List Char} {n : Scientific} (h : read? s = some (n, r)) :
    ∃ gap₁ gap₂ gap₃ : List Char,
      s = n.mantissa ++ (gap₁ ++ 'e' :: (gap₂ ++ (n.sign ++ (gap₃ ++ n.exponent)))) ++ r ∧
        (∀ c ∈ gap₁ ++ (gap₂ ++ gap₃), Text.isBlank c = true) ∧
        (n.sign = [] ∨ ∃ c, (c = '+' ∨ c = '-') ∧ n.sign = [c]) := by
  unfold read? at h
  split at h
  · simp at h
  · rename_i m rest hm
    split at h
    · simp at h
    · rename_i c t ht
      split at h
      · rename_i hc
        obtain ⟨gap₁, hb₁, hrest⟩ := Text.exists_blanks_trimLeft rest
        simp only [readExponent?] at h
        split at h
        · simp at h
        · simp only [Option.some.injEq, Prod.mk.injEq] at h
          obtain ⟨rfl, rfl⟩ := h
          obtain ⟨gap₂, hb₂, hgap₂⟩ := Text.exists_blanks_trimLeft t
          have hcut := Text.cutOne_append (fun c => c = '+' || c = '-') (Text.trimLeft t)
          have hsign := cutOne_sign (Text.trimLeft t)
          generalize Text.cutOne (fun c => c = '+' || c = '-') (Text.trimLeft t) = cut
            at hcut hsign ⊢
          obtain ⟨gap₃, hb₃, hgap₃⟩ := Text.exists_blanks_trimLeft cut.2
          refine ⟨gap₁, gap₂, gap₃, ?_, ?_, hsign⟩
          · rw [readMantissa?_eq_some hm]
            conv => lhs; rw [hrest, ht, hgap₂, ← hcut, hgap₃, hc]
            simp only [List.append_assoc, List.cons_append, List.takeWhile_append_dropWhile]
          · intro d hd
            simp only [List.mem_append] at hd
            rcases hd with hd | hd | hd
            · exact hb₁ d hd
            · exact hb₂ d hd
            · exact hb₃ d hd
      · simp at h

end Scientific
end Spacing

namespace View

open Spacing

variable {v : View}

/-- A number written without its gaps has the same tokens, unless a gap kept two words apart. -/
theorem Same.number {mantissa gap₁ gap₂ sign gap₃ exponent : List Char}
    (hp : v.glued '+' = false) (hm : v.glued '-' = false)
    (hb : ∀ c ∈ gap₁ ++ (gap₂ ++ gap₃), Text.isBlank c = true)
    (hs : sign = [] ∨ ∃ c, (c = '+' ∨ c = '-') ∧ sign = [c])
    (hg : v.glued 'e' = false ∨ gap₁ = [] ∧ (sign = [] → gap₂ ++ gap₃ = []))
    {t u : List Char} (h : v.Same t u) :
    v.Same (mantissa ++ 'e' :: (sign ++ exponent) ++ t)
      (mantissa ++ (gap₁ ++ 'e' :: (gap₂ ++ (sign ++ (gap₃ ++ exponent)))) ++ u) := by
  have hb₁ : ∀ c ∈ gap₁, Text.isBlank c = true := fun c hc => hb c (by simp [hc])
  have hb₂ : ∀ c ∈ gap₂, Text.isBlank c = true := fun c hc => hb c (by simp [hc])
  have hb₃ : ∀ c ∈ gap₃, Text.isBlank c = true := fun c hc => hb c (by simp [hc])
  simp only [List.append_assoc, List.cons_append]
  apply Same.append_left
  -- behind the letter only the tokens count, or there is no gap that matters
  have tail : v.Same (exponent ++ t) (exponent ++ u) := h.append_left exponent
  have behind : v.tokens (sign ++ (exponent ++ t)) =
      v.tokens (gap₂ ++ (sign ++ (gap₃ ++ (exponent ++ u)))) := by
    rw [tokens_blanks_append hb₂]
    rcases hs with rfl | ⟨c, hc, rfl⟩
    · simpa only [List.nil_append, tokens_blanks_append hb₃] using tail.1
    · have hc : v.glued c = false := by rcases hc with rfl | rfl <;> assumption
      exact tokens_cons_loose hc (tail.1.trans (tokens_blanks_append hb₃ _).symm)
  rcases hg with he | ⟨rfl, hgap⟩
  · refine Same.trans (Same.cons_loose he behind) ?_
    have := Same.blanks_append (v := v) hb₁
      (s := 'e' :: (gap₂ ++ (sign ++ (gap₃ ++ (exponent ++ u))))) he
    exact ⟨this.1.symm, this.2.symm⟩
  · apply Same.cons
    refine ⟨behind, ?_⟩
    rcases hs with rfl | ⟨c, hc, rfl⟩
    · have hgap := hgap rfl
      rw [List.append_eq_nil_iff] at hgap
      simpa only [hgap.1, hgap.2, List.nil_append] using tail.2
    · have hc : v.glued c = false := by rcases hc with rfl | rfl <;> assumption
      have hc : v.continues (c :: (gap₃ ++ (exponent ++ u))) = false := hc
      exact (Same.blanks_append hb₂ hc).2.symm

theorem same_joinExponentsFrom (hp : v.glued '+' = false) (hm : v.glued '-' = false)
    (inName : Bool) (s : List Char)
    (hj : v.glued 'e' = true → ∀ w ∈ Scientific.stretchesFrom inName s, ¬ SpacedNumber w) :
    v.Same (joinExponentsFrom inName s) s := by
  fun_induction joinExponentsFrom inName s with
  | case1 => exact .refl []
  | case2 c r ih =>
      apply (ih _).cons c
      intro he w hw
      exact hj he w (by simpa [Scientific.stretchesFrom] using hw)
  | case3 inName c r hn n rest hread ih =>
      have hn : inName = false := by simpa using hn
      have hcut : Scientific.stretchesFrom inName (c :: r) =
          (c :: r).take ((c :: r).length - rest.length) :: Scientific.stretchesFrom true rest := by
        rw [Scientific.stretchesFrom]
        simp only [hn, Bool.false_eq_true, if_false]
        split <;> simp_all
      obtain ⟨gap₁, gap₂, gap₃, hs, hb, hsign⟩ := Scientific.read?_eq_some hread
      have ih := ih fun he w hw => hj he w (by rw [hcut]; exact List.mem_cons_of_mem _ hw)
      rw [hs]
      refine Same.number hp hm hb hsign ?_ ih
      cases he : v.glued 'e' with
      | false => exact .inl rfl
      | true =>
          right
          have hw := hj he _ (by rw [hcut]; exact List.mem_cons_self)
          rw [hs, List.length_append, Nat.add_sub_cancel, List.take_left] at hw
          constructor
          · by_contra hne
            exact hw ⟨_, _, _, _, _, _, rfl, hb, .inl hne⟩
          · intro hempty
            by_contra hne
            exact hw ⟨_, _, _, _, _, _, rfl, hb, .inr ⟨hempty, hne⟩⟩
  | case4 inName c r hn hread ih =>
      have hn : inName = false := by simpa using hn
      apply (ih _).cons c
      intro he w hw
      apply hj he w
      rw [Scientific.stretchesFrom]
      simp only [hn, Bool.false_eq_true, if_false]
      split <;> simp_all

theorem tokens_joinExponents (hp : v.glued '+' = false) (hm : v.glued '-' = false)
    {s : List Char} (hj : v.glued 'e' = true → ∀ w ∈ Scientific.stretches s, ¬ SpacedNumber w) :
    v.tokens (joinExponents s) = v.tokens s :=
  (same_joinExponentsFrom hp hm false s hj).1

end View
end MiniScriptLayout
