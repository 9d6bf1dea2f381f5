import MiniScriptLayout.Proofs.Token.Line

/-!
Slashes of a normalised line. The rule for operators puts a space or an equals sign behind every
slash, and no later rule brings two slashes together, so the code of a line never holds `//`.
-/

namespace MiniScriptLayout

open Spacing Parentheses

namespace View

/-- The runs of slashes. -/
def slashes : View where
  glued c := c = '/'
  kept _ := false
  glued_blank := by
    intro c hc
    rw [decide_eq_false_iff_not]
    rintro rfl
    simp [Text.isBlank] at hc
  kept_blank _ _ := rfl

theorem slashesApart_congr {s t : List Char} (h : slashes.tokens s = slashes.tokens t) :
    Text.SlashesApart s ↔ Text.SlashesApart t :=
  apart_congr (fun _ h => h) (fun _ h => h) h

end View

namespace Spacing

theorem slashesApart_spaceOperators (s : List Char) : Text.SlashesApart (spaceOperators s) := by
  suffices run : ∀ (after : Bool) (s : List Char),
      Text.SlashesApart (spaceOperatorsFrom after s) from run false s
  intro after s
  fun_induction spaceOperatorsFrom after s with
  | case1 => exact List.isChain_nil
  | case2 after c r _ _ ih => exact ih
  | case3 after c r hc _ ih => exact ih.cons_of_ne (Text.ne_slash_of_isBlank hc)
  | case4 after c r _ op rest hop ih =>
      rw [List.cons_append]
      apply Text.SlashesApart.cons_of_ne (by decide)
      have behind : Text.SlashesApart (' ' :: spaceOperatorsFrom true rest) :=
        ih.cons_of_ne (by decide)
      have sign : ∀ (c : Char) {d : Char} {t : List Char}, d ≠ '/' →
          Text.SlashesApart (d :: t) → Text.SlashesApart (c :: d :: t) := by
        intro c d t hd h
        by_cases hc : c = '/'
        · rw [hc]
          exact h.slash_cons hd
        · exact h.cons_of_ne hc
      obtain ⟨-, d, -, rfl | rfl⟩ := operator?_eq_some hop
      · exact sign d (by decide) behind
      · exact sign d (by decide) (sign '=' (by decide) behind)
  | case5 after c r _ hop ih =>
      apply ih.cons_of_ne
      rintro rfl
      simpa [isOperator] using isOperator_of_operator?_eq_none hop

theorem slashesApart_normalize (s : List Char) : Text.SlashesApart (normalize s) := by
  have hn : View.slashes.glued 'n' = true → Text.Apart (· = ')') View.slashes.glued
      (dropTrailingCommas (joinExponents (beforeExponents s))) := by simp [View.slashes]
  have tokens_eq : View.slashes.tokens (normalize s) =
      View.slashes.tokens (spaceOperators (spaceBrackets (collapse s))) := by
    have hclose : ∀ c, closesItems c = true → View.slashes.glued c = false := by
      intro c hc
      simp only [closesItems, Bool.or_eq_true, decide_eq_true_eq] at hc
      rcases hc with rfl | rfl <;> rfl
    change View.slashes.tokens (dropEmptyParameters
      (dropTrailingCommas (joinExponents (beforeExponents s)))) = _
    rw [View.tokens_dropEmptyParameters rfl rfl hn, View.tokens_dropTrailingCommas rfl hclose,
      View.tokens_joinExponents rfl rfl (by simp [View.slashes]), beforeExponents, spaceMinuses,
      View.tokens_spaceTightMinus rfl, View.tokens_spaceMinus rfl, View.tokens_tightenUnary rfl,
      View.tokens_splitMinusPairs rfl]
  rw [View.slashesApart_congr tokens_eq]
  exact slashesApart_spaceOperators _

end Spacing

/-- The code of a normalised line opens no comment. -/
theorem CodeLine.slashesApart_normalize (continued : Bool) (line : CodeLine) :
    Text.SlashesApart (line.normalize continued).code := by
  simp only [CodeLine.normalize]
  rw [View.slashesApart_congr (View.tokens_trim _),
    View.slashesApart_congr (View.tokens_stripCondition rfl rfl _)]
  split
  · exact Spacing.slashesApart_normalize _
  · rw [View.slashesApart_congr (View.tokens_stripCall rfl rfl _)]
    exact Spacing.slashesApart_normalize _

end MiniScriptLayout
