import MiniScriptLayout.Proofs.Token.View
import MiniScriptLayout.Spacing.Normal

/-!
The spacing rules keep the tokens of a line: each of them only adds or drops blanks beside the
characters it is about. A rule that carries a state along the line keeps the tokens in every state,
and what the text before it sees in the state of the start.
-/

namespace MiniScriptLayout
namespace Spacing

theorem takesEquals_of_isOperator {c : Char} (h : isOperator c = true) : takesEquals c = true := by
  simp [takesEquals, h]

/-- An operator is one sign, or a sign with an equals sign behind it. -/
theorem operator?_eq_some {s op r : List Char} (h : operator? s = some (op, r)) :
    s = op ++ r ∧ ∃ c, takesEquals c = true ∧ (op = [c] ∨ op = [c, '=']) := by
  unfold operator? at h
  split at h
  · simp at h
  · rename_i c
    split at h
    · rename_i hc
      simp only [Option.some.injEq, Prod.mk.injEq] at h
      obtain ⟨rfl, rfl⟩ := h
      exact ⟨rfl, c, takesEquals_of_isOperator hc, .inl rfl⟩
    · simp at h
  · rename_i c d t
    split at h
    · rename_i hc
      simp only [Bool.and_eq_true, decide_eq_true_eq] at hc
      simp only [Option.some.injEq, Prod.mk.injEq] at h
      obtain ⟨rfl, rfl⟩ := h
      exact ⟨rfl, c, hc.1, .inr (by rw [hc.2])⟩
    · split at h
      · rename_i hc
        simp only [Option.some.injEq, Prod.mk.injEq] at h
        obtain ⟨rfl, rfl⟩ := h
        exact ⟨rfl, c, takesEquals_of_isOperator hc, .inl rfl⟩
      · simp at h

theorem isOperator_of_operator?_eq_none {c : Char} {r : List Char}
    (h : operator? (c :: r) = none) : isOperator c = false := by
  cases hc : isOperator c with
  | false => rfl
  | true =>
      unfold operator? at h
      split at h
      · rename_i heq
        cases heq
      · rename_i heq
        cases heq
        simp [hc] at h
      · rename_i heq
        cases heq
        split at h
        · simp at h
        · simp at h

end Spacing

namespace View

open Spacing

variable {v : View}

theorem same_collapseFrom (inRun : Bool) (s : List Char) :
    v.tokens (collapseFrom inRun s) = v.tokens s ∧
      (inRun = false → v.continues (collapseFrom inRun s) = v.continues s) := by
  induction s generalizing inRun with
  | nil => exact ⟨rfl, fun _ => rfl⟩
  | cons c r ih =>
      simp only [collapseFrom]
      split
      · rename_i hc
        rw [tokens_blank hc, continues_blank hc]
        cases inRun
        · exact ⟨(tokens_blank rfl _).trans (ih true).1, fun _ => continues_blank rfl _⟩
        · exact ⟨(ih true).1, nofun⟩
      · exact ⟨(Same.cons ⟨(ih false).1, (ih false).2 rfl⟩ c).1, fun _ => rfl⟩

theorem tokens_collapse (s : List Char) : v.tokens (collapse s) = v.tokens s :=
  (same_collapseFrom false s).1

section Classes

variable {p : Char → Bool} (hp : ∀ c, p c = true → v.glued c = false)
include hp

theorem same_dropBefore (s : List Char) : v.Same (dropBefore p s) s := by
  induction s with
  | nil => exact .refl []
  | cons c r ih =>
      simp only [dropBefore]
      split
      · rename_i h
        rw [Bool.and_eq_true] at h
        obtain ⟨hc, hr⟩ := h
        have hcont : v.continues (dropBefore p r) = false := by
          cases hd : dropBefore p r with
          | nil => rfl
          | cons d t =>
              rw [hd] at hr
              exact hp d hr
        refine ⟨ih.1.trans (tokens_blank hc r).symm, ?_⟩
        rw [hcont, continues_blank hc]
      · exact ih.cons c

theorem same_dropAfterFrom (after : Bool) (s : List Char) :
    v.tokens (dropAfterFrom p after s) = v.tokens s ∧
      (after = false → v.continues (dropAfterFrom p after s) = v.continues s) := by
  induction s generalizing after with
  | nil => exact ⟨rfl, fun _ => rfl⟩
  | cons c r ih =>
      simp only [dropAfterFrom]
      split
      · rename_i h
        rw [Bool.and_eq_true] at h
        refine ⟨(ih after).1.trans (tokens_blank h.2 r).symm, ?_⟩
        simp [h.1]
      · refine ⟨?_, fun _ => rfl⟩
        cases hc : p c with
        | false => exact (Same.cons ⟨(ih false).1, (ih false).2 rfl⟩ c).1
        | true => exact tokens_cons_loose (hp c hc) (ih true).1

theorem same_dropAfter (s : List Char) : v.Same (dropAfter p s) s :=
  ⟨(same_dropAfterFrom hp false s).1, (same_dropAfterFrom hp false s).2 rfl⟩

end Classes

theorem tokens_tightenDots (h : v.glued '.' = false) (s : List Char) :
    v.tokens (tightenDots s) = v.tokens s := by
  have hp : ∀ c, isDot c = true → v.glued c = false := by
    intro c hc
    simp only [isDot, decide_eq_true_eq] at hc
    rw [hc, h]
  exact ((same_dropAfter hp _).trans (same_dropBefore hp s)).1

theorem tokens_tightenOpeners (h : ∀ c, Lexical.isOpener c = true → v.glued c = false)
    (s : List Char) : v.tokens (tightenOpeners s) = v.tokens s :=
  (same_dropAfter h s).1

theorem tokens_tightenClosers (h : ∀ c, Lexical.isCloser c = true → v.glued c = false)
    (s : List Char) : v.tokens (tightenClosers s) = v.tokens s :=
  (same_dropBefore h s).1

theorem tokens_spaceAfterClosers (h : ∀ c, Lexical.isCloser c = true → v.glued c = false)
    (s : List Char) : v.tokens (spaceAfterClosers s) = v.tokens s := by
  suffices hs : v.Same (spaceAfterClosers s) s from hs.1
  induction s with
  | nil => exact .refl []
  | cons c r ih =>
      simp only [spaceAfterClosers]
      split
      · rename_i hc
        rw [Bool.and_eq_true] at hc
        apply Same.cons_loose (h c hc.1)
        rw [tokens_blank rfl, tokens_trimLeft, ih.1]
      · exact ih.cons c

theorem tokens_spaceCommas (h : v.glued ',' = false) (s : List Char) :
    v.tokens (spaceCommas s) = v.tokens s := by
  have hp : ∀ c, isComma c = true → v.glued c = false := by
    intro c hc
    simp only [isComma, decide_eq_true_eq] at hc
    rw [hc, h]
  have spaced : ∀ t : List Char,
      v.Same (t.flatMap fun c => if isComma c then [c, ' '] else [c]) t := by
    intro t
    induction t with
    | nil => exact .refl []
    | cons c r ih =>
        rw [List.flatMap_cons]
        split
        · rename_i hc
          apply Same.cons_loose (hp c hc)
          exact (tokens_blank rfl _).trans ih.1
        · exact ih.cons c
  exact ((spaced _).trans ((same_dropAfter hp _).trans (same_dropBefore hp s))).1

theorem same_spaceOperatorsFrom (h : ∀ c, takesEquals c = true → v.glued c = false) (after : Bool)
    (s : List Char) :
    v.tokens (spaceOperatorsFrom after s) = v.tokens s ∧
      (after = false → v.continues (spaceOperatorsFrom after s) = v.continues s) := by
  have stops : ∀ {r : List Char}, (operator? r).isSome = true → v.continues r = false := by
    intro r hr
    obtain ⟨⟨op, rest⟩, hop⟩ := Option.isSome_iff_exists.1 hr
    obtain ⟨rfl, c, hc, rfl | rfl⟩ := operator?_eq_some hop <;> exact h c hc
  fun_induction spaceOperatorsFrom after s with
  | case1 => exact ⟨rfl, fun _ => rfl⟩
  | case2 after c r hc hop ih =>
      refine ⟨ih.1.trans (tokens_blank hc r).symm, ?_⟩
      intro ha
      rw [ih.2 ha, continues_blank hc]
      simp only [ha, Bool.false_or] at hop
      exact continues_of_trimLeft (stops hop)
  | case3 after c r hc _ ih => exact ⟨(Same.cons ⟨ih.1, ih.2 rfl⟩ c).1, fun _ => rfl⟩
  | case4 after c r hc op rest hop ih =>
      have hr : v.continues (c :: r) = false := stops (by rw [hop]; rfl)
      obtain ⟨hs, d, hd, hshape⟩ := operator?_eq_some hop
      have hne : op ≠ [] := by rcases hshape with rfl | rfl <;> simp
      have hall : ∀ e ∈ op, v.glued e = false := by
        intro e he
        rcases hshape with rfl | rfl <;>
          simp only [List.mem_cons, List.not_mem_nil, or_false] at he
        · rw [he, h d hd]
        · rcases he with rfl | rfl
          · exact h e hd
          · exact h '=' rfl
      refine ⟨?_, fun _ => (continues_blank rfl _).trans hr.symm⟩
      rw [List.cons_append, tokens_blank rfl, hs]
      exact (Same.append_loose hne hall ((tokens_blank rfl _).trans ih.1)).1
  | case5 after c r hc _ ih => exact ⟨(Same.cons ⟨ih.1, ih.2 rfl⟩ c).1, fun _ => rfl⟩

theorem tokens_spaceOperators (h : ∀ c, takesEquals c = true → v.glued c = false)
    (s : List Char) : v.tokens (spaceOperators s) = v.tokens s :=
  (same_spaceOperatorsFrom h false s).1

section Minus

variable (h : v.glued '-' = false)
include h

theorem tokens_splitMinusPairs (s : List Char) : v.tokens (splitMinusPairs s) = v.tokens s := by
  suffices hs : v.Same (splitMinusPairs s) s from hs.1
  fun_induction splitMinusPairs s with
  | case1 => exact .refl []
  | case2 c => exact .refl [c]
  | case3 c d r hc ih =>
      obtain ⟨rfl, rfl⟩ := hc
      apply Same.cons_loose h
      rw [tokens_blank rfl]
      exact (Same.cons_loose h ih.1).1
  | case4 c d r _ ih => exact ih.cons c

theorem continues_of_startsUnary {s : List Char} (hs : startsUnary s = true) :
    v.continues s = false := by
  unfold startsUnary at hs
  split at hs
  · simp only [Bool.and_eq_true, decide_eq_true_eq] at hs
    rw [continues_cons, hs.1, h]
  · simp at hs

theorem continues_of_startsBinary {s : List Char} (hs : startsBinary s = true) :
    v.continues s = false := by
  unfold startsBinary at hs
  split at hs
  · simp only [decide_eq_true_eq] at hs
    rw [continues_cons, hs, h]
  · simp only [Bool.and_eq_true, decide_eq_true_eq] at hs
    rw [continues_cons, hs.1, h]
  · simp at hs

theorem tokens_tightenUnary (s : List Char) : v.tokens (tightenUnary s) = v.tokens s := by
  suffices hs : v.Same (tightenUnary s) s from hs.1
  induction s with
  | nil => exact .refl []
  | cons c r ih =>
      simp only [tightenUnary]
      split
      · rename_i hc
        rw [Bool.and_eq_true] at hc
        have hr : v.continues r = false := continues_of_trimLeft (continues_of_startsUnary h hc.2)
        have hd : v.Same (c :: r) r := Same.insert_blank hc.1 hr
        split
        · exact ih.trans ⟨hd.1.symm, hd.2.symm⟩
        · refine Same.trans (Same.insert_blank rfl ?_) (ih.trans ⟨hd.1.symm, hd.2.symm⟩)
          rw [ih.2, hr]
      · exact ih.cons c

theorem same_spaceMinusFrom (after : Bool) (s : List Char) :
    v.tokens (spaceMinusFrom after s) = v.tokens s ∧
      (after = false → v.continues (spaceMinusFrom after s) = v.continues s) := by
  induction s generalizing after with
  | nil => exact ⟨rfl, fun _ => rfl⟩
  | cons c r ih =>
      simp only [spaceMinusFrom]
      split
      · rename_i hc
        split
        · rename_i hb
          refine ⟨(ih after).1.trans (tokens_blank hc r).symm, ?_⟩
          intro ha
          rw [(ih after).2 ha, continues_blank hc]
          simp only [ha, Bool.false_or] at hb
          exact continues_of_trimLeft (continues_of_startsBinary h hb)
        · exact ⟨(Same.cons ⟨(ih false).1, (ih false).2 rfl⟩ c).1, fun _ => rfl⟩
      · split
        · rename_i hb
          have hr := continues_of_startsBinary h hb
          refine ⟨?_, fun _ => (continues_blank rfl _).trans hr.symm⟩
          rw [tokens_blank rfl]
          exact tokens_cons_loose hr ((tokens_blank rfl _).trans (ih true).1)
        · exact ⟨(Same.cons ⟨(ih false).1, (ih false).2 rfl⟩ c).1, fun _ => rfl⟩

theorem tokens_spaceMinus (s : List Char) : v.tokens (spaceMinus s) = v.tokens s :=
  (same_spaceMinusFrom h false s).1

theorem same_spaceTightMinusFrom (operand : Bool) (s : List Char) :
    v.Same (spaceTightMinusFrom operand s) s := by
  induction s generalizing operand with
  | nil => exact .refl []
  | cons c r ih =>
      simp only [spaceTightMinusFrom]
      split
      · rename_i hu
        rw [Bool.and_eq_true] at hu
        have hr := continues_of_startsUnary h hu.2
        refine ⟨?_, (continues_blank rfl _).trans hr.symm⟩
        rw [tokens_blank rfl]
        exact tokens_cons_loose hr ((tokens_blank rfl _).trans (ih true).1)
      · exact (ih _).cons c

theorem tokens_spaceTightMinus (s : List Char) : v.tokens (spaceTightMinus s) = v.tokens s :=
  (same_spaceTightMinusFrom h false s).1

end Minus

end View
end MiniScriptLayout
