import Mathlib.Data.List.Forall2
import MiniScriptLayout.Proofs.Text.Lines
import MiniScriptLayout.Proofs.Text.Trim

/-!
Lines at the ends of a text. Trimming a text of trimmed lines changes nothing, unless a blank line
stands at an end, which is then lost.
-/

namespace MiniScriptLayout
namespace Text

/-- Of several items neither the first nor the last is `blank`. -/
def NoneAtEnds {α : Type} (blank : α) (items : List α) : Prop :=
  1 < items.length → items.head? ≠ some blank ∧ items.getLast? ≠ some blank

instance {α : Type} [DecidableEq α] (blank : α) (items : List α) :
    Decidable (NoneAtEnds blank items) :=
  inferInstanceAs (Decidable (_ → _))

theorem noneAtEnds_congr {α β : Type} {a : α} {b : β} {xs : List α} {ys : List β}
    (h : List.Forall₂ (fun x y => x = a ↔ y = b) xs ys) : NoneAtEnds a xs ↔ NoneAtEnds b ys := by
  have hhead : ∀ {xs : List α} {ys : List β},
      List.Forall₂ (fun x y => x = a ↔ y = b) xs ys →
      (xs.head? = some a ↔ ys.head? = some b) := by
    intro xs ys h
    cases h with
    | nil => simp
    | cons hx _ => simpa using hx
  have hlast := hhead (List.forall₂_reverse_iff.2 h)
  rw [List.head?_reverse, List.head?_reverse] at hlast
  rw [NoneAtEnds, NoneAtEnds, h.length_eq, ne_eq, ne_eq, hhead h, hlast]

variable {ls : List (List Char)}

theorem length_lines (s : List Char) : (lines s).length = s.count '\n' + 1 := by
  have hcons : ∀ (c : Char) (ps : List (List Char)), ps ≠ [] →
      (consPiece c ps).length = ps.length := by
    intro c ps hne
    cases ps with
    | nil => exact absurd rfl hne
    | cons p ps => rfl
  induction s with
  | nil => rfl
  | cons c r ih =>
      rw [lines] at ih ⊢
      by_cases hc : c = '\n'
      · simp [split, hc, ih]
      · rw [split, if_neg hc, hcons c (split '\n' r) (lines_ne_nil r), ih, List.count_cons_of_ne hc]

/-- A text that keeps its line feeds when it is trimmed has none at its ends. -/
theorem count_trim {s : List Char} (h : (trim s).count '\n' = s.count '\n') :
    s.head? ≠ some '\n' ∧ s.getLast? ≠ some '\n' := by
  obtain ⟨before, after, -, -, hs⟩ := exists_gaps_trim s
  have hcount := congrArg (List.count '\n') hs
  simp only [List.count_append] at hcount
  have hbefore : '\n' ∉ before := by
    rw [← List.count_eq_zero]
    omega
  have hafter : '\n' ∉ after := by
    rw [← List.count_eq_zero]
    omega
  have hnot : ∀ o : Option Char, (∀ c ∈ o, isBlank c = false) → o ≠ some '\n' := by
    rintro o ho rfl
    exact absurd (ho '\n' rfl) (by decide)
  constructor
  · rw [hs]
    simp only [List.head?_append, ne_eq, Option.or_eq_some_iff, not_or, not_and]
    exact ⟨⟨fun h => hbefore (List.mem_of_head? h), fun _ => hnot _ (head?_trim s)⟩,
      fun _ h => hafter (List.mem_of_head? h)⟩
  · rw [hs]
    simp only [List.getLast?_append, ne_eq, Option.or_eq_some_iff, not_or, not_and]
    exact ⟨fun h => hafter (List.mem_of_getLast? h), fun _ => ⟨hnot _ (getLast?_trim s),
      fun _ h => hbefore (List.mem_of_getLast? h)⟩⟩

/-- No line feed stands at an end of lines exactly if none of several lines is blank there. -/
theorem feeds_unlines (hline : ∀ l ∈ ls, '\n' ∉ l) :
    ((unlines ls).head? ≠ some '\n' ∧ (unlines ls).getLast? ≠ some '\n') ↔
      NoneAtEnds [] ls := by
  unfold NoneAtEnds
  have hhead : ∀ l ∈ ls, l.head? ≠ some '\n' := fun l hl h => hline l hl (List.mem_of_head? h)
  have hlast : ∀ l ∈ ls, l.getLast? ≠ some '\n' := fun l hl h => hline l hl (List.mem_of_getLast? h)
  rcases ls with _ | ⟨l, _ | ⟨m, ls⟩⟩
  · simp [unlines, join]
  · simpa [unlines, join] using ⟨hhead l (by simp), hlast l (by simp)⟩
  · have hends : (unlines (l :: m :: ls)).head? ≠ some '\n' ↔ l ≠ [] := by
      rw [unlines_cons l (List.cons_ne_nil m ls)]
      cases l with
      | nil => simp
      | cons c l => simpa using hhead (c :: l) (by simp)
    obtain ⟨init, k, hk⟩ : ∃ init k, m :: ls = init ++ [k] :=
      ⟨_, _, (List.dropLast_append_getLast (List.cons_ne_nil m ls)).symm⟩
    have hback : (unlines (l :: m :: ls)).getLast? ≠ some '\n' ↔ k ≠ [] := by
      have hmem : k ∈ l :: m :: ls := by simp [hk]
      rw [hk, ← List.cons_append, unlines_append (by simp) (by simp), List.getLast?_append]
      cases hlk : k.getLast? with
      | none => simp [unlines, join, List.getLast?_eq_none_iff.1 hlk]
      | some c =>
          have hc := hlast k hmem
          rw [hlk] at hc
          have hne : k ≠ [] := by
            rintro rfl
            cases hlk
          simpa [unlines, join, List.getLast?_cons, hlk, hne] using hc
    have hlist : (l :: m :: ls).getLast? = some k := by
      rw [hk, ← List.cons_append, List.getLast?_concat]
    rw [hends, hback, hlist]
    simp

theorem head?_unlines {c : Char} (h : c ∈ (unlines ls).head?) :
    c = '\n' ∨ ∃ l ∈ ls.head?, c ∈ l.head? := by
  rcases ls with _ | ⟨l, _ | ⟨m, ls⟩⟩
  · simp [unlines, join] at h
  · exact .inr ⟨l, rfl, h⟩
  · rw [unlines_cons l (List.cons_ne_nil m ls)] at h
    cases l with
    | nil => exact .inl (by simpa using h.symm)
    | cons d l => exact .inr ⟨d :: l, rfl, by simpa using h⟩

theorem getLast?_unlines {c : Char} (h : c ∈ (unlines ls).getLast?) :
    c = '\n' ∨ ∃ l ∈ ls, c ∈ l.getLast? := by
  induction ls with
  | nil => simp [unlines, join] at h
  | cons l ls ih =>
      cases ls with
      | nil => exact .inr ⟨l, by simp, h⟩
      | cons m ls =>
          rw [unlines_cons l (List.cons_ne_nil m ls), List.getLast?_append, List.getLast?_cons] at h
          cases hlast : (unlines (m :: ls)).getLast? with
          | none => exact .inl (by simpa [hlast] using h.symm)
          | some d =>
              have hd : c = d := by simpa [hlast] using h.symm
              rw [hlast] at ih
              refine (ih (congrArg some hd.symm)).imp_right fun hmem => ?_
              obtain ⟨k, hk, hc⟩ := hmem
              exact ⟨k, List.mem_cons_of_mem l hk, hc⟩

/-- Lines whose blanks stand between other characters, but for the indentations of all lines behind
the first. -/
structure Trimmed (ls : List (List Char)) : Prop where
  line : ∀ l ∈ ls, '\n' ∉ l
  first : ∀ l ∈ ls.head?, ∀ c ∈ l.head?, isBlank c = false
  last : ∀ l ∈ ls, ∀ c ∈ l.getLast?, isBlank c = false

/-- Trimmed lines are a trimmed text, unless a blank line stands at an end of them. -/
theorem Trimmed.trim_unlines (h : Trimmed ls) (hends : NoneAtEnds [] ls) :
    trim (unlines ls) = unlines ls := by
  rw [← feeds_unlines h.line] at hends
  refine trim_eq_self (fun c hc => ?_) fun c hc => ?_
  · rcases head?_unlines hc with rfl | ⟨l, hl, hcl⟩
    · exact absurd hc hends.1
    · exact h.first l hl c hcl
  · rcases getLast?_unlines hc with rfl | ⟨l, hl, hcl⟩
    · exact absurd hc hends.2
    · exact h.last l hl c hcl

/-- Trimmed lines are a trimmed text exactly if no blank line stands at an end of them. -/
theorem Trimmed.trim_unlines_iff (h : Trimmed ls) :
    trim (unlines ls) = unlines ls ↔ NoneAtEnds [] ls := by
  refine ⟨fun htrim => ?_, h.trim_unlines⟩
  rw [← feeds_unlines h.line]
  exact count_trim (by rw [htrim])

/-- A blank line at an end is lost when the text is trimmed. -/
theorem noneAtEnds_of_length_lines_trim (hne : ls ≠ []) (hline : ∀ l ∈ ls, '\n' ∉ l)
    (h : (lines (trim (unlines ls))).length = ls.length) :
    NoneAtEnds [] ls := by
  rw [← feeds_unlines hline]
  apply count_trim
  have hcount := length_lines (unlines ls)
  rw [lines_unlines hne hline] at hcount
  rw [length_lines] at h
  omega

end Text
end MiniScriptLayout
