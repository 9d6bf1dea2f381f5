import MiniScriptLayout.Proofs.Preservation

/-!
Code of which nothing is left when it is normalised. Rules drop commas and parentheses only next to
something that stays, with one exception: a pair of parentheses that stands alone is stripped like
the parentheses of a call.
-/

namespace MiniScriptLayout

open Text

namespace Spacing

theorem isBlank_collapse (s : List Char) : ∀ c ∈ collapse s, isBlank c = true → c = ' ' := by
  suffices run : ∀ (inRun : Bool) (s : List Char),
      ∀ c ∈ collapseFrom inRun s, isBlank c = true → c = ' ' from run false s
  intro inRun s
  fun_induction collapseFrom inRun s with
  | case1 => simp
  | case2 c r _ ih => exact ih
  | case3 inRun c r _ _ ih => simpa using ih
  | case4 inRun c r hc ih => simpa [hc] using ih

/-- Of the blanks of a line only spaces stay. -/
theorem isBlank_normalize (s : List Char) {c : Char} (hc : c ∈ normalize s)
    (hb : isBlank c = true) : c = ' ' := by
  rcases (thinned_normalize_collapse s).mem hc with hmem | rfl
  · exact isBlank_collapse s c hmem hb
  · rfl

/-- A line of blanks, commas and parentheses changes in its blanks only. -/
theorem squeeze_normalize {s : List Char}
    (h : ∀ c ∈ Text.squeeze s, c = ',' ∨ c = '(' ∨ c = ')') :
    Text.squeeze (normalize s) = Text.squeeze s := by
  have hplain : (View.single fun _ => true).Plain := fun _ _ => rfl
  have hsqueeze : Text.squeeze (joinExponents (beforeExponents s)) = Text.squeeze s := by
    apply Row.squeeze_of_tokens
    rw [View.tokens_joinExponents rfl rfl fun he => absurd he (by decide),
      View.tokens_beforeExponents hplain]
  have hmem : ∀ c ∈ joinExponents (beforeExponents s),
      isBlank c = true ∨ c = ',' ∨ c = '(' ∨ c = ')' := by
    intro c hc
    cases hb : isBlank c with
    | true => exact .inl rfl
    | false =>
        refine .inr (h c ?_)
        rw [← hsqueeze]
        exact List.mem_filter.2 ⟨hc, by simp [hb]⟩
  have hcommas : dropTrailingCommas (joinExponents (beforeExponents s)) =
      joinExponents (beforeExponents s) := by
    refine dropTrailingCommas_eq_self fun c hc => ?_
    rcases hmem c hc with hb | rfl | rfl | rfl
    · cases hclose : closesItems c with
      | false => rfl
      | true =>
          simp only [closesItems, Bool.or_eq_true, decide_eq_true_eq] at hclose
          rcases hclose with rfl | rfl <;> simp [isBlank] at hb
    all_goals rfl
  have hparams : dropEmptyParameters (joinExponents (beforeExponents s)) =
      joinExponents (beforeExponents s) :=
    dropEmptyParameters_eq_self <| .inl fun hc => by
      simpa [isBlank] using hmem 'f' hc
  rw [normalize, ← beforeExponents, hcommas, hparams, hsqueeze]

end Spacing

theorem Text.exists_of_squeeze_eq_pair {c d : Char} {s : List Char} (htrim : trim s = s)
    (h : squeeze s = [c, d]) : ∃ gap, (∀ c ∈ gap, isBlank c = true) ∧ s = c :: (gap ++ [d]) := by
  cases s with
  | nil => cases h
  | cons a r =>
      have ha : isBlank a = false := head?_trim (a :: r) a (by rw [htrim]; rfl)
      have hr : a = c ∧ squeeze r = [d] := by simpa [squeeze, ha] using h
      rcases r.eq_nil_or_concat with rfl | ⟨gap, b, rfl⟩
      · cases hr.2
      · rw [List.concat_eq_append] at *
        have hb : isBlank b = false := by
          refine getLast?_trim (a :: (gap ++ [b])) b ?_
          rw [htrim]
          simp [List.getLast?_cons]
        have hgap : squeeze gap = [] ∧ b = d := by
          have := hr.2
          rw [squeeze_append] at this
          simpa [squeeze, hb, List.append_eq_singleton_iff] using this
        exact ⟨gap, squeeze_eq_nil.1 hgap.1, by rw [hr.1, hgap.2]⟩

theorem Spacing.collapse_gap {gap : List Char} (hgap : ∀ c ∈ gap, isBlank c = true) :
    collapse ('(' :: (gap ++ [')'])) = ['(', ')'] ∨
      collapse ('(' :: (gap ++ [')'])) = ['(', ' ', ')'] := by
  have hrun : ∀ gap : List Char, (∀ c ∈ gap, isBlank c = true) →
      collapseFrom true (gap ++ [')']) = [')'] := by
    intro gap hgap
    induction gap with
    | nil => rfl
    | cons c gap ih =>
        rw [List.forall_mem_cons] at hgap
        simpa [collapseFrom, hgap.1] using ih hgap.2
  have hopener : isBlank '(' = false := rfl
  cases gap with
  | nil => exact .inl rfl
  | cons c gap =>
      rw [List.forall_mem_cons] at hgap
      refine .inr ?_
      simp only [collapse, collapseFrom, List.cons_append, hopener, hgap.1, Bool.false_eq_true,
        if_false, if_true, hrun gap hgap.2]

namespace Parentheses

/-- Nothing is called by spaces alone. -/
theorem isReversedChain_space (r : List Char) : isReversedChain (' ' :: r) = false := by
  rw [isReversedChain]
  rfl

/-- Of a line whose blanks are spaces, stripping leaves nothing only if it is a pair of parentheses
without a name before it and without arguments. -/
theorem squeeze_of_stripCall {line : List Char} (hspace : ∀ c ∈ line, isBlank c = true → c = ' ')
    (h : ∀ c ∈ stripCall line, isBlank c = true) :
    Text.squeeze line = [] ∨ Text.squeeze line = ['(', ')'] := by
  obtain ⟨gap, hgap, hline⟩ := exists_trimRight_blanks line
  have hsqueeze : Text.squeeze line = Text.squeeze (trimRight line) := by
    conv => lhs; rw [hline]
    rw [Text.squeeze_append, Text.squeeze_blanks hgap, List.append_nil]
  rw [hsqueeze]
  simp only [stripCall] at h
  split at h
  · rename_i r hr
    split at h
    · exact .inl (Text.squeeze_eq_nil.2 h)
    · rename_i arguments chain he
      split at h
      · rename_i hchain
        have htrim := List.reverse_eq_iff.1 hr
        rw [enclosed_eq_some he] at htrim
        have hnil : chain = [] := by
          cases chain with
          | nil => rfl
          | cons c chain =>
              have hmem : c ∈ line := by
                rw [hline, htrim]
                simp
              rw [hspace c hmem (h c (by simp)), isReversedChain_space] at hchain
              cases hchain
        have harguments : Text.squeeze arguments.reverse = [] :=
          Text.squeeze_eq_nil.2 fun c hc => h c (by simp [List.mem_reverse.1 hc])
        refine .inr ?_
        have hpair : trimRight line = ['('] ++ arguments.reverse ++ [')'] := by
          rw [htrim, hnil]
          simp
        rw [hpair, Text.squeeze_append, Text.squeeze_append, harguments]
        rfl
      · exact .inl (Text.squeeze_eq_nil.2 h)
  · exact .inl (Text.squeeze_eq_nil.2 h)

theorem trim_stripCondition_eq_nil {s : List Char} :
    trim (stripCondition s) = [] ↔ trim s = [] := by
  unfold stripCondition
  split
  · rename_i hif
    split
    · rfl
    · have hnot : ∀ r : List Char, ¬ trim ('i' :: r) = [] := fun r h => by
        have := trim_eq_nil.1 h 'i' List.mem_cons_self
        cases this
      rw [eq_of_ifWord_starts hif]
      exact iff_of_false (hnot _) (hnot _)
  · rfl

end Parentheses

/-- Nothing is left of a line of code exactly if it is blank, or if it begins a statement and is a
pair of parentheses without anything in it. -/
theorem CodeLine.normalize_eq_nil_iff {line : CodeLine} (htrim : trim line.code = line.code)
    (continued : Bool) :
    (line.normalize continued).code = [] ↔
      line.code = [] ∨ continued = false ∧ Text.squeeze line.code = ['(', ')'] := by
  obtain ⟨code, comment⟩ := line
  have hempty : Text.squeeze code = [] → code = [] := fun h => by
    exact htrim.symm.trans (trim_eq_nil.2 (Text.squeeze_eq_nil.1 h))
  constructor
  · intro h
    have hstrokes : Text.strokes code = [] := by
      have htokens : View.strokes.tokens (CodeLine.normalize continued ⟨code, comment⟩).code =
          View.strokes.tokens code :=
        View.tokens_normalizeLine (.of_signs rfl) rfl rfl rfl continued
          fun he => absurd he (by decide)
      rw [h] at htokens
      exact (View.strokes_congr htokens).symm
    have hsqueeze : Text.squeeze (Spacing.normalize code) = Text.squeeze code := by
      refine Spacing.squeeze_normalize fun c hc => ?_
      obtain ⟨hc, hb⟩ := List.mem_filter.1 hc
      have := List.filter_eq_nil_iff.1 hstrokes c hc
      have hb : isBlank c = false := by simpa using hb
      simpa [hb, or_assoc, or_iff_not_imp_left] using this
    simp only [normalize] at h
    rw [Parentheses.trim_stripCondition_eq_nil, trim_eq_nil] at h
    cases continued with
    | true =>
        rw [if_pos rfl, ← Text.squeeze_eq_nil, hsqueeze] at h
        exact .inl (hempty h)
    | false =>
        rw [if_neg Bool.false_ne_true] at h
        have := Parentheses.squeeze_of_stripCall (fun c hc => Spacing.isBlank_normalize code hc) h
        rw [hsqueeze] at this
        exact this.imp hempty fun hpair => ⟨rfl, hpair⟩
  · rintro (rfl | ⟨rfl, hpair⟩)
    · cases continued <;> cbv
    · obtain ⟨gap, hgap, hcode⟩ := Text.exists_of_squeeze_eq_pair htrim hpair
      subst hcode
      have hcollapse := Spacing.collapse_gap hgap
      simp only [normalize, Spacing.normalize]
      rcases hcollapse with h | h <;> rw [h] <;> cbv

end MiniScriptLayout
