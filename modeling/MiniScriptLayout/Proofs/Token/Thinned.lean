import MiniScriptLayout.Layout
import MiniScriptLayout.Proofs.Token.Dropping
import MiniScriptLayout.Proofs.Token.Exponent

/-!
Normalising a line only drops characters and puts spaces in. So it adds no line feed and no quote,
and the last character of a line stays where it is if all of its kind do.
-/

namespace MiniScriptLayout

namespace Text

/-- The text comes from another one by dropping characters and putting spaces in. -/
def Thinned (s t : List Char) : Prop :=
  (s.filter (· != ' ')).Sublist (t.filter (· != ' '))

namespace Thinned

variable {s t u s' t' : List Char}

theorem of_sublist (h : s.Sublist t) : Thinned s t :=
  h.filter _

theorem refl (s : List Char) : Thinned s s :=
  .of_sublist (.refl s)

theorem trans (h : Thinned s t) (k : Thinned t u) : Thinned s u :=
  List.Sublist.trans h k

theorem append (h : Thinned s t) (k : Thinned s' t') : Thinned (s ++ s') (t ++ t') := by
  rw [Thinned, List.filter_append, List.filter_append]
  exact List.Sublist.append h k

theorem append_left (h : Thinned s t) (x : List Char) : Thinned (x ++ s) (x ++ t) :=
  (refl x).append h

theorem cons (h : Thinned s t) (c : Char) : Thinned (c :: s) (c :: t) :=
  h.append_left [c]

theorem space (h : Thinned s t) : Thinned (' ' :: s) t := by
  simpa [Thinned] using h

theorem skip (h : Thinned s t) (x : List Char) : Thinned s (x ++ t) :=
  h.trans (.of_sublist (List.sublist_append_right x t))

theorem skip_cons (h : Thinned s t) (c : Char) : Thinned s (c :: t) :=
  h.skip [c]

theorem mem (h : Thinned s t) {c : Char} (hc : c ∈ s) : c ∈ t ∨ c = ' ' := by
  by_cases hspace : c = ' '
  · exact .inr hspace
  · have : c ∈ s.filter (· != ' ') := by simpa [hspace] using hc
    exact .inl (List.mem_of_mem_filter (h.subset this))

end Thinned

theorem thinned_trimLeft (s : List Char) : Thinned (trimLeft s) s :=
  .of_sublist (List.dropWhile_sublist _)

theorem thinned_trimRight (s : List Char) : Thinned (trimRight s) s :=
  .of_sublist (trimRight_sublist s)

end Text

open Text Spacing Parentheses

namespace Spacing

theorem thinned_collapse (s : List Char) : Thinned (collapse s) s := by
  suffices run : ∀ (inRun : Bool) (s : List Char), Thinned (collapseFrom inRun s) s from run false s
  intro inRun s
  induction s generalizing inRun with
  | nil => exact .refl []
  | cons c r ih =>
      simp only [collapseFrom]
      split
      · split
        · exact (ih true).skip_cons c
        · exact ((ih true).skip_cons c).space
      · exact (ih false).cons c

theorem sublist_dropBefore (p : Char → Bool) (s : List Char) : (dropBefore p s).Sublist s := by
  induction s with
  | nil => exact .refl []
  | cons c r ih =>
      simp only [dropBefore]
      split
      · exact ih.cons c
      · exact ih.cons_cons c

theorem sublist_dropAfter (p : Char → Bool) (s : List Char) : (dropAfter p s).Sublist s := by
  suffices run : ∀ (after : Bool) (s : List Char), (dropAfterFrom p after s).Sublist s from
    run false s
  intro after s
  induction s generalizing after with
  | nil => exact .refl []
  | cons c r ih =>
      simp only [dropAfterFrom]
      split
      · exact (ih after).cons c
      · exact (ih (p c)).cons_cons c

theorem thinned_spaceAfterClosers (s : List Char) : Thinned (spaceAfterClosers s) s := by
  induction s with
  | nil => exact .refl []
  | cons c r ih =>
      simp only [spaceAfterClosers]
      split
      · exact (((thinned_trimLeft _).trans ih).space).cons c
      · exact ih.cons c

theorem thinned_spaceCommas (s : List Char) : Thinned (spaceCommas s) s := by
  have spaced : ∀ t : List Char,
      Thinned (t.flatMap fun c => if isComma c then [c, ' '] else [c]) t := by
    intro t
    induction t with
    | nil => exact .refl []
    | cons c r ih =>
        rw [List.flatMap_cons]
        split
        · exact ih.space.cons c
        · exact ih.cons c
  exact (spaced _).trans (.of_sublist ((sublist_dropAfter _ _).trans (sublist_dropBefore _ s)))

theorem thinned_spaceBrackets (s : List Char) : Thinned (spaceBrackets s) s := by
  refine (thinned_spaceCommas _).trans ((thinned_spaceAfterClosers _).trans (.of_sublist ?_))
  exact (sublist_dropBefore _ _).trans ((sublist_dropAfter _ _).trans
    ((sublist_dropAfter _ _).trans (sublist_dropBefore _ s)))

theorem thinned_spaceOperators (s : List Char) : Thinned (spaceOperators s) s := by
  suffices run : ∀ (after : Bool) (s : List Char), Thinned (spaceOperatorsFrom after s) s from
    run false s
  intro after s
  fun_induction spaceOperatorsFrom after s with
  | case1 => exact .refl []
  | case2 after c r _ _ ih => exact ih.skip_cons c
  | case3 after c r _ _ ih => exact ih.cons c
  | case4 after c r _ op rest hop ih =>
      rw [(operator?_eq_some hop).1, List.cons_append]
      exact (ih.space.append_left op).space
  | case5 after c r _ _ ih => exact ih.cons c

theorem thinned_splitMinusPairs (s : List Char) : Thinned (splitMinusPairs s) s := by
  fun_induction splitMinusPairs s with
  | case1 => exact .refl []
  | case2 c => exact .refl [c]
  | case3 c d r hc ih =>
      rw [hc.1, hc.2]
      exact (ih.cons '-').space.cons '-'
  | case4 c d r _ ih => exact ih.cons c

theorem thinned_tightenUnary (s : List Char) : Thinned (tightenUnary s) s := by
  induction s with
  | nil => exact .refl []
  | cons c r ih =>
      simp only [tightenUnary]
      split
      · split
        · exact ih.skip_cons c
        · exact (ih.skip_cons c).space
      · exact ih.cons c

theorem thinned_spaceMinus (s : List Char) : Thinned (spaceMinus s) s := by
  suffices run : ∀ (after : Bool) (s : List Char), Thinned (spaceMinusFrom after s) s from
    run false s
  intro after s
  induction s generalizing after with
  | nil => exact .refl []
  | cons c r ih =>
      simp only [spaceMinusFrom]
      split
      · split
        · exact (ih after).skip_cons c
        · exact (ih false).cons c
      · split
        · exact ((ih true).space.cons c).space
        · exact (ih false).cons c

theorem thinned_spaceTightMinus (s : List Char) : Thinned (spaceTightMinus s) s := by
  suffices run : ∀ (operand : Bool) (s : List Char), Thinned (spaceTightMinusFrom operand s) s from
    run false s
  intro operand s
  induction s generalizing operand with
  | nil => exact .refl []
  | cons c r ih =>
      simp only [spaceTightMinusFrom]
      split
      · exact ((ih true).space.cons c).space
      · exact (ih _).cons c

theorem thinned_joinExponents (s : List Char) : Thinned (joinExponents s) s := by
  suffices run : ∀ (inName : Bool) (s : List Char), Thinned (joinExponentsFrom inName s) s from
    run false s
  intro inName s
  fun_induction joinExponentsFrom inName s with
  | case1 => exact .refl []
  | case2 c r ih => exact ih.cons c
  | case3 inName c r _ n rest hread ih =>
      obtain ⟨gap₁, gap₂, gap₃, hs, -, -⟩ := Scientific.read?_eq_some hread
      rw [hs]
      refine Thinned.append ?_ ih
      refine Thinned.append_left (.skip (.cons (.skip (.append_left ?_ _) gap₂) 'e') gap₁) _
      exact (Thinned.refl _).skip gap₃
  | case4 inName c r _ _ ih => exact ih.cons c

theorem thinned_dropTrailingCommas (s : List Char) : Thinned (dropTrailingCommas s) s := by
  fun_induction dropTrailingCommas s with
  | case1 => exact .refl []
  | case2 c => exact .refl [c]
  | case3 c d r _ _ ih => exact ih.cons c
  | case4 c d r _ e rest hr _ ih =>
      have : Thinned (e :: dropTrailingCommas rest) r := by
        refine (ih.cons e).trans ?_
        rw [← hr]
        exact thinned_trimLeft r
      exact (this.skip_cons d).cons c
  | case5 c d r _ e rest _ _ ih => exact ih.cons c
  | case6 c d r _ ih => exact ih.cons c

theorem thinned_dropEmptyParameters (s : List Char) : Thinned (dropEmptyParameters s) s := by
  suffices run : ∀ (inName : Bool) (s : List Char),
      Thinned (dropEmptyParametersFrom inName s) s from run false s
  intro inName s
  fun_induction dropEmptyParametersFrom inName s with
  | case1 => exact .refl []
  | case2 c r ih => exact ih.cons c
  | case3 inName c r _ rest hread ih =>
      obtain ⟨gap₁, gap₂, hs, -⟩ := emptyParameters?_eq_some hread
      rw [hs]
      exact Thinned.append_left (.skip (.skip_cons (.skip (ih.skip_cons ')') gap₂) '(') gap₁) _
  | case4 inName c r _ _ ih => exact ih.cons c

theorem thinned_normalize_collapse (s : List Char) : Thinned (normalize s) (collapse s) :=
  (thinned_dropEmptyParameters _).trans <| (thinned_dropTrailingCommas _).trans <|
    (thinned_joinExponents _).trans <| (thinned_spaceTightMinus _).trans <|
    (thinned_spaceMinus _).trans <| (thinned_tightenUnary _).trans <|
    (thinned_splitMinusPairs _).trans <| (thinned_spaceOperators _).trans <|
    thinned_spaceBrackets _

theorem thinned_normalize (s : List Char) : Thinned (normalize s) s :=
  (thinned_normalize_collapse s).trans (thinned_collapse s)

end Spacing

namespace Parentheses

theorem thinned_stripCall (s : List Char) : Thinned (stripCall s) s := by
  refine Thinned.trans ?_ (thinned_trimRight s)
  simp only [stripCall]
  split
  · rename_i r hr
    split
    · exact .refl _
    · rename_i arguments chain he
      split
      · have hs := List.reverse_eq_iff.1 hr
        rw [enclosed_eq_some he] at hs
        rw [hs]
        simp only [List.reverse_append, List.reverse_cons, List.append_assoc, List.cons_append,
          List.nil_append]
        refine Thinned.append_left (.space (.skip_cons ?_ '(')) _
        exact .of_sublist (List.sublist_append_left _ _)
      · exact .refl _
  · exact .refl _

theorem thinned_openCondition? {s r : List Char} (h : openCondition? s = some r) :
    Thinned r s := by
  refine Thinned.trans ?_ (thinned_trimLeft s)
  unfold openCondition? at h
  split at h
  · simp at h
  · rename_i c t ht
    split at h
    · split at h
      · simp at h
      · rename_i condition rest he
        split at h
        · simp only [Option.some.injEq] at h
          rw [ht, enclosed_eq_some he, ← h]
          exact ((((thinned_trimLeft rest).skip_cons ')').space).append_left condition).skip_cons c
        · simp at h
    · simp at h

theorem thinned_openConditions (s : List Char) : Thinned (openConditions s) s := by
  fun_induction openConditions s with
  | case1 s _ => exact .refl s
  | case2 s r h ih => exact ih.trans (thinned_openCondition? h)

theorem thinned_stripCondition (s : List Char) : Thinned (stripCondition s) s := by
  unfold stripCondition
  split
  · rename_i hif
    split
    · exact .refl s
    · rename_i r hr
      conv => arg 2; rw [eq_of_ifWord_starts hif]
      exact Thinned.append_left ((thinned_openConditions r).trans (thinned_openCondition? hr)).space
        ['i', 'f']
  · exact .refl s

end Parentheses

theorem CodeLine.thinned_normalize (continued : Bool) (line : CodeLine) :
    Thinned (line.normalize continued).code line.code := by
  simp only [CodeLine.normalize]
  refine (thinned_trimRight _).trans ((thinned_trimLeft _).trans
    ((thinned_stripCondition _).trans ?_))
  split
  · exact Spacing.thinned_normalize _
  · exact (thinned_stripCall _).trans (Spacing.thinned_normalize _)

end MiniScriptLayout
