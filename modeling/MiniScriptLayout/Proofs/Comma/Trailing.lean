import MiniScriptLayout.Proofs.Comma.Sign

/-!
The trailing commas of a normalised line. The rules for blanks, dots, brackets and commas add and
drop blanks only where nothing depends on them, so that the reading of a line finds the same before
and after them. This gives the lines in which a trailing comma survives.
-/

namespace MiniScriptLayout

open Text

namespace Spacing

/-- Behind the rule for dots. -/
def Pending.behindDots : Pending := ⟨true, true, false⟩

/-- Before all these rules. -/
def Pending.all : Pending := ⟨true, true, true⟩

section Blanks

variable {p : Pending}

/-- What stands left of a text counts only for a minus sign at its start. -/
theorem signed_finds_eq {c : Char} (hb : isBlank c = false) (hc : c ≠ '-') (l l' : Left)
    (r : List Char) : (signed p).finds l (c :: r) = (signed p).finds l' (c :: r) := by
  refine Reading.finds_cons_congr rfl (fun _ _ => ?_) ?_
  · simp [signed, hc]
  · have hnext : Left.next p l c = Left.next p l' c := by simp [Left.next, hb, hc]
    exact congrArg (fun l => (signed p).finds l r) hnext

theorem signed_finds_trimLeft {s : List Char} {c : Char} {r : List Char} (hs : trimLeft s = c :: r)
    (hc : c ≠ '-') (l l' : Left) : (signed p).finds l (trimLeft s) = (signed p).finds l' s := by
  induction s generalizing l' with
  | nil => cases hs
  | cons d s ih =>
      cases hd : isBlank d with
      | true =>
          have htrim : trimLeft (d :: s) = trimLeft s := by simp [trimLeft, hd]
          rw [htrim] at hs ⊢
          rw [(signed p).finds_blank l' hd]
          exact ih hs _
      | false =>
          have htrim : trimLeft (d :: s) = d :: s := trimLeft_eq_self (by simpa using hd)
          rw [htrim] at hs ⊢
          cases hs
          exact signed_finds_eq hd hc l l' _

/-- While the rule for commas is to come, only the order of the other characters counts. -/
theorem signed_cons_congr (hp : p.commas = true) (l : Left) (c : Char) {s t : List Char}
    (hsqueeze : squeeze s = squeeze t)
    (h : (signed p).finds (Left.next p l c) s = (signed p).finds (Left.next p l c) t) :
    (signed p).finds l (c :: s) = (signed p).finds l (c :: t) :=
  Reading.finds_cons_congr hsqueeze (fun _ _ => by simp [signed, hp]) h

theorem squeeze_dropBefore (q : Char → Bool) (s : List Char) :
    squeeze (dropBefore q s) = squeeze s :=
  Row.squeeze_of_tokens (View.same_dropBefore (fun _ _ => rfl) s).1

theorem squeeze_dropAfterFrom (q : Char → Bool) (after : Bool) (s : List Char) :
    squeeze (dropAfterFrom q after s) = squeeze s :=
  Row.squeeze_of_tokens (View.same_dropAfterFrom (fun _ _ => rfl) after s).1

theorem finds_dropBefore (hp : p.commas = true) {q : Char → Bool}
    (hq : ∀ c, q c = true → isBlank c = false ∧ c ≠ '-') (l : Left) (s : List Char) :
    (signed p).finds l (dropBefore q s) = (signed p).finds l s := by
  induction s generalizing l with
  | nil => rfl
  | cons c r ih =>
      simp only [dropBefore]
      split
      · rename_i h
        rw [Bool.and_eq_true, Option.any_eq_true] at h
        obtain ⟨hc, d, hd, hqd⟩ := h
        obtain ⟨t, ht⟩ := List.head?_eq_some_iff.1 hd
        rw [(signed p).finds_blank l hc, ← ih, ht]
        exact signed_finds_eq (hq d hqd).1 (hq d hqd).2 l _ t
      · exact signed_cons_congr hp l c (squeeze_dropBefore q r) (ih _)

theorem finds_dropAfterFrom (hp : p.commas = true) {q : Char → Bool}
    (hq : ∀ l c, q c = true → Left.next p l c = .apart) (after : Bool) (l : Left)
    (hafter : after = true → l = .apart) (s : List Char) :
    (signed p).finds l (dropAfterFrom q after s) = (signed p).finds l s := by
  induction s generalizing after l with
  | nil => rfl
  | cons c r ih =>
      rw [dropAfterFrom]
      split
      · rename_i h
        rw [Bool.and_eq_true] at h
        have hnext : Left.next p l c = l := by simp [hafter h.1, Left.next, h.2]
        rw [(signed p).finds_blank l h.2, ih after l hafter]
        exact congrArg (fun l => (signed p).finds l r) hnext.symm
      · exact signed_cons_congr hp l c (squeeze_dropAfterFrom q _ r) (ih _ _ (hq l c))

theorem squeeze_spaceAfterClosers (s : List Char) : squeeze (spaceAfterClosers s) = squeeze s :=
  Row.squeeze_of_tokens (View.tokens_spaceAfterClosers (fun _ _ => rfl) s)

theorem head?_trimLeft_eq (s : List Char) : (trimLeft s).head? = (squeeze s)[0]? := by
  rw [← squeeze_trimLeft]
  cases hs : trimLeft s with
  | nil => rfl
  | cons c r =>
      have hc : isBlank c = false := head?_trimLeft s c (by rw [hs]; rfl)
      rw [squeeze_cons hc]
      rfl

theorem finds_spaceAfterClosers (hp : p.commas = true) (l : Left) (s : List Char) :
    (signed p).finds l (spaceAfterClosers s) = (signed p).finds l s := by
  induction s generalizing l with
  | nil => rfl
  | cons c r ih =>
      simp only [spaceAfterClosers]
      split
      · rename_i h
        rw [Bool.and_eq_true, Option.any_eq_true] at h
        obtain ⟨-, d, hd, hapart⟩ := h
        rw [head?_trimLeft_eq, ← squeeze_spaceAfterClosers, ← head?_trimLeft_eq] at hd
        obtain ⟨t, ht⟩ := List.head?_eq_some_iff.1 hd
        have hminus : d ≠ '-' := by
          rintro rfl
          cases hapart
        refine signed_cons_congr hp l c ?_ ?_
        · rw [squeeze_cons_blank rfl, squeeze_trimLeft, squeeze_spaceAfterClosers]
        · rw [(signed p).finds_blank _ rfl, ← ih]
          exact signed_finds_trimLeft ht hminus _ _
      · exact signed_cons_congr hp l c (squeeze_spaceAfterClosers r) (ih _)

theorem squeeze_collapseFrom (inRun : Bool) (s : List Char) :
    squeeze (collapseFrom inRun s) = squeeze s :=
  Row.squeeze_of_tokens (View.same_collapseFrom inRun s).1

theorem next_space_next (p : Pending) (l : Left) :
    Left.next p (Left.next p l ' ') ' ' = Left.next p l ' ' := by
  obtain ⟨operators, commas, dots⟩ := p
  cases dots <;> cases l <;> rfl

theorem finds_collapseFrom (hp : p.commas = true) (inRun : Bool) (l : Left)
    (hrun : inRun = true → Left.next p l ' ' = l) (s : List Char) :
    (signed p).finds l (collapseFrom inRun s) = (signed p).finds l s := by
  induction s generalizing inRun l with
  | nil => rfl
  | cons c r ih =>
      rw [collapseFrom]
      split
      · rename_i hc
        have hnext : Left.next p l c = Left.next p l ' ' := by
          have hspace : isBlank ' ' = true := rfl
          rw [Left.next, Left.next, if_pos hc, if_pos hspace]
        have hright : (signed p).finds l (c :: r) = (signed p).finds (Left.next p l ' ') r := by
          rw [(signed p).finds_blank l hc, ← hnext]
          rfl
        rw [hright]
        split
        · rename_i hin
          rw [ih true l fun _ => hrun hin, hrun hin]
        · rw [(signed p).finds_blank l rfl]
          exact ih true _ fun _ => next_space_next p l
      · exact signed_cons_congr hp l c (squeeze_collapseFrom false r) (ih _ _ fun h => by cases h)

end Blanks

section Commas

theorem apart_dropBefore (q : Char → Bool) (s : List Char) :
    Text.Apart isBlank q (dropBefore q s) := by
  induction s with
  | nil => exact List.isChain_nil
  | cons c r ih =>
      simp only [dropBefore]
      split
      · exact ih
      · rename_i h
        refine Text.apart_cons.2 ⟨fun d hd hc => ?_, ih⟩
        rw [hc, Bool.true_and, hd] at h
        simpa using h

theorem apart_dropAfterFrom {q : Char → Bool} (hq : ∀ c, isBlank c = true → q c = false)
    (after : Bool) {s : List Char} (hs : Text.Apart isBlank q s) :
    Text.Apart isBlank q (dropAfterFrom q after s) := by
  induction s generalizing after with
  | nil => exact List.isChain_nil
  | cons c r ih =>
      rw [Text.apart_cons] at hs
      rw [dropAfterFrom]
      split
      · exact ih after hs.2
      · refine Text.apart_cons.2 ⟨fun d hd hc => hs.1 d ?_ hc, ih _ hs.2⟩
        rw [hq c hc] at hd
        cases r <;> exact hd

/-- Where no blank comes right before a comma, the comma that ends the items comes at once. -/
theorem exists_comma_of_apart {s : List Char} (hs : Text.Apart isBlank isComma s)
    (h : endsItems s = true) : ∃ r, s = ',' :: r := by
  induction s with
  | nil => cases h
  | cons c r ih =>
      obtain ⟨d, t, heq, hd⟩ := exists_of_endsItems h
      obtain ⟨rfl, rfl⟩ := List.cons_eq_cons.1 heq
      rcases hd with hd | rfl
      · rw [Text.apart_cons] at hs
        rw [endsItems_blank hd] at h
        obtain ⟨t, rfl⟩ := ih hs.2 h
        cases hs.1 ',' rfl hd
      · exact ⟨r, rfl⟩

theorem squeeze_spaceBehindCommas (s : List Char) :
    squeeze (s.flatMap fun c => if isComma c then [c, ' '] else [c]) = squeeze s := by
  induction s with
  | nil => rfl
  | cons c r ih =>
      rw [List.flatMap_cons, squeeze_append, ih]
      conv => rhs; rw [← List.singleton_append, squeeze_append]
      split
      · have hspace : isBlank ' ' = true := rfl
        simp [squeeze, List.filter_cons, hspace]
      · rfl

theorem finds_spaceBehindCommas {s : List Char} (hs : Text.Apart isBlank isComma s) (l : Left) :
    (signed .behindCommas).finds l (s.flatMap fun c => if isComma c then [c, ' '] else [c]) =
      (signed .behindDots).finds l s := by
  induction s generalizing l with
  | nil => rfl
  | cons c r ih =>
      rw [Text.apart_cons] at hs
      rw [List.flatMap_cons]
      split
      · rename_i hc
        obtain rfl : c = ',' := of_decide_eq_true hc
        have hright : (signed .behindDots).finds l (',' :: r) =
            (signed .behindDots).finds .apart r :=
          (signed .behindDots).finds_of_not_isItem l rfl r
        rw [hright, ← ih hs.2, List.cons_append, (signed .behindCommas).finds_of_not_isItem l rfl,
          List.cons_append, signed_finds_blank rfl rfl, List.nil_append]
      · rename_i hc
        refine Reading.finds_cons_congr (squeeze_spaceBehindCommas r) (fun _ hr => ?_) ?_
        · obtain ⟨t, rfl⟩ := exists_comma_of_apart hs.2 hr
          rfl
        · rw [Bool.not_eq_true] at hc
          have hnext : Left.next .behindCommas l c = Left.next .behindDots l c := by
            simp [Left.next, Pending.parts, Pending.behindCommas, Pending.behindDots, hc]
          refine (ih hs.2 _).trans ?_
          exact congrArg (fun l => (signed .behindDots).finds l r) hnext

theorem finds_spaceCommas (l : Left) (s : List Char) :
    (signed .behindCommas).finds l (spaceCommas s) = (signed .behindDots).finds l s := by
  have hcomma : ∀ c, isComma c = true → c = ',' := fun c hc => of_decide_eq_true hc
  have happart := apart_dropAfterFrom (fun _ => isComma_of_isBlank) false
    (apart_dropBefore isComma s)
  rw [spaceCommas, dropAfter, finds_spaceBehindCommas happart,
    finds_dropAfterFrom rfl (fun l c hc => ?_) false l (fun h => by cases h),
    finds_dropBefore rfl (fun c hc => ?_)]
  · rw [hcomma c hc]
    exact ⟨rfl, by decide⟩
  · rw [hcomma c hc]
    rfl

end Commas

section Dots

/-- What stands left once the blanks behind dots are dropped. -/
def Left.closed (l : Left) : Left :=
  if l = .dot then .operand else l

theorem next_closed {l : Left} {c : Char} (h : ¬ (l = .dot ∧ isBlank c = true)) :
    Left.next .behindDots l.closed c = (Left.next .all l c).closed ∧
      isDot c = decide (Left.next .all l c = .dot) := by
  have hdots : Pending.all.dots = true ∧ Pending.behindDots.dots = false := ⟨rfl, rfl⟩
  have hparts : Pending.behindDots.parts c = Pending.all.parts c := rfl
  cases hb : isBlank c with
  | true =>
      have hl : l ≠ .dot := fun hl => h ⟨hl, hb⟩
      have hdot : isDot c = false := decide_eq_false fun hc => by rw [hc] at hb; cases hb
      simp [Left.next, hb, hdots, hl, hdot, Left.closed]
  | false =>
      by_cases hminus : c = '-'
      · subst hminus
        cases l <;> simp [Left.next, hb, Left.closed, isDot]
      · cases hdot : isDot c with
        | true =>
            obtain rfl : c = '.' := of_decide_eq_true hdot
            exact ⟨rfl, rfl⟩
        | false =>
            cases hp : Pending.all.parts c <;>
              simp [Left.next, hb, hminus, hdots, hdot, hparts, hp, Left.closed]

theorem finds_dropAfterDots (l : Left) (s : List Char) :
    (signed .behindDots).finds l.closed (dropAfterFrom isDot (l = .dot) s) =
      (signed .all).finds l s := by
  induction s generalizing l with
  | nil => rfl
  | cons c r ih =>
      rw [dropAfterFrom]
      split
      · rename_i h
        rw [Bool.and_eq_true, decide_eq_true_eq] at h
        obtain ⟨rfl, hc⟩ := h
        have hnext : Left.next .all .dot c = .dot := by simp [Left.next, hc, Pending.all]
        rw [(signed .all).finds_blank .dot hc, ih .dot]
        exact congrArg (fun l => (signed .all).finds l r) hnext.symm
      · rename_i h
        rw [Bool.and_eq_true, decide_eq_true_eq] at h
        obtain ⟨hnext, hdot⟩ := next_closed h
        refine Reading.finds_cons_congr (squeeze_dropAfterFrom _ _ r) (fun _ _ => ?_) ?_
        · cases l <;> rfl
        · have ih := ih (Left.next .all l c)
          rw [← hnext, ← hdot] at ih
          exact ih

theorem finds_tightenDots (s : List Char) :
    (signed .behindDots).finds .apart (tightenDots s) = (signed .all).finds .apart s := by
  rw [tightenDots]
  refine (finds_dropAfterDots .apart _).trans (finds_dropBefore rfl (fun c hc => ?_) .apart s)
  obtain rfl : c = '.' := of_decide_eq_true hc
  exact ⟨rfl, by decide⟩

end Dots

theorem finds_spaceBrackets (s : List Char) :
    (signed .behindCommas).finds .apart (spaceBrackets s) = (signed .all).finds .apart s := by
  have hclosers : ∀ c, Lexical.isCloser c = true → isBlank c = false ∧ c ≠ '-' := by
    intro c hc
    simp only [Lexical.isCloser, Bool.or_eq_true, decide_eq_true_eq] at hc
    rcases hc with (rfl | rfl) | rfl <;> exact ⟨rfl, by decide⟩
  have hopeners : ∀ l c, Lexical.isOpener c = true → Left.next .behindDots l c = .apart := by
    intro l c hc
    simp only [Lexical.isOpener, Bool.or_eq_true, decide_eq_true_eq] at hc
    rcases hc with (rfl | rfl) | rfl <;> rfl
  rw [spaceBrackets, finds_spaceCommas, finds_spaceAfterClosers rfl, tightenClosers,
    finds_dropBefore rfl hclosers, tightenOpeners, dropAfter,
    finds_dropAfterFrom rfl hopeners false .apart fun _ => rfl, finds_tightenDots]

theorem finds_collapse (s : List Char) :
    (signed .all).finds .apart (collapse s) = (signed .all).finds .apart s :=
  finds_collapseFrom rfl false .apart (fun h => by cases h) s

/-- A trailing comma survives exactly if the line has two with only the bracket between them, or one
behind an operator, or one behind a minus sign that stands as if between two operands. -/
theorem hasTrailingComma_normalize_iff (s : List Char) :
    HasTrailingComma (normalize s) ↔
      ∃ before item r, s = before ++ item :: r ∧ isItem item = true ∧
        (endsItemsTwice r = true ∨
          endsItems r = true ∧ (isOperator item = true ∨
            item = '-' ∧ (before.foldl (Left.next .all) .apart).joins = true)) := by
  rw [← finds_anyComma, normalize, dropEmptyParameters, finds_dropEmptyParameters,
    finds_dropTrailingCommas, joinExponents, finds_joinExponents, finds_spaceMinuses,
    finds_spaceOperators, finds_spaceBrackets, finds_collapse, Reading.finds_iff]
  refine exists_congr fun before => exists_congr fun item => exists_congr fun r => ?_
  refine and_congr_right fun _ => and_congr_right fun _ => or_congr_right ?_
  refine and_congr_right fun _ => ?_
  simp [signed, Pending.all, and_comm]

/-- Of two trailing commas with a bracket between them, the second one stays. -/
theorem normalize_nested_commas : HasTrailingComma (normalize "a = [1, [2,],]".toList) := by
  have hresult : normalize "a = [1, [2,],]".toList = "a = [1, [2], ]".toList := by cbv
  rw [hresult]
  exact ⟨"a = [1, [2".toList, ']', ", ]".toList, by decide, by decide, by decide⟩

end Spacing
end MiniScriptLayout
