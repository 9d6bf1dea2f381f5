import MiniScriptLayout.Proofs.Minus.Shape
import MiniScriptLayout.Proofs.Token.Line

/-!
Minus signs of a normalised line. The rules behind those for minus signs join numbers and drop
commas and parentheses. A sign that gets into a number is the sign of its exponent; every other one
keeps its shape, since what is dropped stands before a closing bracket or ends in one, and no sign
has its shape from a bracket that closes.
-/

namespace MiniScriptLayout
namespace Spacing

open Text

namespace Scientific

/-- The numbers that the rule for scientific notation reads. -/
def numbersFrom (inName : Bool) (s : List Char) : List Scientific :=
  match s with
  | [] => []
  | c :: r =>
    if inName then numbersFrom (Lexical.isIdentifierChar c) r
    else
      match _h : read? (c :: r) with
      | some (n, rest) => n :: numbersFrom true rest
      | none => numbersFrom (Lexical.isIdentifierChar c) r
termination_by s.length
decreasing_by
  · simp
  · exact length_read? _h
  · simp

def numbers (s : List Char) : List Scientific :=
  numbersFrom false s

section Reading

variable {c : Char} {r rest : List Char}

theorem numbersFrom_of_read? {n : Scientific} (h : read? (c :: r) = some (n, rest)) :
    numbersFrom false (c :: r) = n :: numbersFrom true rest := by
  rw [numbersFrom, if_neg Bool.false_ne_true]
  split <;> simp_all

theorem numbersFrom_of_none (h : read? (c :: r) = none) :
    numbersFrom false (c :: r) = numbersFrom (Lexical.isIdentifierChar c) r := by
  rw [numbersFrom, if_neg Bool.false_ne_true]
  split <;> simp_all

end Reading

/-- The parts of the number are what its rule reads there. -/
structure IsNumber (n : Scientific) : Prop where
  mantissa : ∀ c ∈ n.mantissa, isAsciiDigit c = true ∨ c = '.'
  sign : n.sign = [] ∨ ∃ c, (c = '+' ∨ c = '-') ∧ n.sign = [c]
  exponent : ∀ c ∈ n.exponent, isAsciiDigit c = true
  exponent_ne_nil : n.exponent ≠ []

variable {s r rest m : List Char} {c : Char} {n : Scientific}

theorem readMantissa?_chars (h : readMantissa? s = some (m, r)) :
    ∀ c ∈ m, isAsciiDigit c = true ∨ c = '.' := by
  simp only [readMantissa?] at h
  split at h
  · cases h
  · simp only [Option.some.injEq, Prod.mk.injEq] at h
    intro c hc
    rw [← h.1] at hc
    simp only [List.mem_append] at hc
    rcases hc with ((hc | hc) | hc) | hc
    · exact .inr (of_decide_eq_true (of_mem_cutOne hc))
    · exact .inl (List.mem_takeWhile_imp hc)
    · exact .inr (of_decide_eq_true (of_mem_cutOne hc))
    · exact .inl (List.mem_takeWhile_imp hc)

theorem isNumber_of_read? (h : read? s = some (n, r)) : n.IsNumber := by
  obtain ⟨-, -, -, -, -, hsign⟩ := read?_eq_some h
  unfold read? at h
  split at h
  · cases h
  · rename_i m rest hm
    split at h
    · cases h
    · split at h
      · simp only [readExponent?] at h
        split at h
        · cases h
        · rename_i hexponent
          simp only [Option.some.injEq, Prod.mk.injEq] at h
          obtain ⟨rfl, -⟩ := h
          exact {
            mantissa := readMantissa?_chars hm
            sign := hsign
            exponent := fun c hc => List.mem_takeWhile_imp hc
            exponent_ne_nil := by simpa using hexponent }
      · cases h

theorem isNumber_of_mem_numbersFrom {inName : Bool} (h : n ∈ numbersFrom inName s) :
    n.IsNumber := by
  fun_induction numbersFrom inName s with
  | case1 => cases h
  | case2 c r ih => exact ih h
  | case3 inName c r _ m rest hread ih =>
      rcases List.mem_cons.1 h with rfl | h
      · exact isNumber_of_read? hread
      · exact ih h
  | case4 inName c r _ _ ih => exact ih h

namespace IsNumber

variable (h : n.IsNumber)
include h

theorem mem_mantissa {c : Char} (hc : c ∈ n.mantissa ++ ['e']) :
    (isAsciiDigit c = true ∨ c = '.') ∨ c = 'e' :=
  (List.mem_append.1 hc).imp (h.mantissa c) List.mem_singleton.1

theorem minus_notMem_mantissa : '-' ∉ n.mantissa ++ ['e'] :=
  fun hc => absurd (h.mem_mantissa hc) (by decide)

theorem minus_notMem_exponent : '-' ∉ n.exponent :=
  fun hc => absurd (h.exponent _ hc) (by decide)

theorem minus_notMem_sign (hsign : n.sign ≠ ['-']) : '-' ∉ n.sign := by
  intro hc
  rcases h.sign with hnil | ⟨c, -, hone⟩
  · rw [hnil] at hc
    cases hc
  · rw [hone, List.mem_singleton] at hc
    exact hsign (by rw [hone, hc])

end IsNumber

end Scientific

/-- A minus sign here is the sign of the exponent of a number that the rule for scientific notation
reads in the line. Before that rule no sign comes right behind a letter. -/
def SignsExponent (line before after : List Char) : Prop :=
  ∃ n ∈ Scientific.numbers line, n.sign = ['-'] ∧ n.mantissa ++ ['e'] <:+ before ∧
    n.exponent <+: after

def Placed (line before after : List Char) : Prop :=
  Shaped before after ∨ SignsExponent line before after

variable {line before before' after after' s : List Char}

section Exponents

open Scientific

theorem atEach_number {n : Scientific} (hn : n ∈ numbers line) {t : List Char}
    (h : AtEach '-' (Placed line) (before ++ n.text) t) :
    AtEach '-' (Placed line) before (n.text ++ t) := by
  have hnumber := isNumber_of_mem_numbersFrom hn
  have htext : n.text = (n.mantissa ++ ['e']) ++ (n.sign ++ n.exponent) := by
    rw [text, List.append_assoc, List.singleton_append]
  by_cases hsign : n.sign = ['-']
  · rw [htext, hsign, List.append_assoc, atEach_append hnumber.minus_notMem_mantissa,
      List.append_assoc, List.singleton_append, atEach_cons,
      atEach_append hnumber.minus_notMem_exponent]
    refine ⟨fun _ => .inr ⟨n, hn, hsign, List.suffix_append _ _, List.prefix_append _ _⟩, ?_⟩
    rw [htext, hsign] at h
    simpa only [List.append_assoc] using h
  · have hplain : '-' ∉ n.text := by
      rw [htext, List.mem_append, List.mem_append (s := n.sign)]
      exact not_or_intro hnumber.minus_notMem_mantissa
        (not_or_intro (hnumber.minus_notMem_sign hsign) hnumber.minus_notMem_exponent)
    exact (atEach_append hplain).2 h

/-- A character that is kept, with the rest of the line behind it. -/
theorem atEach_cons_joinExponentsFrom {inName : Bool} {c : Char} {r : List Char}
    (h : AtEach '-' Shaped before (c :: r)) (hlast : before'.getLast? = before.getLast?)
    (hrest : AtEach '-' (Placed line) (before' ++ [c]) (joinExponentsFrom inName r)) :
    AtEach '-' (Placed line) before' (c :: joinExponentsFrom inName r) := by
  refine atEach_cons.2 ⟨fun hc => .inl ?_, hrest⟩
  exact ((atEach_cons.1 h).1 hc).congr hlast (head?_joinExponents inName r)

theorem atEach_joinExponentsFrom (inName : Bool) (hnumbers : numbersFrom inName s ⊆ numbers line)
    (h : AtEach '-' Shaped before s) (hlast : before'.getLast? = before.getLast?) :
    AtEach '-' (Placed line) before' (joinExponentsFrom inName s) := by
  have hconcat (before before' : List Char) (c : Char) :
      (before' ++ [c]).getLast? = (before ++ [c]).getLast? := by
    rw [List.getLast?_concat, List.getLast?_concat]
  fun_induction joinExponentsFrom inName s generalizing before before' with
  | case1 => exact atEach_nil
  | case2 c r ih =>
      rw [numbersFrom, if_pos rfl] at hnumbers
      exact atEach_cons_joinExponentsFrom h hlast
        (ih hnumbers (atEach_cons.1 h).2 (hconcat before before' c))
  | case3 inName c r hn n rest hread ih =>
      rw [Bool.not_eq_true] at hn
      rw [hn, numbersFrom_of_read? hread, List.cons_subset] at hnumbers
      obtain ⟨gap₁, gap₂, gap₃, hs, -, -⟩ := read?_eq_some hread
      rw [hs] at h
      refine atEach_number hnumbers.1 (ih hnumbers.2 h.right ?_)
      have hends (x : List Char) : (x ++ n.exponent).getLast? = n.exponent.getLast? :=
        List.getLast?_append_of_ne_nil x (isNumber_of_read? hread).exponent_ne_nil
      have hleft : before' ++ n.text =
          (before' ++ n.mantissa ++ ['e'] ++ n.sign) ++ n.exponent := by simp [text]
      have hright :
          before ++ (n.mantissa ++ (gap₁ ++ 'e' :: (gap₂ ++ (n.sign ++ (gap₃ ++ n.exponent))))) =
            (before ++ n.mantissa ++ gap₁ ++ ['e'] ++ gap₂ ++ n.sign ++ gap₃) ++ n.exponent := by
        simp
      rw [hleft, hright, hends, hends]
  | case4 inName c r hn hread ih =>
      rw [Bool.not_eq_true] at hn
      rw [hn, numbersFrom_of_none hread] at hnumbers
      exact atEach_cons_joinExponentsFrom h hlast
        (ih hnumbers (atEach_cons.1 h).2 (hconcat before before' c))

end Exponents

section Sides

theorem closer_cases {c : Char} (hc : Lexical.isCloser c = true) :
    c = ')' ∨ c = ']' ∨ c = '\x7d' := by
  simpa [Lexical.isCloser, or_assoc] using hc

/-- A sign has its shape from no closing bracket. -/
theorem Shaped.isCloser_eq_false {c : Char} (h : Shaped (before ++ [c]) after) :
    Lexical.isCloser c = false := by
  have hleft : isBlank c = true ∨ Lexical.isOpener c = true ∨ c = ':' := by
    rcases h with hunary | hbinary
    · exact hunary.1 c List.getLast?_concat
    · rw [Binary, List.getLast?_concat] at hbinary
      exact .inl (by rw [Option.some.inj hbinary.1]; rfl)
  rw [← Bool.not_eq_true]
  intro hcloser
  rcases closer_cases hcloser with rfl | rfl | rfl <;> revert hleft <;> decide

theorem Scientific.IsNumber.isCloser_eq_false {n : Scientific} (h : n.IsNumber) :
    ∀ c ∈ n.mantissa ++ ['e'], Lexical.isCloser c = false := by
  intro c hc
  have hchar := h.mem_mantissa hc
  rw [← Bool.not_eq_true]
  intro hcloser
  rcases closer_cases hcloser with rfl | rfl | rfl <;> revert hchar <;> decide

/-- The second text ends like the first one, as far as the last closing bracket of that. -/
structure EndsAlike (before before' : List Char) : Prop where
  start : before = [] → before' = []
  ending : ∀ w, (∀ c ∈ w, Lexical.isCloser c = false) → w <:+ before → w <:+ before'

namespace EndsAlike

theorem concat (h : EndsAlike before before') (c : Char) :
    EndsAlike (before ++ [c]) (before' ++ [c]) where
  start hnil := absurd hnil (by simp)
  ending w hw hend := by
    refine List.suffix_concat_iff.2 ((List.suffix_concat_iff.1 hend).imp_right ?_)
    rintro ⟨u, rfl, hu⟩
    exact ⟨u, rfl, h.ending u (fun d hd => hw d (List.mem_append_left [c] hd)) hu⟩

theorem of_closer {c : Char} (hc : Lexical.isCloser c = true) (before before' : List Char) :
    EndsAlike (before ++ [c]) before' where
  start hnil := absurd hnil (by simp)
  ending w hw hend := by
    rcases List.suffix_concat_iff.1 hend with rfl | ⟨u, rfl, -⟩
    · exact List.nil_suffix
    · exact absurd (hw c (by simp)) (by simp [hc])

theorem getLast?_eq (h : EndsAlike before before') (hshape : Shaped before after) :
    before'.getLast? = before.getLast? := by
  rcases List.eq_nil_or_concat before with rfl | ⟨x, c, rfl⟩
  · rw [h.start rfl]
  · rw [List.concat_eq_append] at h hshape ⊢
    have hcloser : ∀ d ∈ [c], Lexical.isCloser d = false := by
      simpa using hshape.isCloser_eq_false
    obtain ⟨y, hy⟩ := h.ending [c] hcloser (List.suffix_append x [c])
    rw [← hy, List.getLast?_concat, List.getLast?_concat]

end EndsAlike

/-- The second text starts like the first one, as far as its first digits go. -/
structure StartsAlike (after after' : List Char) : Prop where
  head : after'.head? = after.head?
  digits : ∀ w, (∀ c ∈ w, isAsciiDigit c = true) → w <+: after → w <+: after'

namespace StartsAlike

variable {c d : Char}

theorem refl (after : List Char) : StartsAlike after after :=
  ⟨rfl, fun _ _ h => h⟩

theorem cons (h : StartsAlike after after') (c : Char) :
    StartsAlike (c :: after) (c :: after') where
  head := rfl
  digits w hw hstart := by
    refine List.prefix_cons_iff.2 ((List.prefix_cons_iff.1 hstart).imp_right ?_)
    rintro ⟨u, rfl, hu⟩
    exact ⟨u, rfl, h.digits u (fun d hd => hw d (List.mem_cons_of_mem c hd)) hu⟩

theorem of_head (hc : isAsciiDigit c = false) (after after' : List Char) :
    StartsAlike (c :: after) (c :: after') where
  head := rfl
  digits w hw hstart := by
    rcases List.prefix_cons_iff.1 hstart with rfl | ⟨u, rfl, -⟩
    · exact List.nil_prefix
    · exact absurd (hw c List.mem_cons_self) (by simp [hc])

theorem of_second (hd : isAsciiDigit d = false) (c : Char) (after after' : List Char) :
    StartsAlike (c :: d :: after) (c :: after') where
  head := rfl
  digits w hw hstart := by
    refine List.prefix_cons_iff.2 ((List.prefix_cons_iff.1 hstart).imp_right ?_)
    rintro ⟨u, rfl, hu⟩
    rcases List.prefix_cons_iff.1 hu with rfl | ⟨v, rfl, -⟩
    · exact ⟨[], rfl, List.nil_prefix⟩
    · exact absurd (hw d (by simp)) (by simp [hd])

end StartsAlike

theorem Placed.alike (hends : EndsAlike before before') (hstarts : StartsAlike after after')
    (h : Placed line before after) : Placed line before' after' := by
  rcases h with hshape | ⟨n, hn, hsign, hbefore, hafter⟩
  · exact .inl (hshape.congr (hends.getLast?_eq hshape) hstarts.head)
  · have hnumber := Scientific.isNumber_of_mem_numbersFrom hn
    exact .inr ⟨n, hn, hsign, hends.ending _ hnumber.isCloser_eq_false hbefore,
      hstarts.digits _ hnumber.exponent hafter⟩

/-- A character that is kept, with the rest of the line behind it. -/
theorem atEach_placed_cons {c : Char} {r r' : List Char}
    (h : AtEach '-' (Placed line) before (c :: r)) (hends : EndsAlike before before')
    (hstarts : StartsAlike r r') (hrest : AtEach '-' (Placed line) (before' ++ [c]) r') :
    AtEach '-' (Placed line) before' (c :: r') :=
  atEach_cons.2 ⟨fun hc => ((atEach_cons.1 h).1 hc).alike hends hstarts, hrest⟩

end Sides

section TrailingCommas

theorem startsAlike_dropTrailingCommas (s : List Char) : StartsAlike s (dropTrailingCommas s) := by
  fun_induction dropTrailingCommas s with
  | case1 => exact .refl []
  | case2 c => exact .refl [c]
  | case3 c d r _ _ ih => exact ih.cons c
  | case4 c d r hc e rest _ _ ih =>
      simp only [Bool.and_eq_true, isComma, decide_eq_true_eq] at hc
      rw [hc.2]
      exact .of_second rfl c r _
  | case5 c d r _ e rest _ _ ih => exact ih.cons c
  | case6 c d r _ ih => exact ih.cons c

/-- A sign before a comma is unary, and stays so with a bracket in place of the comma. -/
theorem Placed.of_comma {e : Char} (he : isBlank e = false) (hends : EndsAlike before before')
    (h : Placed line before (',' :: after)) : Placed line before' (e :: after') := by
  rcases h with hshape | ⟨n, hn, -, -, hexponent⟩
  · have hlast := hends.getLast?_eq hshape
    rcases hshape with ⟨hleft, -⟩ | ⟨-, hspace⟩
    · exact .inl (.inl ⟨by rwa [hlast], e, rfl, he⟩)
    · exact absurd (hspace ',' rfl) (by decide)
  · have hnumber := Scientific.isNumber_of_mem_numbersFrom hn
    obtain ⟨d, w, hw⟩ := List.exists_cons_of_ne_nil hnumber.exponent_ne_nil
    have hd := hnumber.exponent d (by rw [hw]; exact List.mem_cons_self)
    rw [hw, List.cons_prefix_cons] at hexponent
    rw [hexponent.1] at hd
    cases hd

theorem atEach_dropTrailingCommas (h : AtEach '-' (Placed line) before s)
    (hends : EndsAlike before before') :
    AtEach '-' (Placed line) before' (dropTrailingCommas s) := by
  fun_induction dropTrailingCommas s generalizing before before' with
  | case1 => exact atEach_nil
  | case2 c => exact atEach_placed_cons h hends (.refl []) atEach_nil
  | case3 c d r _ _ ih =>
      exact atEach_placed_cons h hends (startsAlike_dropTrailingCommas _)
        (ih (atEach_cons.1 h).2 (hends.concat c))
  | case4 c d r hc e rest hr he ih =>
      obtain ⟨-, rfl⟩ : _ ∧ d = ',' := by simpa [isComma] using hc
      obtain ⟨gap, -, hgap⟩ := exists_blanks_trimLeft r
      have hcloser := View.closesItems_isCloser he
      have hblank : isBlank e = false := head?_trimLeft r e (by rw [hr]; rfl)
      have hminus : e ≠ '-' := by
        rintro rfl
        cases hcloser
      have hsplit : c :: ',' :: r = ([c, ','] ++ gap ++ [e]) ++ rest := by
        rw [hgap, hr]
        simp
      have hrest : AtEach '-' (Placed line) (before ++ [c, ','] ++ gap ++ [e]) rest := by
        rw [hsplit] at h
        simpa only [List.append_assoc] using h.right
      refine atEach_cons.2 ⟨fun hc => ((atEach_cons.1 h).1 hc).of_comma hblank hends, ?_⟩
      exact (atEach_cons_of_ne hminus).2 (ih hrest (.of_closer hcloser _ _))
  | case5 c d r _ e rest _ _ ih =>
      exact atEach_placed_cons h hends (startsAlike_dropTrailingCommas _)
        (ih (atEach_cons.1 h).2 (hends.concat c))
  | case6 c d r _ ih =>
      exact atEach_placed_cons h hends (startsAlike_dropTrailingCommas _)
        (ih (atEach_cons.1 h).2 (hends.concat c))

end TrailingCommas

section Parameters

theorem startsAlike_dropEmptyParametersFrom (inName : Bool) (s : List Char) :
    StartsAlike s (dropEmptyParametersFrom inName s) := by
  fun_induction dropEmptyParametersFrom inName s with
  | case1 => exact .refl []
  | case2 c r ih => exact ih.cons c
  | case3 inName c r _ rest hread ih =>
      obtain ⟨gap₁, gap₂, hs, -⟩ := emptyParameters?_eq_some hread
      rw [hs]
      exact .of_head (c := 'f') rfl _ _
  | case4 inName c r _ _ ih => exact ih.cons c

theorem atEach_dropEmptyParametersFrom (inName : Bool) (h : AtEach '-' (Placed line) before s)
    (hends : EndsAlike before before') :
    AtEach '-' (Placed line) before' (dropEmptyParametersFrom inName s) := by
  fun_induction dropEmptyParametersFrom inName s generalizing before before' with
  | case1 => exact atEach_nil
  | case2 c r ih =>
      exact atEach_placed_cons h hends (startsAlike_dropEmptyParametersFrom _ r)
        (ih (atEach_cons.1 h).2 (hends.concat c))
  | case3 inName c r _ rest hread ih =>
      obtain ⟨gap₁, gap₂, hs, -⟩ := emptyParameters?_eq_some hread
      have hword : '-' ∉ Lexical.Keyword.functionWord.spelling := by decide
      have hsplit : c :: r = (Lexical.Keyword.functionWord.spelling ++ gap₁ ++ ['('] ++ gap₂ ++
          [')']) ++ rest := by
        rw [hs]
        simp
      rw [hsplit] at h
      have hrest := h.right
      rw [← List.append_assoc] at hrest
      exact (atEach_append hword).2 (ih hrest (.of_closer rfl _ _))
  | case4 inName c r _ _ ih =>
      exact atEach_placed_cons h hends (startsAlike_dropEmptyParametersFrom _ r)
        (ih (atEach_cons.1 h).2 (hends.concat c))

end Parameters

theorem atEach_normalize (s : List Char) :
    AtEach '-' (Placed (beforeExponents s)) [] (normalize s) := by
  have hends : EndsAlike [] [] := ⟨fun _ => rfl, fun _ _ h => h⟩
  refine atEach_dropEmptyParametersFrom false (atEach_dropTrailingCommas ?_ hends) hends
  exact atEach_joinExponentsFrom false (List.Subset.refl _) (atEach_spaceMinuses _) rfl

variable {s before after : List Char}

/-- The signs that have neither shape are the signs of exponents, and no others. -/
theorem signsExponent_iff (h : normalize s = before ++ '-' :: after) :
    SignsExponent (beforeExponents s) before after ↔ ¬ Shaped before after := by
  refine ⟨?_, (atEach_normalize s before after h).resolve_left⟩
  rintro ⟨n, -, -, ⟨x, hx⟩, -⟩ hshape
  have hlast : before.getLast? = some 'e' := by
    rw [← hx, ← List.append_assoc, List.getLast?_concat]
  rcases hshape with hunary | hbinary
  · exact absurd (hunary.1 'e' hlast) (by decide)
  · exact absurd (hlast.symm.trans hbinary.1) (by decide)

/-- Every minus sign of a normalised line but the sign of an exponent is unary or binary, and never
both. -/
theorem minus_normalize (h : normalize s = before ++ '-' :: after)
    (hsign : ¬ SignsExponent (beforeExponents s) before after) :
    Unary before after ∧ ¬ Binary before after ∨ Binary before after ∧ ¬ Unary before after := by
  have hshape : Shaped before after := not_not.1 (mt (signsExponent_iff h).2 hsign)
  rcases hshape with hunary | hbinary
  · exact .inl ⟨hunary, hunary.not_binary⟩
  · exact .inr ⟨hbinary, fun hunary => hunary.not_binary hbinary⟩

/-- The first sign of the line joins an exponent, the second one operands, and the third one belongs
to its operand. -/
theorem minus_normalize_number :
    normalize "x=2e-5--y".toList = "x = 2e-5 - ".toList ++ '-' :: ['y'] ∧
      ¬ SignsExponent (beforeExponents "x=2e-5--y".toList) "x = 2e-5 - ".toList ['y'] ∧
      Unary "x = 2e-5 - ".toList ['y'] := by
  have hline : normalize "x=2e-5--y".toList = "x = 2e-5 - ".toList ++ '-' :: ['y'] := by cbv
  have hnumbers : Scientific.numbers (beforeExponents "x=2e-5--y".toList) =
      [⟨['2'], ['-'], ['5']⟩] := by cbv
  have hsign : ¬ SignsExponent (beforeExponents "x=2e-5--y".toList) "x = 2e-5 - ".toList ['y'] := by
    rintro ⟨n, hn, -, hbefore, -⟩
    rw [hnumbers, List.mem_singleton] at hn
    rw [hn] at hbefore
    revert hbefore
    decide
  refine ⟨hline, hsign, (minus_normalize hline hsign).elim And.left fun hbinary => ?_⟩
  exact absurd (hbinary.1.2 'y' rfl) (by decide)

end Spacing
end MiniScriptLayout
