import MiniScriptLayout.Proofs.Expression.Chain

/-!
The rules for operators and minus signs along a chain. The rule for operators spaces all signs but
the minus signs. Of these the rules behind it take two kinds apart: one with a blank or another
minus sign behind it, and one that stands right between two words.
-/

namespace MiniScriptLayout
namespace Expression

open Text Spacing

section Operators

theorem operator?_eq_none {c : Char} {r : List Char}
    (h : takesEquals c = false ∨ c = '-' ∧ r.head? ≠ some '=') : operator? (c :: r) = none := by
  have hop : isOperator c = false := by
    rcases h with h | ⟨rfl, -⟩
    · cases hc : isOperator c with
      | false => rfl
      | true => exact absurd (h.symm.trans (takesEquals_of_isOperator hc)) Bool.false_ne_true
    · rfl
  cases r with
  | nil => simp [operator?, hop]
  | cons d r =>
      have hpair : (takesEquals c && decide (d = '=')) = false := by
        rcases h with h | ⟨-, h⟩
        · simp [h]
        · simpa using fun _ hd => h (by rw [hd]; rfl)
      simp [operator?, hop, hpair]

theorem operator?_append {sign r : List Char} (h : sign ∈ operators) (hr : r.head? ≠ some '=') :
    operator? (sign ++ r) = some (sign, r) := by
  rcases of_mem_operators h with ⟨c, hc, rfl⟩ | ⟨c, hc, rfl⟩
  · cases r with
    | nil => simp [operator?, hc]
    | cons d r =>
        have hd : d ≠ '=' := fun hd => hr (by rw [hd]; rfl)
        simp [operator?, hc, hd]
  · simp [operator?, hc]

theorem operator?_word {word : List Char} (hword : IsWord word) (r : List Char) :
    operator? (word ++ r) = none := by
  obtain ⟨c, w, rfl, hc, -⟩ := exists_head_word hword
  exact operator?_eq_none (.inl (takesEquals_of_isWordChar hc))

theorem operator?_operand {word : List Char} (hword : IsWord word) (negated : Bool)
    (r : List Char) : operator? (operand negated word ++ r) = none := by
  cases negated with
  | true =>
      obtain ⟨c, w, rfl, hc, -⟩ := exists_head_word hword
      refine operator?_eq_none (.inr ⟨rfl, ?_⟩)
      simpa using ne_of_isWordChar hc rfl
  | false => exact operator?_word hword r

variable {c : Char} (hc : isBlank c = false) {r : List Char}
include hc

theorem spaceOperatorsFrom_nonblank (h : operator? (c :: r) = none) (after : Bool) :
    spaceOperatorsFrom after (c :: r) = c :: spaceOperatorsFrom false r := by
  rw [spaceOperatorsFrom, hc, if_neg Bool.false_ne_true]
  split
  · rename_i hop
    rw [h] at hop
    cases hop
  · rfl

theorem spaceOperatorsFrom_operator {op rest : List Char} (h : operator? (c :: r) = some (op, rest))
    (after : Bool) :
    spaceOperatorsFrom after (c :: r) = ' ' :: op ++ ' ' :: spaceOperatorsFrom true rest := by
  rw [spaceOperatorsFrom, hc, if_neg Bool.false_ne_true]
  split
  · rename_i hop
    rw [h] at hop
    cases hop
    rfl
  · rename_i hop
    rw [h] at hop
    cases hop

theorem spaceOperatorsFrom_space (after : Bool) :
    spaceOperatorsFrom after (' ' :: c :: r) =
      if after || (operator? (c :: r)).isSome then spaceOperatorsFrom after (c :: r)
      else ' ' :: spaceOperatorsFrom false (c :: r) := by
  have hblank : isBlank ' ' = true := rfl
  have htrim : trimLeft (c :: r) = c :: r := trimLeft_eq_self (by simpa using hc)
  rw [spaceOperatorsFrom, hblank, if_pos rfl, htrim]

end Operators

theorem spaceOperatorsFrom_word {word : List Char} (hword : IsWord word) (after : Bool)
    (r : List Char) :
    spaceOperatorsFrom after (word ++ r) = word ++ spaceOperatorsFrom false r := by
  refine append_word_of_passes hword (fun after c hc t => ?_) after r
  have hc := hword.chars c hc
  exact spaceOperatorsFrom_nonblank (isBlank_of_isWordChar hc)
    (operator?_eq_none (.inl (takesEquals_of_isWordChar hc))) after

theorem spaceOperatorsFrom_operand {word : List Char} (hword : IsWord word) (negated after : Bool)
    (r : List Char) :
    spaceOperatorsFrom after (operand negated word ++ r) =
      operand negated word ++ spaceOperatorsFrom false r := by
  cases negated with
  | true =>
      have hnone : operator? ('-' :: (word ++ r)) = none := operator?_operand hword true r
      rw [operand, if_pos rfl, List.cons_append, spaceOperatorsFrom_nonblank rfl hnone,
        spaceOperatorsFrom_word hword, List.cons_append]
  | false => exact spaceOperatorsFrom_word hword after r

namespace Link

/-- The link with its sign spaced, unless that is a minus sign. -/
def spacedOperator (l : Link) : Link :=
  if l.sign = ['-'] then l else l.spaced

variable {l : Link} (h : l.Narrow)
include h

theorem Narrow.mem_operators (hsign : l.sign ≠ ['-']) : l.sign ∈ operators :=
  h.sign.resolve_right fun hs => hsign hs.1

/-- The sign is not taken for another one because of what is behind it. -/
theorem Narrow.head?_behind (r : List Char) :
    (l.behind ++ (operand l.negated l.word ++ r)).head? ≠ some '=' := by
  rcases h.behind_eq with hb | hb
  · obtain ⟨d, t, ht, -, -, hd⟩ := exists_head_operand h.word l.negated r
    rw [hb, List.nil_append, ht]
    simpa using hd
  · simp [hb]

theorem spaceOperators_text (r : List Char) :
    spaceOperatorsFrom false (l.text ++ r) =
      l.spacedOperator.text ++ spaceOperatorsFrom false r := by
  have hhead := h.head?_behind r
  have hnone := operator?_operand h.word l.negated r
  have hoperand := fun after => spaceOperatorsFrom_operand h.word l.negated after r
  obtain ⟨d, t, ht, hd, -⟩ := exists_head_operand h.word l.negated r
  rw [spacedOperator]
  split
  -- a minus sign is taken over with the gaps around it
  · rename_i hsign
    have hminus : operator? ('-' :: (l.behind ++ (operand l.negated l.word ++ r))) = none :=
      operator?_eq_none (.inr ⟨rfl, hhead⟩)
    have hbehind : spaceOperatorsFrom false (l.behind ++ (operand l.negated l.word ++ r)) =
        l.behind ++ (operand l.negated l.word ++ spaceOperatorsFrom false r) := by
      rw [← hoperand false]
      rcases h.behind_eq with hb | hb
      · rw [hb]
        rfl
      · rw [ht] at hnone
        rw [hb, ht, List.singleton_append, spaceOperatorsFrom_space hd, hnone]
        rfl
    rw [text_append, text_append, hsign, List.singleton_append, ← hbehind, List.singleton_append,
      ← spaceOperatorsFrom_nonblank rfl hminus false]
    rcases h.before_eq with hb | hb
    · rw [hb]
      rfl
    · rw [hb, List.singleton_append, spaceOperatorsFrom_space rfl, hminus]
      rfl
  -- an operator is found behind a gap too, and takes the gap behind it along
  · rename_i hsign
    obtain ⟨c, s, hs, hc, -⟩ := h.sign_eq
    have hop := operator?_append (h.mem_operators hsign) hhead
    have hbefore : spaceOperatorsFrom false (l.text ++ r) =
        spaceOperatorsFrom false (l.sign ++ (l.behind ++ (operand l.negated l.word ++ r))) := by
      rw [hs, List.cons_append] at hop
      rw [text_append, hs, List.cons_append]
      rcases h.before_eq with hb | hb
      · rw [hb]
        rfl
      · rw [hb, List.singleton_append, spaceOperatorsFrom_space (isBlank_of_takesEquals hc), hop]
        rfl
    have hbehind : spaceOperatorsFrom true (l.behind ++ (operand l.negated l.word ++ r)) =
        operand l.negated l.word ++ spaceOperatorsFrom false r := by
      rw [← hoperand true]
      rcases h.behind_eq with hb | hb
      · rw [hb]
        rfl
      · rw [hb, ht, List.singleton_append, spaceOperatorsFrom_space hd]
        rfl
    rw [hbefore, text_append]
    rw [hs, List.cons_append] at hop ⊢
    rw [spaceOperatorsFrom_operator (isBlank_of_takesEquals hc) hop, hbehind]
    simp [spaced, hs]

end Link

section Pairs

theorem splitMinusPairs_cons {c : Char} {r : List Char} (h : c ≠ '-' ∨ r.head? ≠ some '-') :
    splitMinusPairs (c :: r) = c :: splitMinusPairs r := by
  cases r with
  | nil => rfl
  | cons d r =>
      have hpair : ¬ (c = '-' ∧ d = '-') := fun hcd =>
        h.elim (fun h => h hcd.1) fun h => h (by rw [hcd.2]; rfl)
      rw [splitMinusPairs, if_neg hpair]

theorem splitMinusPairs_word {word : List Char} (hword : IsWord word) (r : List Char) :
    splitMinusPairs (word ++ r) = word ++ splitMinusPairs r :=
  append_of_passes
    (fun c hc _ => splitMinusPairs_cons (.inl (ne_of_isWordChar (hword.chars c hc) rfl))) r

theorem splitMinusPairs_operand {word : List Char} (hword : IsWord word) (negated : Bool)
    (r : List Char) :
    splitMinusPairs (operand negated word ++ r) = operand negated word ++ splitMinusPairs r := by
  cases negated with
  | true =>
      have hhead : (word ++ r).head? ≠ some '-' := by
        obtain ⟨c, w, rfl, hc, -⟩ := exists_head_word hword
        simpa using ne_of_isWordChar hc rfl
      rw [operand, if_pos rfl, List.cons_append, splitMinusPairs_cons (.inr hhead),
        splitMinusPairs_word hword, List.cons_append]
  | false => exact splitMinusPairs_word hword r

theorem tightenUnary_nonblank {c : Char} (hc : isBlank c = false) (r : List Char) :
    tightenUnary (c :: r) = c :: tightenUnary r := by
  simp [tightenUnary, hc]

namespace Link

/-- The link with its minus sign apart from one right behind it. -/
def parted (l : Link) : Link :=
  if l.sign = ['-'] ∧ l.behind = [] ∧ l.negated = true then { l with behind := [' '] } else l

variable {l : Link} (h : l.Narrow)
include h

theorem splitMinusPairs_text (r : List Char) :
    splitMinusPairs (l.text ++ r) = l.parted.text ++ splitMinusPairs r := by
  have hgap : ∀ {gap : List Char}, gap = [] ∨ gap = [' '] → ∀ t,
      splitMinusPairs (gap ++ t) = gap ++ splitMinusPairs t := by
    rintro gap (rfl | rfl) t
    · rfl
    · exact splitMinusPairs_cons (.inl (by decide))
  rw [parted]
  split
  · rename_i hpair
    obtain ⟨hsign, hbehind, hnegated⟩ := hpair
    rw [text_append, text_append, hgap h.before_eq, hsign, hbehind, hnegated]
    simp only [operand, if_true, List.nil_append, List.cons_append, splitMinusPairs, and_self,
      splitMinusPairs_word h.word]
  · rename_i hpair
    have hsign : splitMinusPairs (l.sign ++ (l.behind ++ (operand l.negated l.word ++ r))) =
        l.sign ++ splitMinusPairs (l.behind ++ (operand l.negated l.word ++ r)) := by
      obtain ⟨c, s, hs, -, rfl | rfl⟩ := h.sign_eq
      · rw [hs]
        refine splitMinusPairs_cons ?_
        rw [or_iff_not_imp_left, not_not]
        rintro rfl
        -- a single minus sign has a blank or a word behind it, as the link is not such a pair
        rcases h.behind_eq with hb | hb
        · cases hn : l.negated with
          | true => exact absurd ⟨hs, hb, hn⟩ hpair
          | false =>
              obtain ⟨d, w, hw, hd, -⟩ := exists_head_word h.word
              simpa [hb, operand, hw] using ne_of_isWordChar hd rfl
        · simp [hb]
      · rw [hs, List.cons_append, List.cons_append, List.nil_append,
          splitMinusPairs_cons (.inr (by simp)), splitMinusPairs_cons (.inl (by decide))]
        rfl
    rw [text_append, text_append, hgap h.before_eq, hsign, hgap h.behind_eq,
      splitMinusPairs_operand h.word]

/-- No blank follows another one, so that there is nothing to shorten. -/
theorem tightenUnary_text (r : List Char) :
    tightenUnary (l.text ++ r) = l.text ++ tightenUnary r := by
  refine h.map_text id (fun c hc => tightenUnary_nonblank hc) ?_ r
  intro gap hgap c s hc _
  rcases h.gap_eq hgap with rfl | rfl
  · rfl
  · simp [tightenUnary, startsBlank, hc]

end Link

end Pairs

section Minus

theorem startsBinary_of_ne {c : Char} (hc : c ≠ '-') (r : List Char) :
    startsBinary (c :: r) = false := by
  cases r <;> simp [startsBinary, hc]

theorem startsBinary_of_nonblank {d : Char} (hd : isBlank d = false) (c : Char) (r : List Char) :
    startsBinary (c :: d :: r) = false := by
  simp [startsBinary, hd]

theorem startsBinary_operand {word : List Char} (hword : IsWord word) (negated : Bool)
    (r : List Char) : startsBinary (operand negated word ++ r) = false := by
  obtain ⟨c, w, rfl, hc, -⟩ := exists_head_word hword
  cases negated with
  | true => exact startsBinary_of_nonblank (isBlank_of_isWordChar hc) '-' (w ++ r)
  | false => exact startsBinary_of_ne (ne_of_isWordChar hc rfl) (w ++ r)

theorem spaceMinusFrom_nonblank {c : Char} (hc : isBlank c = false) {r : List Char}
    (h : startsBinary (c :: r) = false) (after : Bool) :
    spaceMinusFrom after (c :: r) = c :: spaceMinusFrom false r := by
  simp [spaceMinusFrom, hc, h]

theorem spaceMinusFrom_space {c : Char} (hc : isBlank c = false) (r : List Char) (after : Bool) :
    spaceMinusFrom after (' ' :: c :: r) =
      if after || startsBinary (c :: r) then spaceMinusFrom after (c :: r)
      else ' ' :: spaceMinusFrom false (c :: r) := by
  have hblank : isBlank ' ' = true := rfl
  have htrim : trimLeft (c :: r) = c :: r := trimLeft_eq_self (by simpa using hc)
  rw [spaceMinusFrom, hblank, if_pos rfl, htrim]

theorem spaceMinusFrom_word {word : List Char} (hword : IsWord word) (after : Bool)
    (r : List Char) : spaceMinusFrom after (word ++ r) = word ++ spaceMinusFrom false r := by
  refine append_word_of_passes hword (fun after c hc t => ?_) after r
  have hc := hword.chars c hc
  exact spaceMinusFrom_nonblank (isBlank_of_isWordChar hc)
    (startsBinary_of_ne (ne_of_isWordChar hc rfl) t) after

theorem spaceMinusFrom_operand {word : List Char} (hword : IsWord word) (negated after : Bool)
    (r : List Char) :
    spaceMinusFrom after (operand negated word ++ r) =
      operand negated word ++ spaceMinusFrom false r := by
  cases negated with
  | true =>
      have hbinary : startsBinary ('-' :: (word ++ r)) = false := startsBinary_operand hword true r
      rw [operand, if_pos rfl, List.cons_append, spaceMinusFrom_nonblank rfl hbinary,
        spaceMinusFrom_word hword, List.cons_append]
  | false => exact spaceMinusFrom_word hword after r

namespace Link

/-- The link with its minus sign spaced, if there is a blank behind it. -/
def spacedMinus (l : Link) : Link :=
  if l.sign = ['-'] ∧ l.behind ≠ [] then l.spaced else l

variable {l : Link} (h : l.Narrow)
include h

theorem spaceMinus_text (r : List Char) :
    spaceMinusFrom false (l.text ++ r) = l.spacedMinus.text ++ spaceMinusFrom false r := by
  have hoperand := fun after => spaceMinusFrom_operand h.word l.negated after r
  have hbinary := startsBinary_operand h.word l.negated r
  obtain ⟨d, t, ht, hd, -⟩ := exists_head_operand h.word l.negated r
  rw [spacedMinus]
  split
  · rename_i hminus
    have hbehind : spaceMinusFrom true ([' '] ++ (operand l.negated l.word ++ r)) =
        operand l.negated l.word ++ spaceMinusFrom false r := by
      rw [← hoperand true, ht, List.singleton_append, spaceMinusFrom_space hd]
      rfl
    have hsign : spaceMinusFrom false ('-' :: ([' '] ++ (operand l.negated l.word ++ r))) =
        ' ' :: '-' :: ' ' :: (operand l.negated l.word ++ spaceMinusFrom false r) := by
      rw [← hbehind]
      rfl
    rw [text_append, text_append, hminus.1, h.behind_eq.resolve_left hminus.2,
      List.singleton_append]
    rcases h.before_eq with hb | hb
    · rw [hb, List.nil_append, hsign]
      simp [spaced, hminus.1]
    · have hstart : ∀ x, startsBinary ('-' :: ([' '] ++ x)) = true := fun _ => rfl
      rw [hb, List.singleton_append, spaceMinusFrom_space rfl, hstart, Bool.or_true, if_pos rfl,
        hsign]
      simp [spaced, hminus.1]
  · rename_i hminus
    have hbehind : spaceMinusFrom false (l.behind ++ (operand l.negated l.word ++ r)) =
        l.behind ++ (operand l.negated l.word ++ spaceMinusFrom false r) := by
      rw [← hoperand false]
      rcases h.behind_eq with hb | hb
      · rw [hb]
        rfl
      · rw [ht] at hbinary
        rw [hb, ht, List.singleton_append, spaceMinusFrom_space hd, hbinary]
        rfl
    obtain ⟨c, s, hs, hc, hshape⟩ := h.sign_eq
    have hstart : startsBinary (c :: (s ++ (l.behind ++ (operand l.negated l.word ++ r)))) =
        false := by
      -- no sign here is a minus sign with a blank behind it
      rcases hshape with rfl | rfl
      · by_cases hc : c = '-'
        · have hb : l.behind = [] := not_not.1 fun hb => hminus ⟨hs.trans (by rw [hc]), hb⟩
          rw [hb, ht]
          exact startsBinary_of_nonblank hd c t
        · exact startsBinary_of_ne hc _
      · exact startsBinary_of_nonblank rfl c _
    have hsign : spaceMinusFrom false
        (l.sign ++ (l.behind ++ (operand l.negated l.word ++ r))) =
          l.sign ++ spaceMinusFrom false (l.behind ++ (operand l.negated l.word ++ r)) := by
      rw [hs, List.cons_append, spaceMinusFrom_nonblank (isBlank_of_takesEquals hc) hstart]
      rcases hshape with rfl | rfl
      · rfl
      · rw [List.singleton_append, spaceMinusFrom_nonblank rfl (startsBinary_of_ne (by decide) _)]
        rfl
    rw [text_append, text_append, ← hbehind, ← hsign]
    rcases h.before_eq with hb | hb
    · rw [hb]
      rfl
    · rw [hb, hs, List.singleton_append, List.cons_append,
        spaceMinusFrom_space (isBlank_of_takesEquals hc), hstart]
      rfl

end Link

end Minus

section Tight

theorem startsUnary_of_ne {c : Char} (hc : c ≠ '-') (r : List Char) :
    startsUnary (c :: r) = false := by
  cases r <;> simp [startsUnary, hc]

theorem spaceTightMinusFrom_cons {operand : Bool} {c : Char} {r : List Char}
    (h : operand = false ∨ startsUnary (c :: r) = false) :
    spaceTightMinusFrom operand (c :: r) = c :: spaceTightMinusFrom (endsOperand c) r := by
  rcases h with h | h <;> simp [spaceTightMinusFrom, h]

theorem endsOperand_of_isWordChar {c : Char} (hc : isWordChar c = true) : endsOperand c = true := by
  have hne : ∀ d, isWordChar d = false → c ≠ d := fun d => ne_of_isWordChar hc
  simp [endsOperand, isBlank_of_isWordChar hc, Lexical.isOpener, hne '(' rfl, hne '[' rfl,
    hne '\x7b' rfl, hne ':' rfl]

theorem spaceTightMinusFrom_word {word : List Char} (hword : IsWord word) (operand : Bool)
    (r : List Char) :
    spaceTightMinusFrom operand (word ++ r) = word ++ spaceTightMinusFrom true r := by
  refine append_word_of_passes hword (fun operand c hc t => ?_) operand r
  have hc := hword.chars c hc
  rw [spaceTightMinusFrom_cons (.inr (startsUnary_of_ne (ne_of_isWordChar hc rfl) t)),
    endsOperand_of_isWordChar hc]

theorem spaceTightMinusFrom_operand {word : List Char} (hword : IsWord word) (negated : Bool)
    (r : List Char) :
    spaceTightMinusFrom false (operand negated word ++ r) =
      operand negated word ++ spaceTightMinusFrom true r := by
  cases negated with
  | true =>
      rw [operand, if_pos rfl, List.cons_append, spaceTightMinusFrom_cons (.inl rfl),
        spaceTightMinusFrom_word hword, List.cons_append]
  | false => exact spaceTightMinusFrom_word hword false r

namespace Link

theorem spaceTightMinus_spaced {l : Link} (h : l.Valid) (r : List Char) :
    spaceTightMinusFrom true (l.spaced.text ++ r) =
      l.spaced.text ++ spaceTightMinusFrom true r := by
  have hspace : ∀ operand t, spaceTightMinusFrom operand (' ' :: t) =
      ' ' :: spaceTightMinusFrom false t := fun operand t =>
    spaceTightMinusFrom_cons (.inr (startsUnary_of_ne (by decide) t))
  obtain ⟨c, s, hs, -, hshape⟩ := h.sign_eq
  simp only [text_append, spaced, hs, List.cons_append, List.nil_append, hspace]
  rw [spaceTightMinusFrom_cons (.inl rfl)]
  rcases hshape with rfl | rfl
  · rw [List.nil_append, hspace, spaceTightMinusFrom_operand h.word, List.nil_append]
  · rw [List.singleton_append,
      spaceTightMinusFrom_cons (.inr (startsUnary_of_ne (by decide) _)), hspace,
      spaceTightMinusFrom_operand h.word, List.singleton_append]

/-- A minus sign right between two words. -/
theorem spaceTightMinus_tight {l : Link} (hword : IsWord l.word) (hsign : l.sign = ['-'])
    (hbefore : l.before = []) (hbehind : l.behind = []) (hnegated : l.negated = false)
    (r : List Char) :
    spaceTightMinusFrom true (l.text ++ r) = l.spaced.text ++ spaceTightMinusFrom true r := by
  obtain ⟨c, w, hw, hc, -⟩ := exists_head_word hword
  have hunary : startsUnary ('-' :: (l.word ++ r)) = true := by
    simp [hw, startsUnary, isBlank_of_isWordChar hc]
  rw [text_append, text_append]
  simp only [spaced, hsign, hbefore, hbehind, hnegated, operand, Bool.false_eq_true, if_false,
    List.nil_append, List.singleton_append]
  rw [spaceTightMinusFrom, hunary, Bool.true_and, if_pos rfl, spaceTightMinusFrom_word hword]

end Link

end Tight

namespace Link

variable {l : Link}

theorem Narrow.spacedOperator (h : l.Narrow) : l.spacedOperator.Narrow := by
  rw [Link.spacedOperator]
  split
  · exact h
  · exact h.toValid.spaced

theorem Narrow.parted (h : l.Narrow) : l.parted.Narrow := by
  rw [Link.parted]
  split
  · exact
      { before := h.before
        behind := List.forall_mem_singleton.2 rfl
        sign := h.sign.imp_right fun hs => ⟨hs.1, fun hnil => by cases hnil⟩
        word := h.word
        before_eq := h.before_eq
        behind_eq := .inr rfl }
  · exact h

theorem Narrow.spacedMinus (h : l.Narrow) : l.spacedMinus.Narrow := by
  rw [Link.spacedMinus]
  split
  · exact h.toValid.spaced
  · exact h

/-- What the rule for minus signs between two words finds: of the signs that are not spaced yet
each is such a minus sign. -/
theorem Narrow.spaced_or_tight (h : l.Narrow) :
    l.spacedOperator.parted.spacedMinus = l.spaced ∨
      l.spacedOperator.parted.spacedMinus = l ∧ l.sign = ['-'] ∧ l.before = [] ∧ l.behind = [] ∧
        l.negated = false := by
  by_cases hsign : l.sign = ['-']
  · rw [Link.spacedOperator, if_pos hsign]
    by_cases hbehind : l.behind = []
    · cases hn : l.negated with
      | true =>
          refine .inl ?_
          rw [Link.parted, if_pos ⟨hsign, hbehind, hn⟩, Link.spacedMinus, if_pos ⟨hsign, by simp⟩]
          rfl
      | false =>
          refine .inr ⟨?_, hsign, ?_, hbehind, rfl⟩
          · simp [Link.parted, Link.spacedMinus, hn, hbehind]
          · rcases h.sign with hs | hs
            · rw [hsign] at hs
              exact absurd hs (by decide)
            · exact hs.2 hbehind
    · refine .inl ?_
      rw [Link.parted, if_neg fun hp => hbehind hp.2.1, Link.spacedMinus,
        if_pos ⟨hsign, hbehind⟩]
  · refine .inl ?_
    rw [Link.spacedOperator, if_neg hsign, Link.parted, if_neg fun hp => hsign hp.1,
      Link.spacedMinus, if_neg fun hp => hsign hp.1]

theorem spaced_steps (l : Link) : l.spacedOperator.parted.spacedMinus.spaced = l.spaced := by
  simp only [Link.spacedMinus, Link.parted, Link.spacedOperator]
  split_ifs <;> rfl

theorem spaceTightMinus_text (h : l.Narrow) (r : List Char) :
    spaceTightMinusFrom true (l.spacedOperator.parted.spacedMinus.text ++ r) =
      l.spacedOperator.parted.spacedMinus.spaced.text ++ spaceTightMinusFrom true r := by
  rw [spaced_steps]
  rcases h.spaced_or_tight with heq | ⟨heq, hsign, hbefore, hbehind, hnegated⟩
  · rw [heq, spaceTightMinus_spaced h.toValid]
  · rw [heq, spaceTightMinus_tight h.word hsign hbefore hbehind hnegated]

end Link

/-- The sign of every link gets one space on each side. -/
theorem beforeExponents_chain {word : List Char} (hword : IsWord word) (negated : Bool)
    {links : List Link} (hlinks : ∀ l ∈ links, l.Valid) :
    beforeExponents (operand negated word ++ chain links) =
      operand negated word ++ chain (links.map Link.spaced) := by
  have hnarrow := List.forall_mem_map.2 fun l hl => (hlinks l hl).narrowed
  have hoperators := List.forall_mem_map.2 fun l hl => (hnarrow l hl).spacedOperator
  have hparted := List.forall_mem_map.2 fun l hl => (hoperators l hl).parted
  have htight : ∀ l ∈ (((links.map Link.narrowed).map Link.spacedOperator).map Link.parted).map
      Link.spacedMinus, ∀ r, spaceTightMinusFrom true (l.text ++ r) =
        l.spaced.text ++ spaceTightMinusFrom true r := by
    simp only [List.forall_mem_map]
    exact fun l hl => Link.spaceTightMinus_text (hlinks l hl).narrowed
  rw [beforeExponents, collapse_chain hword negated hlinks,
    spaceBrackets_chain hword negated hnarrow, spaceOperators, spaceOperatorsFrom_operand hword,
    map_chain Link.spacedOperator (by simp [spaceOperatorsFrom]) fun l hl =>
      Link.spaceOperators_text (hnarrow l hl),
    spaceMinuses, splitMinusPairs_operand hword,
    map_chain Link.parted rfl fun l hl => Link.splitMinusPairs_text (hoperators l hl),
    append_of_passes fun c hc => tightenUnary_nonblank (isBlank_operand hword negated c hc),
    map_chain id rfl fun l hl => Link.tightenUnary_text (hparted l hl), List.map_id,
    spaceMinus, spaceMinusFrom_operand hword,
    map_chain Link.spacedMinus rfl fun l hl => Link.spaceMinus_text (hparted l hl),
    spaceTightMinus, spaceTightMinusFrom_operand hword, map_chain Link.spaced rfl htight]
  simp only [List.map_map]
  congr 3
  exact funext fun l => Link.spaced_steps l.narrowed

end Expression
end MiniScriptLayout
