import MiniScriptLayout.Proofs.Comma.Reading
import MiniScriptLayout.Proofs.Spacing.Seam

/-!
Signs before a trailing comma. The rules for minus signs and operators leave a blank between such a
sign and the comma, unless they take a minus sign for a unary one. What a minus sign is depends on
what stands left of it, with the signs of a row taken in pairs.
-/

namespace MiniScriptLayout

open Text Expression

namespace Spacing

theorem startsUnary_eq_true {s : List Char} (h : startsUnary s = true) :
    ∃ d r, s = '-' :: d :: r ∧ isBlank d = false := by
  unfold startsUnary at h
  split at h
  · rename_i c d r
    simp only [Bool.and_eq_true, decide_eq_true_eq, Bool.not_eq_true'] at h
    exact ⟨d, r, by rw [h.1], h.2⟩
  · cases h

theorem ne_minus {c : Char} (hc : isBlank c = true ∨ c = ',') : c ≠ '-' := by
  rintro rfl
  revert hc
  decide

theorem trimLeft_of_endsItems {s : List Char} (h : endsItems s = true) :
    ∃ r, trimLeft s = ',' :: r := by
  rw [← endsItems_congr (squeeze_trimLeft s)] at h
  obtain ⟨c, r, hs, hc⟩ := exists_of_endsItems h
  have hhead := head?_trimLeft s c (by rw [hs]; rfl)
  rcases hc with hc | rfl
  · exact absurd (hhead.symm.trans hc) Bool.false_ne_true
  · exact ⟨r, hs⟩

/-- A space behind an item keeps the comma there. -/
theorem Reading.finds_space {σ : Type} (R : Reading σ) {st : σ} {c : Char} {r : List Char}
    (hc : isItem c = true) (hkeeps : R.keeps st c (' ' :: r) = true) :
    R.finds st (c :: ' ' :: r) = (endsItems r || R.finds (R.next (R.next st c) ' ') r) := by
  rw [R.finds_of_keeps hc hkeeps, endsItems_blank rfl, R.finds_blank _ rfl]

section TightMinus

/-- The trailing commas that have a blank before them, or a minus sign right behind an operand. -/
def tight : Reading Bool where
  next _ c := endsOperand c
  keeps operand c r := startsBlank r || operand && c = '-'

theorem squeeze_spaceTightMinusFrom (operand : Bool) (s : List Char) :
    squeeze (spaceTightMinusFrom operand s) = squeeze s :=
  Row.squeeze_of_tokens (View.same_spaceTightMinusFrom rfl operand s).1

theorem finds_spaceTightMinus (operand : Bool) (s : List Char) :
    gapped.finds () (spaceTightMinusFrom operand s) = tight.finds operand s := by
  induction s generalizing operand with
  | nil => rfl
  | cons c r ih =>
      rw [spaceTightMinusFrom]
      split
      · rename_i hc
        rw [Bool.and_eq_true] at hc
        obtain ⟨rfl, hunary⟩ := hc
        obtain ⟨d, t, hs, -⟩ := startsUnary_eq_true hunary
        obtain ⟨rfl, rfl⟩ := List.cons_eq_cons.1 hs
        have hkeeps : tight.keeps true '-' (d :: t) = true := Bool.or_true _
        rw [gapped.finds_blank () rfl, gapped.finds_space rfl rfl,
          endsItems_congr (squeeze_spaceTightMinusFrom true (d :: t)),
          tight.finds_of_keeps rfl hkeeps]
        exact congrArg _ (ih true)
      · rename_i hc
        refine Reading.finds_cons_congr (squeeze_spaceTightMinusFrom _ r) (fun _ hr => ?_) (ih _)
        obtain ⟨d, t, rfl, hd⟩ := exists_of_endsItems hr
        have hstart : startsBlank (spaceTightMinusFrom (endsOperand c) (d :: t)) = isBlank d := by
          rw [spaceTightMinusFrom_cons (.inr (startsUnary_of_ne (ne_minus hd) t))]
          rfl
        refine hstart.trans ?_
        rcases hd with hd | rfl
        · simp [tight, startsBlank, hd]
        · have hcomma : isBlank ',' = false := rfl
          simpa [tight, startsBlank, startsUnary, hcomma] using hc

end TightMinus

section UnaryMinus

theorem endsOperand_of_isBlank {c : Char} (hc : isBlank c = true) : endsOperand c = false := by
  simp [endsOperand, hc]

theorem tight_finds_blank {c : Char} (hc : isBlank c = true) (operand : Bool) (r : List Char) :
    tight.finds operand (c :: r) = tight.finds false r := by
  rw [tight.finds_blank _ hc]
  exact congrArg (fun operand => tight.finds operand r) (endsOperand_of_isBlank hc)

/-- What stands left of a text counts only for a minus sign at its start. -/
theorem tight_finds_eq {s : List Char} (h : startsUnary s = false) (operand operand' : Bool) :
    tight.finds operand s = tight.finds operand' s := by
  cases s with
  | nil => rfl
  | cons c r =>
      refine Reading.finds_cons_congr rfl (fun _ hr => ?_) rfl
      obtain ⟨d, t, rfl, hd⟩ := exists_of_endsItems hr
      rcases hd with hd | rfl
      · simp [tight, startsBlank, hd]
      · have hc : c ≠ '-' := by
          rintro rfl
          cases h
        simp [tight, hc]

theorem squeeze_tightenUnary (s : List Char) : squeeze (tightenUnary s) = squeeze s :=
  Row.squeeze_of_tokens (View.tokens_tightenUnary rfl s)

theorem finds_tightenUnary (operand : Bool) (s : List Char) :
    tight.finds operand (tightenUnary s) = tight.finds operand s := by
  induction s generalizing operand with
  | nil => rfl
  | cons c r ih =>
      rw [tightenUnary]
      split
      · rename_i hc
        rw [Bool.and_eq_true] at hc
        rw [tight_finds_blank hc.1]
        split
        · rename_i hr
          have hunary : startsUnary r = false := by
            cases r with
            | nil => rfl
            | cons d r => exact startsUnary_of_ne (ne_minus (.inl hr)) r
          rw [ih, tight_finds_eq hunary]
        · rw [tight_finds_blank rfl, ih]
      · rename_i hc
        refine Reading.finds_cons_congr (squeeze_tightenUnary r) (fun _ hr => ?_) (ih _)
        have hstart : startsBlank (tightenUnary r) = startsBlank r := by
          obtain ⟨d, t, rfl, -⟩ := exists_of_endsItems hr
          rw [tightenUnary]
          split
          · rename_i hd
            rw [Bool.and_eq_true] at hd
            rw [endsItems_blank hd.1] at hr
            obtain ⟨u, hu⟩ := trimLeft_of_endsItems hr
            rw [hu, startsUnary_of_ne (by decide)] at hd
            cases hd.2
          · rfl
        exact congrArg (· || _) hstart

theorem squeeze_spaceMinusFrom (after : Bool) (s : List Char) :
    squeeze (spaceMinusFrom after s) = squeeze s :=
  Row.squeeze_of_tokens (View.same_spaceMinusFrom rfl after s).1

theorem startsBlank_spaceMinusFrom {r : List Char} (hr : endsItems r = true) :
    startsBlank (spaceMinusFrom false r) = startsBlank r := by
  obtain ⟨d, t, rfl, hd⟩ := exists_of_endsItems hr
  cases hb : isBlank d with
  | true =>
      rw [endsItems_blank hb] at hr
      obtain ⟨u, hu⟩ := trimLeft_of_endsItems hr
      rw [spaceMinusFrom, hb, hu, startsBinary_of_ne (by decide)]
      rfl
  | false =>
      rw [spaceMinusFrom_nonblank hb (startsBinary_of_ne (ne_minus hd) t)]
      rfl

/-- The spaces around a binary minus stand for the blanks there, so that what stands left of the
text may differ unless it starts with a unary minus. -/
theorem finds_spaceMinusFrom (after operand operand' : Bool) (s : List Char)
    (hafter : after = true → operand = false)
    (hstart : startsUnary s = true → operand = operand') :
    tight.finds operand (spaceMinusFrom after s) = tight.finds operand' s := by
  induction s generalizing after operand operand' with
  | nil => rfl
  | cons c r ih =>
      rw [spaceMinusFrom]
      split
      · rename_i hc
        rw [tight_finds_blank hc]
        split
        · rename_i hdrop
          refine ih after operand false hafter fun hunary => ?_
          rw [Bool.or_eq_true] at hdrop
          refine hdrop.elim hafter fun hbinary => ?_
          obtain ⟨d, t, rfl, hd⟩ := startsUnary_eq_true hunary
          rw [trimLeft_eq_self (by simp [isBlank]), startsBinary_of_nonblank hd] at hbinary
          cases hbinary
        · rw [tight_finds_blank hc]
          exact ih false false false (fun h => by cases h) fun _ => rfl
      · rename_i hc
        rw [Bool.not_eq_true] at hc
        split
        · rename_i hbinary
          obtain rfl : c = '-' := by
            by_contra hne
            rw [startsBinary_of_ne hne] at hbinary
            cases hbinary
          rw [tight_finds_blank rfl, tight.finds_space rfl rfl]
          cases r with
          | nil => rfl
          | cons d r =>
              have hd : isBlank d = true := by simpa [startsBinary] using hbinary
              have hkeeps : tight.keeps operand' '-' (d :: r) = true := by
                simp [tight, startsBlank, hd]
              rw [tight.finds_of_keeps rfl hkeeps, endsItems_congr (squeeze_spaceMinusFrom true _)]
              refine congrArg _ (ih true false true (fun _ => rfl) fun hunary => ?_)
              rw [startsUnary_of_ne (ne_minus (.inl hd))] at hunary
              cases hunary
        · rename_i hbinary
          rw [Bool.not_eq_true] at hbinary
          refine Reading.finds_cons_congr (squeeze_spaceMinusFrom _ r) (fun _ hr => ?_)
            (ih false _ _ (fun h => by cases h) fun _ => rfl)
          refine (congrArg (· || _) (startsBlank_spaceMinusFrom hr)).trans ?_
          obtain ⟨d, t, rfl, -⟩ := exists_of_endsItems hr
          cases hd : isBlank d with
          | true => simp [startsBlank, tight, hd]
          | false =>
              by_cases hminus : c = '-'
              · subst hminus
                rw [hstart (by simp [startsUnary, hd])]
                rfl
              · simp [tight, hminus]

end UnaryMinus

/-- The rules that a text is still to go through, of those before the rules for minus signs. -/
structure Pending where
  operators : Bool
  commas : Bool
  dots : Bool

/-- What stands left of a place, as the rules for minus signs will see it. -/
inductive Left
  /-- Nothing that a minus sign takes for an operand. -/
  | apart
  /-- An operand. The second minus sign of a pair is one for the next sign. -/
  | operand
  /-- A dot, and blanks behind it if they are still to be dropped. -/
  | dot
  /-- A minus sign that the next one would make a pair with. -/
  | sign
  deriving DecidableEq, Repr

/-- A minus sign right behind the character is unary, maybe because of a space to come there. -/
def Pending.parts (p : Pending) (c : Char) : Bool :=
  Lexical.isOpener c || c = ':' || p.commas && isComma c || p.operators && isOperator c

namespace Left

/-- A minus sign at this place joins two operands. -/
def joins (l : Left) : Bool :=
  l = .operand || l = .dot

/-- What stands left of the place behind the character. -/
def next (p : Pending) (l : Left) (c : Char) : Left :=
  if isBlank c then if p.dots && l = .dot then .dot else .apart
  else if c = '-' then if l = .sign then .operand else .sign
  else if p.dots && isDot c then .dot
  else if p.parts c then .apart
  else .operand

end Left

/-- The trailing commas that the rules to come leave a blank before: behind an operator and behind a
minus sign that joins two operands. -/
def signed (p : Pending) : Reading Left where
  next := Left.next p
  keeps l c r :=
    !p.commas && startsBlank r || (p.operators && isOperator c || l.joins && c = '-')

section Pairs

/-- Behind the rules for operators, commas and dots. -/
def Pending.none : Pending := ⟨false, false, false⟩

theorem head?_splitMinusPairs (s : List Char) : (splitMinusPairs s).head? = s.head? := by
  fun_cases splitMinusPairs s with
  | case1 => rfl
  | case2 c => rfl
  | case3 c d r h => rw [h.1]; rfl
  | case4 c d r _ => rfl

theorem squeeze_splitMinusPairs (s : List Char) : squeeze (splitMinusPairs s) = squeeze s :=
  Row.squeeze_of_tokens (View.tokens_splitMinusPairs rfl s)

theorem joins_next {c : Char} (hc : c ≠ '-') (l : Left) :
    Left.next .none l c ≠ .sign ∧ (Left.next .none l c).joins = endsOperand c := by
  cases hb : isBlank c with
  | true => simp [Left.next, hb, Pending.none, Left.joins, endsOperand]
  | false =>
      simp only [Left.next, Pending.parts, Pending.none, endsOperand, hb, hc, Bool.false_and,
        Bool.or_false, Bool.false_or, Bool.false_eq_true, if_false]
      split
      · rename_i hparts
        rw [hparts]
        exact ⟨by decide, rfl⟩
      · rename_i hparts
        rw [Bool.not_eq_true] at hparts
        rw [hparts]
        exact ⟨by decide, rfl⟩

theorem keeps_none (l : Left) (c : Char) (r : List Char) :
    (signed .none).keeps l c r = (startsBlank r || l.joins && c = '-') := rfl

/-- A minus sign at the start of the text is not the second one of a pair there, and both readings
agree on whether it joins operands. The induction keeps this up, because the second sign of a pair
is an operand for what follows. -/
theorem finds_splitMinusPairs (operand : Bool) (l : Left) (s : List Char)
    (h : s.head? = some '-' → l ≠ .sign ∧ l.joins = operand) :
    tight.finds operand (splitMinusPairs s) = (signed .none).finds l s := by
  fun_induction splitMinusPairs s generalizing operand l with
  | case1 => rfl
  | case2 c =>
      rw [tight.finds_of_endsItems_eq_false operand c rfl,
        (signed .none).finds_of_endsItems_eq_false l c rfl]
      rfl
  | case3 c d r hpair ih =>
      obtain ⟨rfl, rfl⟩ := hpair
      obtain ⟨hsign, -⟩ := h rfl
      have hnext : Left.next .none l '-' = .sign := by simp [Left.next, hsign, isBlank]
      have hleft : endsItems (' ' :: '-' :: splitMinusPairs r) = false :=
        (endsItems_blank rfl _).trans (endsItems_cons rfl rfl _)
      have hright : endsItems ('-' :: r) = false := endsItems_cons rfl rfl r
      rw [tight.finds_of_endsItems_eq_false operand '-' hleft, tight_finds_blank rfl,
        (signed .none).finds_of_endsItems_eq_false l '-' hright]
      change tight.finds false ('-' :: splitMinusPairs r) =
        (signed .none).finds (Left.next .none l '-') ('-' :: r)
      rw [hnext]
      refine Reading.finds_cons_congr (squeeze_splitMinusPairs r) (fun _ _ => ?_)
        (ih true .operand fun _ => ⟨by decide, rfl⟩)
      exact congrArg (· || _) (congrArg (Option.any isBlank) (head?_splitMinusPairs r))
  | case4 c d r hpair ih =>
      have hstart : startsBlank (splitMinusPairs (d :: r)) = startsBlank (d :: r) :=
        congrArg (Option.any isBlank) (head?_splitMinusPairs (d :: r))
      refine Reading.finds_cons_congr (squeeze_splitMinusPairs _) (fun _ _ => ?_) (ih _ _ ?_)
      · refine (congrArg (· || _) hstart).trans ?_
        by_cases hc : c = '-'
        · rw [keeps_none, (h (by rw [hc]; rfl)).2]
        · simp [keeps_none, hc]
      · intro hd
        have hc : c ≠ '-' := fun hc => hpair ⟨hc, by simpa using hd⟩
        exact joins_next hc l

theorem finds_spaceMinuses (s : List Char) :
    gapped.finds () (spaceMinuses s) = (signed .none).finds .apart s := by
  rw [spaceMinuses, spaceTightMinus, finds_spaceTightMinus, spaceMinus,
    finds_spaceMinusFrom false false false _ (fun _ => rfl) fun _ => rfl, finds_tightenUnary]
  exact finds_splitMinusPairs false .apart s fun _ => ⟨by decide, rfl⟩

end Pairs

section Operators

/-- Behind the rules for commas and dots. -/
def Pending.behindCommas : Pending := ⟨true, false, false⟩

theorem squeeze_spaceOperatorsFrom (after : Bool) (s : List Char) :
    squeeze (spaceOperatorsFrom after s) = squeeze s :=
  Row.squeeze_of_tokens (View.same_spaceOperatorsFrom (fun _ _ => rfl) after s).1

theorem signed_finds_blank {p : Pending} (hp : p.dots = false) {c : Char} (hc : isBlank c = true)
    (l : Left) (r : List Char) : (signed p).finds l (c :: r) = (signed p).finds .apart r := by
  have hnext : Left.next p l c = .apart := by simp [Left.next, hc, hp]
  rw [(signed p).finds_blank l hc, ← hnext]
  rfl

theorem startsBlank_spaceOperatorsFrom {r : List Char} (hr : endsItems r = true) :
    startsBlank (spaceOperatorsFrom false r) = startsBlank r := by
  obtain ⟨d, t, rfl, hd⟩ := exists_of_endsItems hr
  rcases hd with hd | rfl
  · rw [endsItems_blank hd] at hr
    obtain ⟨u, hu⟩ := trimLeft_of_endsItems hr
    have hop : operator? (',' :: u) = none := operator?_eq_none (.inl rfl)
    rw [spaceOperatorsFrom, if_pos hd, hu, hop]
    rfl
  · rw [spaceOperatorsFrom_nonblank rfl (operator?_eq_none (.inl rfl))]
    rfl

/-- An operator is one sign, or a sign with an equals sign behind it. -/
theorem operator?_cases {c : Char} {r op rest : List Char}
    (h : operator? (c :: r) = some (op, rest)) :
    isOperator c = true ∧ op = [c] ∧ rest = r ∨ op = [c, '='] ∧ r = '=' :: rest := by
  rw [operator?_cons] at h
  split at h
  · rename_i hpair
    cases h
    cases r with
    | nil => cases hpair.2
    | cons d r =>
        obtain rfl : d = '=' := by simpa using hpair.2
        exact .inr ⟨rfl, rfl⟩
  · split at h
    · rename_i hop
      cases h
      exact .inl ⟨hop, rfl, rfl⟩
    · cases h

theorem isItem_of_takesEquals {c : Char} (hc : takesEquals c = true) : isItem c = true :=
  all_of_takesEquals (by decide) hc

theorem next_operator {c : Char} (hc : isOperator c = true) (l : Left) :
    Left.next .behindCommas l c = .apart := by
  have hblank : isBlank c = false := isBlank_of_takesEquals (takesEquals_of_isOperator hc)
  have hminus : c ≠ '-' := by
    rintro rfl
    cases hc
  simp [Left.next, hblank, hminus, Pending.parts, Pending.behindCommas, hc]

theorem signed_finds_operator {c : Char} (hc : isOperator c = true) (l : Left) (r : List Char) :
    (signed .behindCommas).finds l (c :: r) =
      (endsItems r || (signed .behindCommas).finds .apart r) := by
  have hitem := isItem_of_takesEquals (takesEquals_of_isOperator hc)
  have hkeeps : (signed .behindCommas).keeps l c r = true := by
    simp [signed, Pending.behindCommas, hc]
  rw [(signed .behindCommas).finds_of_keeps hitem hkeeps, ← next_operator hc l]
  rfl

/-- Left of an operator ahead nothing matters, as a space comes to stand there. -/
theorem finds_spaceOperatorsFrom (after : Bool) (l l' : Left) (s : List Char)
    (hafter : after = true → l = .apart)
    (h : l = l' ∨ (operator? (trimLeft s)).isSome = true) :
    (signed .none).finds l (spaceOperatorsFrom after s) = (signed .behindCommas).finds l' s := by
  fun_induction spaceOperatorsFrom after s generalizing l l' with
  | case1 => rfl
  | case2 after c r hc hop ih =>
      rw [signed_finds_blank rfl hc]
      rw [Bool.or_eq_true] at hop
      exact ih l .apart hafter (hop.imp_left hafter)
  | case3 after c r hc hop ih =>
      rw [signed_finds_blank rfl hc, signed_finds_blank rfl hc]
      exact ih .apart .apart (fun h => by cases h) (.inl rfl)
  | case4 after c r hc op rest hop ih =>
      have hspace : ∀ {l : Left} {c : Char} (t : List Char), isItem c = true →
          (signed .none).finds l (c :: ' ' :: t) =
            (endsItems t || (signed .none).finds .apart t) :=
        fun t hitem => (signed .none).finds_space hitem rfl
      have ih := ih .apart .apart (fun _ => rfl) (.inl rfl)
      have hends := endsItems_congr (squeeze_spaceOperatorsFrom true rest)
      rw [List.cons_append, signed_finds_blank rfl rfl]
      rcases operator?_cases hop with ⟨hsign, rfl, rfl⟩ | ⟨rfl, rfl⟩
      · rw [signed_finds_operator hsign, ← ih, ← hends]
        exact hspace _ (isItem_of_takesEquals (takesEquals_of_isOperator hsign))
      · have hequals : ∀ t : List Char, endsItems ('=' :: t) = false := endsItems_cons rfl rfl
        rw [(signed .behindCommas).finds_of_endsItems_eq_false l' c (hequals rest),
          signed_finds_operator rfl, ← ih, ← hends]
        exact ((signed .none).finds_of_endsItems_eq_false _ c (hequals _)).trans (hspace _ rfl)
  | case5 after c r hc hop ih =>
      rw [Bool.not_eq_true] at hc
      have hsame : l = l' := by
        rw [trimLeft_eq_self (by simpa using hc), hop] at h
        simpa using h
      subst hsame
      have hsign : isOperator c = false := isOperator_of_operator?_eq_none hop
      refine Reading.finds_cons_congr (squeeze_spaceOperatorsFrom false r) (fun _ hr => ?_) ?_
      · refine (congrArg (· || _) (startsBlank_spaceOperatorsFrom hr)).trans ?_
        simp [signed, Pending.none, Pending.behindCommas, hsign]
      · have hnext : Left.next .none l c = Left.next .behindCommas l c := by
          simp [Left.next, Pending.parts, Pending.none, Pending.behindCommas, hsign]
        exact ih _ _ (fun h => by cases h) (.inl hnext)

theorem finds_spaceOperators (l : Left) (s : List Char) :
    (signed .none).finds l (spaceOperators s) = (signed .behindCommas).finds l s :=
  finds_spaceOperatorsFrom false l l s (fun h => by cases h) (.inl rfl)

end Operators

end Spacing
end MiniScriptLayout
