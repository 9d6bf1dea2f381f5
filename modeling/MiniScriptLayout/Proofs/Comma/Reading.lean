import MiniScriptLayout.Proofs.Expression.Number
import MiniScriptLayout.Proofs.Preservation

/-!
Commas before the end of a list or map. The rule for them takes the character before the comma and
the bracket behind it together, so it misses a comma with a blank before it, and of two commas with
only a bracket between them the second one. What the rules before it leave there is followed with
readings: automata that find an item by what stands before it, while what stands behind it is the
same but for blanks.
-/

namespace MiniScriptLayout

open Text

theorem Text.of_mem_cutOne {p : Char → Bool} {c : Char} {s : List Char} (hc : c ∈ (cutOne p s).1) :
    p c = true := by
  cases s with
  | nil => cases hc
  | cons d s =>
      rw [cutOne] at hc
      split at hc
      · rename_i hd
        rwa [List.mem_singleton.1 hc]
      · cases hc

namespace Spacing

/-- Neither a comma nor a blank. -/
def isItem (c : Char) : Bool :=
  !isComma c && !isBlank c

/-- But for blanks, the text goes on with a comma and the end of a list or map. -/
def endsItems (s : List Char) : Bool :=
  (squeeze s)[0]?.any isComma && (squeeze s)[1]?.any closesItems

/-- But for blanks, the text goes on with a comma, the end of a list or map, and the same again. -/
def endsItemsTwice (s : List Char) : Bool :=
  endsItems s && endsItems ((squeeze s).drop 2)

/-- A comma behind an item and before the end of a list or map. -/
def HasTrailingComma (s : List Char) : Prop :=
  ∃ before item r, s = before ++ item :: r ∧ isItem item = true ∧ endsItems r = true

/-- An automaton that goes through a text and keeps some of the trailing commas it meets, by its
state at the item before the comma, the item, and the text behind. -/
structure Reading (σ : Type) where
  next : σ → Char → σ
  keeps : σ → Char → List Char → Bool

namespace Reading

variable {σ : Type}

/-- There is a comma that is kept, or one that has another one right behind its bracket. -/
def finds (R : Reading σ) : σ → List Char → Bool
  | _, [] => false
  | st, c :: r =>
    isItem c && (endsItemsTwice r || endsItems r && R.keeps st c r) || R.finds (R.next st c) r

theorem finds_iff (R : Reading σ) (st : σ) (s : List Char) :
    R.finds st s = true ↔ ∃ before item r, s = before ++ item :: r ∧ isItem item = true ∧
      (endsItemsTwice r = true ∨
        endsItems r = true ∧ R.keeps (before.foldl R.next st) item r = true) := by
  induction s generalizing st with
  | nil => simp [finds]
  | cons c s ih =>
      rw [finds, Bool.or_eq_true, ih]
      constructor
      · rintro (h | ⟨before, item, r, rfl, h⟩)
        · exact ⟨[], c, s, rfl, by simpa using h⟩
        · exact ⟨c :: before, item, r, rfl, h⟩
      · rintro ⟨before, item, r, hs, h⟩
        cases before with
        | nil =>
            cases hs
            exact .inl (by simpa using h)
        | cons d before =>
            cases hs
            exact .inr ⟨before, item, r, rfl, h⟩

theorem finds_of_not_isItem (R : Reading σ) (st : σ) {c : Char} (hc : isItem c = false)
    (r : List Char) : R.finds st (c :: r) = R.finds (R.next st c) r := by
  rw [finds, hc, Bool.false_and, Bool.false_or]

theorem finds_blank (R : Reading σ) (st : σ) {c : Char} (hc : isBlank c = true) (r : List Char) :
    R.finds st (c :: r) = R.finds (R.next st c) r :=
  R.finds_of_not_isItem st (by simp [isItem, hc]) r

end Reading

section Ends

theorem squeeze_cons {c : Char} (hc : isBlank c = false) (s : List Char) :
    squeeze (c :: s) = c :: squeeze s := by
  simp [squeeze, hc]

theorem squeeze_squeeze (s : List Char) : squeeze (squeeze s) = squeeze s := by
  simp [squeeze]

theorem squeeze_trimLeft (s : List Char) : squeeze (trimLeft s) = squeeze s := by
  obtain ⟨gap, hgap, hs⟩ := exists_blanks_trimLeft s
  conv => rhs; rw [hs, squeeze_append, squeeze_blanks hgap, List.nil_append]

theorem isBlank_of_isItem {c : Char} (hc : isItem c = true) : isBlank c = false := by
  simp only [isItem, Bool.and_eq_true, Bool.not_eq_true'] at hc
  exact hc.2

theorem isComma_of_isItem {c : Char} (hc : isItem c = true) : isComma c = false := by
  simp only [isItem, Bool.and_eq_true, Bool.not_eq_true'] at hc
  exact hc.1

theorem isComma_of_isBlank {c : Char} (hc : isBlank c = true) : isComma c = false := by
  refine decide_eq_false ?_
  rintro rfl
  cases hc

theorem endsItems_congr {s t : List Char} (h : squeeze s = squeeze t) :
    endsItems s = endsItems t := by
  rw [endsItems, endsItems, h]

theorem endsItemsTwice_congr {s t : List Char} (h : squeeze s = squeeze t) :
    endsItemsTwice s = endsItemsTwice t := by
  rw [endsItemsTwice, endsItemsTwice, endsItems_congr h, h]

theorem endsItems_of_twice {s : List Char} (h : endsItemsTwice s = true) : endsItems s = true := by
  rw [endsItemsTwice, Bool.and_eq_true] at h
  exact h.1

theorem endsItems_blank {c : Char} (hc : isBlank c = true) (s : List Char) :
    endsItems (c :: s) = endsItems s :=
  endsItems_congr (squeeze_cons_blank hc s)

/-- Right behind an item there is no end unless a comma stands between them. -/
theorem endsItems_cons {c : Char} (hb : isBlank c = false) (hc : isComma c = false)
    (s : List Char) : endsItems (c :: s) = false := by
  simp [endsItems, squeeze_cons hb, hc]

theorem endsItems_comma (s : List Char) :
    endsItems (',' :: s) = (squeeze s)[0]?.any closesItems := by
  have hcomma : isBlank ',' = false := rfl
  simp [endsItems, squeeze_cons hcomma, isComma]

theorem head?_squeeze_cons_congr (c : Char) {s t : List Char}
    (h : (squeeze s)[0]? = (squeeze t)[0]?) : (squeeze (c :: s))[0]? = (squeeze (c :: t))[0]? := by
  cases hb : isBlank c with
  | true => rw [squeeze_cons_blank hb, squeeze_cons_blank hb, h]
  | false =>
      rw [squeeze_cons hb, squeeze_cons hb]
      rfl

/-- The ends behind a character depend on the next one, and on those behind a blank. -/
theorem endsItems_cons_congr (c : Char) {s t : List Char}
    (hhead : (squeeze s)[0]? = (squeeze t)[0]?) (h : endsItems s = endsItems t) :
    endsItems (c :: s) = endsItems (c :: t) := by
  cases hb : isBlank c with
  | true => rw [endsItems_blank hb, endsItems_blank hb, h]
  | false => simp [endsItems, squeeze_cons hb, hhead]

/-- Blanks aside, a comma comes first. -/
theorem exists_of_endsItems {s : List Char} (h : endsItems s = true) :
    ∃ c r, s = c :: r ∧ (isBlank c = true ∨ c = ',') := by
  cases s with
  | nil => cases h
  | cons c r =>
      refine ⟨c, r, rfl, or_iff_not_imp_left.2 fun hb => ?_⟩
      rw [Bool.not_eq_true] at hb
      cases hc : isComma c with
      | true => exact of_decide_eq_true hc
      | false => exact absurd ((endsItems_cons hb hc r).symm.trans h) Bool.false_ne_true

namespace Reading

variable {σ τ : Type} (R : Reading σ) {st : σ} {c : Char} {r : List Char}

theorem finds_of_keeps (hc : isItem c = true) (hkeeps : R.keeps st c r = true) :
    R.finds st (c :: r) = (endsItems r || R.finds (R.next st c) r) := by
  cases htwice : endsItemsTwice r with
  | true => rw [finds, hc, htwice, endsItems_of_twice htwice, Bool.true_or, Bool.true_and]
  | false => rw [finds, hc, htwice, hkeeps, Bool.and_true, Bool.false_or, Bool.true_and]

/-- Two readings go on alike from a character if they keep the comma behind it alike. -/
theorem finds_cons_congr {R : Reading σ} {R' : Reading τ} {st : σ} {st' : τ} {c : Char}
    {s t : List Char} (hsqueeze : squeeze s = squeeze t)
    (hkeeps : isItem c = true → endsItems t = true → R.keeps st c s = R'.keeps st' c t)
    (h : R.finds (R.next st c) s = R'.finds (R'.next st' c) t) :
    R.finds st (c :: s) = R'.finds st' (c :: t) := by
  rw [finds, finds, endsItems_congr hsqueeze, endsItemsTwice_congr hsqueeze, h]
  cases hc : isItem c with
  | false => rfl
  | true =>
      cases ht : endsItems t with
      | false => rfl
      | true => rw [hkeeps hc ht]

theorem finds_of_endsItems_eq_false (st : σ) (c : Char) (h : endsItems r = false) :
    R.finds st (c :: r) = R.finds (R.next st c) r := by
  have htwice : endsItemsTwice r = false := by rw [endsItemsTwice, h, Bool.false_and]
  rw [finds, h, htwice, Bool.false_and, Bool.false_or, Bool.and_false, Bool.false_or]

end Reading

end Ends

section Rest

/-- What comes before an item hides the end behind it. -/
theorem endsItems_append_cons {x : List Char} (hx : ∀ c ∈ x, isComma c = false) {d : Char}
    (hd : isItem d = true) (r : List Char) : endsItems (x ++ d :: r) = false := by
  induction x with
  | nil => exact endsItems_cons (isBlank_of_isItem hd) (isComma_of_isItem hd) r
  | cons c x ih =>
      rw [List.forall_mem_cons] at hx
      cases hb : isBlank c with
      | true => exact (endsItems_blank hb _).trans (ih hx.2)
      | false => exact endsItems_cons hb hx.1 _

/-- A reading without states finds nothing before the last item of a text without commas. -/
theorem finds_append_cons (R : Reading Unit) {x : List Char} (hx : ∀ c ∈ x, isComma c = false)
    {d : Char} (hd : isItem d = true) (r : List Char) :
    R.finds () (x ++ d :: r) = R.finds () (d :: r) := by
  induction x with
  | nil => rfl
  | cons c x ih =>
      rw [List.forall_mem_cons] at hx
      exact (R.finds_of_endsItems_eq_false () c (endsItems_append_cons hx.2 hd r)).trans (ih hx.2)

/-- A reading without states passes over blanks. -/
theorem finds_trimLeft (R : Reading Unit) (s : List Char) :
    R.finds () (trimLeft s) = R.finds () s := by
  induction s with
  | nil => rfl
  | cons c s ih =>
      cases hc : isBlank c with
      | true =>
          rw [R.finds_blank () hc, ← ih]
          simp [trimLeft, hc]
      | false => rw [trimLeft_eq_self (by simpa using hc)]

end Rest

section TrailingCommas

/-- Any trailing comma. -/
def anyComma : Reading Unit where
  next _ _ := ()
  keeps _ _ _ := true

/-- The trailing commas that have a blank before them. -/
def gapped : Reading Unit where
  next _ _ := ()
  keeps _ _ r := startsBlank r

theorem finds_anyComma (s : List Char) : anyComma.finds () s = true ↔ HasTrailingComma s := by
  rw [Reading.finds_iff, HasTrailingComma]
  refine exists_congr fun before => exists_congr fun item => exists_congr fun r => ?_
  refine and_congr_right fun _ => and_congr_right fun _ => ⟨?_, fun h => .inr ⟨h, rfl⟩⟩
  rintro (h | ⟨h, -⟩)
  · exact endsItems_of_twice h
  · exact h

theorem anyComma_cons (c : Char) (r : List Char) :
    anyComma.finds () (c :: r) = (isItem c && endsItems r || anyComma.finds () r) := by
  cases hc : isItem c with
  | true => exact anyComma.finds_of_keeps hc rfl
  | false => exact anyComma.finds_of_not_isItem () hc r

theorem anyComma_append_cons {x : List Char} (hx : ∀ c ∈ x, isComma c = false) {d : Char}
    (hd : isItem d = true) (r : List Char) :
    anyComma.finds () (x ++ d :: r) = (endsItems r || anyComma.finds () r) := by
  rw [finds_append_cons anyComma hx hd, anyComma_cons, hd, Bool.true_and]

theorem head?_squeeze_dropTrailingCommas (s : List Char) :
    (squeeze (dropTrailingCommas s))[0]? = (squeeze s)[0]? := by
  fun_induction dropTrailingCommas s with
  | case1 => rfl
  | case2 c => rfl
  | case3 c d r _ _ ih => exact head?_squeeze_cons_congr c ih
  | case4 c d r hc e rest _ _ ih =>
      simp only [Bool.and_eq_true, Bool.not_eq_true'] at hc
      rw [squeeze_cons hc.1.2, squeeze_cons hc.1.2]
      rfl
  | case5 c d r _ e rest _ _ ih => exact head?_squeeze_cons_congr c ih
  | case6 c d r _ ih => exact head?_squeeze_cons_congr c ih

theorem endsItems_dropTrailingCommas (s : List Char) :
    endsItems (dropTrailingCommas s) = endsItems s := by
  fun_induction dropTrailingCommas s with
  | case1 => rfl
  | case2 c => rfl
  | case3 c d r _ _ ih => exact endsItems_cons_congr c (head?_squeeze_dropTrailingCommas _) ih
  | case4 c d r hc e rest _ _ ih =>
      simp only [Bool.and_eq_true, Bool.not_eq_true'] at hc
      rw [endsItems_cons hc.1.2 hc.1.1, endsItems_cons hc.1.2 hc.1.1]
  | case5 c d r _ e rest _ _ ih =>
      exact endsItems_cons_congr c (head?_squeeze_dropTrailingCommas _) ih
  | case6 c d r _ ih => exact endsItems_cons_congr c (head?_squeeze_dropTrailingCommas _) ih

theorem finds_dropTrailingCommas (s : List Char) :
    anyComma.finds () (dropTrailingCommas s) = gapped.finds () s := by
  have hkeep : ∀ {c : Char} {r : List Char},
      anyComma.finds () (dropTrailingCommas r) = gapped.finds () r → endsItems r = false →
        anyComma.finds () (c :: dropTrailingCommas r) = gapped.finds () (c :: r) := by
    intro c r ih hr
    rw [anyComma_cons, endsItems_dropTrailingCommas, hr, ih,
      gapped.finds_of_endsItems_eq_false () c hr, Bool.and_false, Bool.false_or]
  fun_induction dropTrailingCommas s with
  | case1 => rfl
  | case2 c =>
      rw [anyComma_cons, Reading.finds]
      rfl
  | case3 c d r hc hr ih =>
      obtain ⟨-, rfl⟩ : _ ∧ d = ',' := by simpa [isComma] using hc
      refine hkeep ih ?_
      rw [endsItems_comma, ← squeeze_trimLeft, hr]
      rfl
  | case4 c d r hc e rest hr he ih =>
      obtain ⟨⟨hcomma, hblank⟩, rfl⟩ : (isComma c = false ∧ isBlank c = false) ∧ d = ',' := by
        simpa [isComma] using hc
      have hitem : isItem c = true := by simp [isItem, hcomma, hblank]
      obtain ⟨he', heitem⟩ : isBlank e = false ∧ isComma e = false := by
        simp only [closesItems, Bool.or_eq_true, decide_eq_true_eq] at he
        rcases he with rfl | rfl <;> exact ⟨rfl, rfl⟩
      have hsqueeze : squeeze (',' :: r) = ',' :: e :: squeeze rest := by
        rw [squeeze_cons rfl, ← squeeze_trimLeft r, hr, squeeze_cons he']
      have htwice : endsItemsTwice (',' :: r) = endsItems rest := by
        have hends : endsItems (',' :: r) = true := by simp [endsItems, hsqueeze, isComma, he]
        rw [endsItemsTwice, hends, hsqueeze, Bool.true_and]
        exact endsItems_congr (squeeze_squeeze rest)
      have hstart : startsBlank (',' :: r) = false := rfl
      -- the bracket is the item before the second comma, which the rule does not see
      have hleft : anyComma.finds () (c :: e :: dropTrailingCommas rest) =
          (endsItems rest || gapped.finds () rest) := by
        have hclose : isItem e = true := by simp [isItem, he', heitem]
        rw [anyComma_cons, endsItems_cons he' heitem, Bool.and_false, Bool.false_or, anyComma_cons,
          hclose, endsItems_dropTrailingCommas, ih, Bool.true_and]
      have hright : gapped.finds () (c :: ',' :: r) =
          (endsItems rest || gapped.finds () (e :: rest)) := by
        rw [Reading.finds, hitem, htwice, gapped.finds_of_not_isItem _ rfl, ← hr, finds_trimLeft]
        simp [gapped, startsBlank, isBlank]
      rw [hleft, hright]
      cases hends : endsItems rest with
      | true => rw [Bool.true_or, Bool.true_or]
      | false => rw [gapped.finds_of_endsItems_eq_false () e hends]
  | case5 c d r hc e rest hr he ih =>
      obtain ⟨-, rfl⟩ : _ ∧ d = ',' := by simpa [isComma] using hc
      have hblank : isBlank e = false := head?_trimLeft r e (by rw [hr]; rfl)
      refine hkeep ih ?_
      rw [endsItems_comma, ← squeeze_trimLeft, hr, squeeze_cons hblank]
      simpa using he
  | case6 c d r hc ih =>
      cases hends : endsItems (d :: r) with
      | false => exact hkeep ih hends
      | true =>
          rw [anyComma_cons, endsItems_dropTrailingCommas, ih, hends]
          cases hitem : isItem c with
          | false => rw [gapped.finds_of_not_isItem () hitem, Bool.false_and, Bool.false_or]
          | true =>
              have hcomma : isComma d = false := by
                rw [← isItem, hitem] at hc
                simpa using hc
              -- as a comma comes next, but not at once, a blank does
              have hblank : isBlank d = true := by
                cases hb : isBlank d with
                | true => rfl
                | false => exact absurd ((endsItems_cons hb hcomma r).symm.trans hends) (by decide)
              have hgap : gapped.keeps () c (d :: r) = true := hblank
              rw [gapped.finds_of_keeps hitem hgap, hends, Bool.and_self, Bool.true_or]

end TrailingCommas

section Parameters

theorem head?_squeeze_dropEmptyParameters (inName : Bool) (s : List Char) :
    (squeeze (dropEmptyParametersFrom inName s))[0]? = (squeeze s)[0]? := by
  fun_induction dropEmptyParametersFrom inName s with
  | case1 => rfl
  | case2 c r ih => exact head?_squeeze_cons_congr c ih
  | case3 inName c r _ rest hread ih =>
      obtain ⟨gap₁, gap₂, hs, -⟩ := emptyParameters?_eq_some hread
      rw [hs]
      rfl
  | case4 inName c r _ _ ih => exact head?_squeeze_cons_congr c ih

theorem endsItems_dropEmptyParameters (inName : Bool) (s : List Char) :
    endsItems (dropEmptyParametersFrom inName s) = endsItems s := by
  fun_induction dropEmptyParametersFrom inName s with
  | case1 => rfl
  | case2 c r ih => exact endsItems_cons_congr c (head?_squeeze_dropEmptyParameters _ _) ih
  | case3 inName c r _ rest hread ih =>
      obtain ⟨gap₁, gap₂, hs, -⟩ := emptyParameters?_eq_some hread
      rw [hs]
      exact (endsItems_cons (c := 'f') rfl rfl _).trans (endsItems_cons (c := 'f') rfl rfl _).symm
  | case4 inName c r _ _ ih =>
      exact endsItems_cons_congr c (head?_squeeze_dropEmptyParameters _ _) ih

/-- A comma behind the parentheses that are dropped is behind `function` then. -/
theorem finds_dropEmptyParameters (inName : Bool) (s : List Char) :
    anyComma.finds () (dropEmptyParametersFrom inName s) = anyComma.finds () s := by
  fun_induction dropEmptyParametersFrom inName s with
  | case1 => rfl
  | case2 c r ih => rw [anyComma_cons, anyComma_cons, endsItems_dropEmptyParameters, ih]
  | case3 inName c r _ rest hread ih =>
      obtain ⟨gap₁, gap₂, hs, hgap⟩ := emptyParameters?_eq_some hread
      have hword : ∀ c ∈ Lexical.Keyword.functionWord.spelling, isComma c = false := by
        simp [Lexical.Keyword.spelling, isComma]
      have hopen : ∀ c ∈ Lexical.Keyword.functionWord.spelling ++ (gap₁ ++ '(' :: gap₂),
          isComma c = false := by
        intro c hc
        simp only [List.mem_append, List.mem_cons] at hc
        rcases hc with hc | hc | rfl | hc
        · exact hword c hc
        · exact isComma_of_isBlank (hgap c (List.mem_append_left _ hc))
        · rfl
        · exact isComma_of_isBlank (hgap c (List.mem_append_right _ hc))
      have hright := anyComma_append_cons hopen (d := ')') rfl rest
      have hleft := anyComma_append_cons (x := ['f', 'u', 'n', 'c', 't', 'i', 'o'])
        (by simp [isComma]) (d := 'n') rfl (dropEmptyParametersFrom false rest)
      rw [endsItems_dropEmptyParameters, ih, ← hright] at hleft
      have hsplit : c :: r = Lexical.Keyword.functionWord.spelling ++ (gap₁ ++ '(' :: gap₂) ++
          ')' :: rest := by
        rw [hs]
        simp
      rw [hsplit]
      exact hleft
  | case4 inName c r _ _ ih => rw [anyComma_cons, anyComma_cons, endsItems_dropEmptyParameters, ih]

end Parameters

section Exponents

namespace Scientific

theorem isItem_of_isWordChar {c : Char} (hc : Expression.isWordChar c = true) :
    isItem c = true := by
  have hcomma : isComma c = false := decide_eq_false (Expression.ne_of_isWordChar hc rfl)
  simp [isItem, hcomma, Expression.isBlank_of_isWordChar hc]

theorem isItem_of_isAsciiDigit {c : Char} (hc : isAsciiDigit c = true) : isItem c = true :=
  isItem_of_isWordChar (Expression.isWordChar_of_isAsciiDigit hc)

/-- A mantissa is not empty and holds no comma. -/
theorem mantissa_of_read {s m r : List Char} (h : readMantissa? s = some (m, r)) :
    m ≠ [] ∧ ∀ c ∈ m, isItem c = true := by
  have hdot : ∀ {c : Char} {s : List Char}, c ∈ (cutOne (· = '.') s).1 → isItem c = true := by
    intro c s hc
    obtain rfl : c = '.' := of_decide_eq_true (of_mem_cutOne hc)
    rfl
  have hdigits : ∀ {c : Char} {s : List Char}, c ∈ s.takeWhile isAsciiDigit → isItem c = true :=
    fun hc => isItem_of_isAsciiDigit (List.mem_takeWhile_imp hc)
  simp only [readMantissa?] at h
  split at h
  · cases h
  · rename_i hwhole
    simp only [Option.some.injEq, Prod.mk.injEq] at h
    obtain ⟨rfl, -⟩ := h
    constructor
    · intro hnil
      simp only [List.append_eq_nil_iff] at hnil
      exact hwhole (by rw [hnil.1.1.2]; rfl)
    · intro c hc
      simp only [List.mem_append] at hc
      rcases hc with ((hc | hc) | hc) | hc
      · exact hdot hc
      · exact hdigits hc
      · exact hdot hc
      · exact hdigits hc

/-- A number that is read begins with an item and ends in one, and holds no comma. -/
theorem read?_items {s r : List Char} {n : Scientific} (h : read? s = some (n, r)) :
    (n.mantissa ≠ [] ∧ ∀ c ∈ n.mantissa, isItem c = true) ∧
      n.exponent ≠ [] ∧ ∀ c ∈ n.exponent, isItem c = true := by
  unfold read? at h
  split at h
  · cases h
  · rename_i m rest hm
    split at h
    · cases h
    · split at h
      · simp only [readExponent?] at h
        split at h
        · cases h
        · rename_i hexponent
          simp only [Option.some.injEq, Prod.mk.injEq] at h
          obtain ⟨rfl, -⟩ := h
          refine ⟨mantissa_of_read hm, ?_, fun c hc => ?_⟩
          · simpa using hexponent
          · exact isItem_of_isAsciiDigit (List.mem_takeWhile_imp hc)
      · cases h

end Scientific

theorem squeeze_joinExponents (inName : Bool) (s : List Char) :
    squeeze (joinExponentsFrom inName s) = squeeze s :=
  Row.squeeze_of_tokens
    (View.same_joinExponentsFrom rfl rfl inName s fun he => absurd he (by decide)).1

theorem head?_joinExponents (inName : Bool) (s : List Char) :
    (joinExponentsFrom inName s).head? = s.head? := by
  fun_cases joinExponentsFrom inName s with
  | case1 => rfl
  | case2 c r => rfl
  | case3 c r _ n rest hread =>
      obtain ⟨gap₁, gap₂, gap₃, hs, -⟩ := Scientific.read?_eq_some hread
      obtain ⟨d, m, hm⟩ := List.exists_cons_of_ne_nil (Scientific.read?_items hread).1.1
      rw [hs, Scientific.text, hm]
      rfl
  | case4 c r => rfl

theorem gapped_cons_congr (c : Char) {s t : List Char} (hsqueeze : squeeze s = squeeze t)
    (hhead : s.head? = t.head?) (h : gapped.finds () s = gapped.finds () t) :
    gapped.finds () (c :: s) = gapped.finds () (c :: t) :=
  Reading.finds_cons_congr hsqueeze (fun _ _ => congrArg (Option.any isBlank) hhead) h

theorem finds_joinExponents (inName : Bool) (s : List Char) :
    gapped.finds () (joinExponentsFrom inName s) = gapped.finds () s := by
  fun_induction joinExponentsFrom inName s with
  | case1 => rfl
  | case2 c r ih =>
      exact gapped_cons_congr c (squeeze_joinExponents _ r) (head?_joinExponents _ r) ih
  | case3 inName c r _ n rest hread ih =>
      obtain ⟨gap₁, gap₂, gap₃, hs, hgap, hsign⟩ := Scientific.read?_eq_some hread
      obtain ⟨⟨-, hmantissa⟩, hne, hexponent⟩ := Scientific.read?_items hread
      obtain ⟨digits, d, hlast⟩ : ∃ digits d, n.exponent = digits ++ [d] :=
        ⟨_, _, (List.dropLast_append_getLast hne).symm⟩
      have hspaced : ∀ c ∈ n.mantissa ++ (gap₁ ++ 'e' :: (gap₂ ++ (n.sign ++ (gap₃ ++ digits)))),
          isComma c = false := by
        intro c hc
        simp only [List.mem_append, List.mem_cons] at hc
        rcases hc with hc | hc | rfl | hc | hc | hc | hc
        · exact isComma_of_isItem (hmantissa c hc)
        · exact isComma_of_isBlank (hgap c (by simp [hc]))
        · rfl
        · exact isComma_of_isBlank (hgap c (by simp [hc]))
        · rcases hsign with hnil | ⟨sign, hsign, heq⟩
          · simp [hnil] at hc
          · rw [heq, List.mem_singleton] at hc
            rcases hsign with rfl | rfl <;> rw [hc] <;> rfl
        · exact isComma_of_isBlank (hgap c (by simp [hc]))
        · exact isComma_of_isItem (hexponent c (by simp [hlast, hc]))
      have hjoined : ∀ c ∈ n.mantissa ++ 'e' :: (n.sign ++ digits), isComma c = false := by
        intro c hc
        refine hspaced c ?_
        simp only [List.mem_append, List.mem_cons] at hc ⊢
        tauto
      have hd : isItem d = true := hexponent d (by simp [hlast])
      have hleft := finds_append_cons gapped hjoined hd (joinExponentsFrom true rest)
      have hright := finds_append_cons gapped hspaced hd rest
      rw [gapped_cons_congr d (squeeze_joinExponents true rest) (head?_joinExponents true rest) ih,
        ← hright] at hleft
      rw [hs, Scientific.text, hlast]
      simpa using hleft
  | case4 inName c r _ _ ih =>
      exact gapped_cons_congr c (squeeze_joinExponents _ r) (head?_joinExponents _ r) ih

end Exponents

end Spacing
end MiniScriptLayout
