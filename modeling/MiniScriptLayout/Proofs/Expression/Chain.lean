import MiniScriptLayout.Proofs.Token.Line

/-!
Words with signs between them. Of the spacing rules those for dots, brackets and commas change
nothing there, and those for operators and minus signs leave one space on each side of every sign
and none behind a unary minus. Each rule is followed from the end of one word to the end of the
next one, where it is in the same state again.
-/

namespace MiniScriptLayout
namespace Expression

open Text Spacing

/-- The characters of names and numbers: underscores, ASCII letters and digits, and dots. -/
def isWordChar (c : Char) : Bool :=
  c = '_' || ('a' ≤ c && c ≤ 'z') || ('A' ≤ c && c ≤ 'Z') || isAsciiDigit c || c = '.'

/-- A name or a part of a number. A dot stands inside of it. -/
structure IsWord (w : List Char) : Prop where
  ne_nil : w ≠ []
  chars : ∀ c ∈ w, isWordChar c = true
  head : w.head? ≠ some '.'
  last : w.getLast? ≠ some '.'

/-- The operators other than the minus sign. -/
def operators : List (List Char) :=
  [['+'], ['*'], ['/'], ['%'], ['^'], ['<'], ['>'], ['='], ['=', '='], ['!', '='], ['<', '='],
    ['>', '='], ['+', '='], ['-', '='], ['*', '='], ['/', '='], ['%', '='], ['^', '=']]

/-- A word, with a minus sign in front if it is negated. -/
def operand (negated : Bool) (word : List Char) : List Char :=
  if negated then '-' :: word else word

/-- A sign behind a word, the blanks on its sides, and the next word. -/
structure Link where
  before : List Char
  sign : List Char
  behind : List Char
  negated : Bool
  word : List Char

namespace Link

def text (l : Link) : List Char :=
  l.before ++ (l.sign ++ (l.behind ++ operand l.negated l.word))

/-- An operator, or a minus sign between two words without blanks or with a blank behind it. -/
structure Valid (l : Link) : Prop where
  before : ∀ c ∈ l.before, isBlank c = true
  behind : ∀ c ∈ l.behind, isBlank c = true
  sign : l.sign ∈ operators ∨ l.sign = ['-'] ∧ (l.behind = [] → l.before = [])
  word : IsWord l.word

/-- The link with one space on each side of its sign. -/
def spaced (l : Link) : Link :=
  { l with before := [' '], behind := [' '] }

end Link

/-- Links one behind the other. -/
def chain (links : List Link) : List Char :=
  links.flatMap Link.text

theorem chain_cons (l : Link) (links : List Link) : chain (l :: links) = l.text ++ chain links :=
  List.flatMap_cons

/-- A rule that takes every link to another one, whatever comes behind, does so along a chain. -/
theorem map_chain {f : List Char → List Char} (step : Link → Link) {links : List Link}
    (hnil : f [] = [])
    (h : ∀ l ∈ links, ∀ r, f (l.text ++ r) = (step l).text ++ f r) :
    f (chain links) = chain (links.map step) := by
  induction links with
  | nil => exact hnil
  | cons l links ih =>
      rw [List.forall_mem_cons] at h
      rw [chain_cons, h.1, ih h.2, List.map_cons, chain_cons]

/-- A rule that takes over every character of a text on its own takes over the text. -/
theorem append_of_passes {f : List Char → List Char} {s : List Char}
    (h : ∀ c ∈ s, ∀ r, f (c :: r) = c :: f r) (r : List Char) : f (s ++ r) = s ++ f r := by
  induction s with
  | nil => rfl
  | cons c s ih =>
      rw [List.forall_mem_cons] at h
      rw [List.cons_append, h.1, ih h.2, List.cons_append]

section Characters

variable {c : Char}

theorem ne_of_isWordChar (hc : isWordChar c = true) {d : Char} (hd : isWordChar d = false) :
    c ≠ d := by
  rintro rfl
  rw [hd] at hc
  cases hc

theorem isBlank_of_isWordChar (hc : isWordChar c = true) : isBlank c = false := by
  have hlow : 0x2E ≤ c.toNat ∧ c.toNat ≤ 0x7A := by
    simp only [isWordChar, isAsciiDigit, Bool.or_eq_true, Bool.and_eq_true, decide_eq_true_eq,
      Char.le_def, UInt32.le_iff_toNat_le] at hc
    rcases hc with (((rfl | h) | h) | h) | rfl
    · decide
    · exact ⟨le_trans (by decide) h.1, h.2⟩
    · exact ⟨le_trans (by decide) h.1, le_trans h.2 (by decide)⟩
    · exact ⟨le_trans (by decide) h.1, le_trans h.2 (by decide)⟩
    · decide
  simp only [Text.isBlank, Bool.or_eq_false_iff, Bool.and_eq_false_iff, decide_eq_false_iff_not,
    beq_eq_false_iff_ne]
  omega

/-- The characters that an equals sign goes on with. -/
def equalsSigns : List Char :=
  ['+', '*', '/', '%', '^', '<', '>', '=', '!', '-']

theorem all_of_takesEquals {p : Char → Bool} (hp : equalsSigns.all p = true)
    (hc : takesEquals c = true) : p c = true := by
  refine List.all_eq_true.1 hp c ?_
  simp only [takesEquals, isOperator, Bool.or_eq_true, decide_eq_true_eq] at hc
  simp only [equalsSigns, List.mem_cons, List.not_mem_nil, or_false]
  tauto

theorem isBlank_of_takesEquals (hc : takesEquals c = true) : isBlank c = false := by
  simpa using all_of_takesEquals (p := fun d => !isBlank d) (by decide) hc

theorem isWordChar_of_takesEquals (hc : takesEquals c = true) : isWordChar c = false := by
  simpa using all_of_takesEquals (p := fun d => !isWordChar d) (by decide) hc

theorem takesEquals_of_isWordChar (hc : isWordChar c = true) : takesEquals c = false := by
  cases h : Spacing.takesEquals c with
  | false => rfl
  | true => rw [isWordChar_of_takesEquals h] at hc; cases hc

end Characters

/-- An operator is one sign, or a sign with an equals sign behind it. -/
theorem of_mem_operators {sign : List Char} (h : sign ∈ operators) :
    (∃ c, isOperator c = true ∧ sign = [c]) ∨ ∃ c, takesEquals c = true ∧ sign = [c, '='] := by
  simp only [operators, List.mem_cons, List.not_mem_nil, or_false] at h
  rcases h with rfl | rfl | rfl | rfl | rfl | rfl | rfl | rfl | h
  iterate 8 exact .inl ⟨_, rfl, rfl⟩
  rcases h with rfl | rfl | rfl | rfl | rfl | rfl | rfl | rfl | rfl | rfl
  all_goals exact .inr ⟨_, rfl, rfl⟩

section Operand

variable {word : List Char} (hword : IsWord word) (negated : Bool)
include hword

theorem mem_operand : ∀ c ∈ operand negated word, c = '-' ∨ isWordChar c = true := by
  intro c hc
  cases negated with
  | true => exact (List.mem_cons.1 hc).imp_right (hword.chars c)
  | false => exact .inr (hword.chars c hc)

theorem isBlank_operand : ∀ c ∈ operand negated word, isBlank c = false := by
  intro c hc
  rcases mem_operand hword _ c hc with rfl | hc
  · rfl
  · exact isBlank_of_isWordChar hc

theorem exists_head_word : ∃ c w, word = c :: w ∧ isWordChar c = true ∧ c ≠ '.' := by
  obtain ⟨c, w, rfl⟩ := List.exists_cons_of_ne_nil hword.ne_nil
  refine ⟨c, w, rfl, hword.chars c List.mem_cons_self, ?_⟩
  rintro rfl
  exact hword.head rfl

/-- A rule that takes over the characters of a word is in the same state behind any word. -/
theorem append_word_of_passes {f : Bool → List Char → List Char} {behind : Bool}
    (h : ∀ state, ∀ c ∈ word, ∀ r, f state (c :: r) = c :: f behind r) (state : Bool)
    (r : List Char) : f state (word ++ r) = word ++ f behind r := by
  obtain ⟨c, w, rfl, -⟩ := exists_head_word hword
  rw [List.cons_append, h state c List.mem_cons_self,
    append_of_passes fun d hd => h behind d (List.mem_cons_of_mem c hd), List.cons_append]

/-- No operand starts with a blank, a dot or an equals sign. -/
theorem exists_head_operand (r : List Char) :
    ∃ c s, operand negated word ++ r = c :: s ∧ isBlank c = false ∧ c ≠ '.' ∧ c ≠ '=' := by
  cases negated with
  | true => exact ⟨'-', word ++ r, rfl, rfl, by decide, by decide⟩
  | false =>
      obtain ⟨c, w, rfl, hc, hdot⟩ := exists_head_word hword
      exact ⟨c, w ++ r, rfl, isBlank_of_isWordChar hc, hdot, ne_of_isWordChar hc rfl⟩

end Operand

namespace Link

theorem text_append (l : Link) (r : List Char) :
    l.text ++ r = l.before ++ (l.sign ++ (l.behind ++ (operand l.negated l.word ++ r))) := by
  simp only [text, List.append_assoc]

theorem Valid.sign_eq {l : Link} (h : l.Valid) :
    ∃ c s, l.sign = c :: s ∧ takesEquals c = true ∧ (s = [] ∨ s = ['=']) := by
  rcases h.sign with hs | ⟨hs, -⟩
  · rcases of_mem_operators hs with ⟨c, hc, hs⟩ | ⟨c, hc, hs⟩
    · exact ⟨c, [], hs, takesEquals_of_isOperator hc, .inl rfl⟩
    · exact ⟨c, ['='], hs, hc, .inr rfl⟩
  · exact ⟨'-', [], hs, rfl, .inl rfl⟩

theorem Valid.mem_sign {l : Link} (h : l.Valid) : ∀ c ∈ l.sign, takesEquals c = true := by
  obtain ⟨c, s, hs, hc, rfl | rfl⟩ := h.sign_eq
  · rw [hs]
    exact List.forall_mem_singleton.2 hc
  · rw [hs]
    exact List.forall_mem_cons.2 ⟨hc, List.forall_mem_singleton.2 rfl⟩

/-- A rule that takes over what is not blank only changes the gaps of a link. -/
theorem Valid.map_text {l : Link} (h : l.Valid) {f : List Char → List Char}
    (gapOf : List Char → List Char)
    (hpass : ∀ c, isBlank c = false → ∀ r, f (c :: r) = c :: f r)
    (hgap : ∀ gap, gap = l.before ∨ gap = l.behind → ∀ c s, isBlank c = false → c ≠ '.' →
      f (gap ++ c :: s) = gapOf gap ++ f (c :: s)) (r : List Char) :
    f (l.text ++ r) =
      { l with before := gapOf l.before, behind := gapOf l.behind }.text ++ f r := by
  have happend : ∀ {s : List Char}, (∀ c ∈ s, isBlank c = false) → ∀ t, f (s ++ t) = s ++ f t :=
    fun hs => append_of_passes fun c hc => hpass c (hs c hc)
  obtain ⟨c, s, hs, hc, -⟩ := h.sign_eq
  obtain ⟨d, t, ht, hd, hdot, -⟩ := exists_head_operand h.word l.negated r
  have hsign : ∀ x, f (l.before ++ (l.sign ++ x)) = gapOf l.before ++ (l.sign ++ f x) := fun x => by
    have hcdot : c ≠ '.' := by
      rintro rfl
      cases hc
    rw [← happend fun c hc => isBlank_of_takesEquals (h.mem_sign c hc), hs, List.cons_append,
      hgap _ (.inl rfl) c _ (isBlank_of_takesEquals hc) hcdot]
  have hoperand : f (l.behind ++ (operand l.negated l.word ++ r)) =
      gapOf l.behind ++ (operand l.negated l.word ++ f r) := by
    rw [← happend (isBlank_operand h.word l.negated), ht, hgap _ (.inr rfl) d t hd hdot]
  rw [text_append, text_append, hsign, hoperand]

/-- Of the blanks on each side of the sign there is at most a space. -/
structure Narrow (l : Link) : Prop extends l.Valid where
  before_eq : l.before = [] ∨ l.before = [' ']
  behind_eq : l.behind = [] ∨ l.behind = [' ']

theorem Narrow.gap_eq {l : Link} (h : l.Narrow) {gap : List Char}
    (hgap : gap = l.before ∨ gap = l.behind) : gap = [] ∨ gap = [' '] := by
  rcases hgap with rfl | rfl
  · exact h.before_eq
  · exact h.behind_eq

theorem Valid.spaced {l : Link} (h : l.Valid) : l.spaced.Narrow where
  before := List.forall_mem_singleton.2 rfl
  behind := List.forall_mem_singleton.2 rfl
  sign := h.sign.imp_right fun hs => ⟨hs.1, fun hnil => by cases hnil⟩
  word := h.word
  before_eq := .inr rfl
  behind_eq := .inr rfl

end Link

section Collapse

/-- A space for a gap, and nothing for none. -/
def narrow (gap : List Char) : List Char :=
  if gap.isEmpty then [] else [' ']

theorem collapseFrom_nonblank {c : Char} (hc : isBlank c = false) (inRun : Bool) (r : List Char) :
    collapseFrom inRun (c :: r) = c :: collapseFrom false r := by
  simp [collapseFrom, hc]

theorem collapseFrom_gap {gap : List Char} (hgap : ∀ c ∈ gap, isBlank c = true) {c : Char}
    (hc : isBlank c = false) (r : List Char) :
    collapseFrom false (gap ++ c :: r) = narrow gap ++ collapseFrom false (c :: r) := by
  have hrun : ∀ gap : List Char, (∀ c ∈ gap, isBlank c = true) →
      collapseFrom true (gap ++ c :: r) = collapseFrom false (c :: r) := by
    intro gap hgap
    induction gap with
    | nil => rw [List.nil_append, collapseFrom_nonblank hc, collapseFrom_nonblank hc]
    | cons d gap ih =>
        rw [List.forall_mem_cons] at hgap
        simpa [collapseFrom, hgap.1] using ih hgap.2
  cases gap with
  | nil => rfl
  | cons d gap =>
      rw [List.forall_mem_cons] at hgap
      simpa [collapseFrom, hgap.1, narrow] using hrun gap hgap.2

namespace Link

def narrowed (l : Link) : Link :=
  { l with before := narrow l.before, behind := narrow l.behind }

variable {l : Link} (h : l.Valid)
include h

theorem Valid.narrowed : l.narrowed.Narrow := by
  have hgap : ∀ gap : List Char, narrow gap = [] ∨ narrow gap = [' '] := fun gap => by
    cases gap
    · exact .inl rfl
    · exact .inr rfl
  have hblank : ∀ gap : List Char, ∀ c ∈ narrow gap, isBlank c = true := fun gap c hc => by
    rcases hgap gap with hnil | hspace
    · simp [hnil] at hc
    · rw [hspace, List.mem_singleton] at hc
      rw [hc]
      rfl
  have hnil : ∀ gap : List Char, narrow gap = [] ↔ gap = [] := fun gap => by
    cases gap <;> simp [narrow]
  exact
    { before := hblank l.before
      behind := hblank l.behind
      sign := h.sign.imp_right fun hs =>
        ⟨hs.1, fun hb => (hnil l.before).2 (hs.2 ((hnil l.behind).1 hb))⟩
      word := h.word
      before_eq := hgap l.before
      behind_eq := hgap l.behind }

theorem collapse_text (r : List Char) :
    collapseFrom false (l.text ++ r) = l.narrowed.text ++ collapseFrom false r := by
  refine h.map_text narrow (fun c hc => collapseFrom_nonblank hc false) ?_ r
  rintro gap (rfl | rfl) c s hc -
  · exact collapseFrom_gap h.before hc s
  · exact collapseFrom_gap h.behind hc s

end Link
end Collapse

section Dots

theorem dropBefore_nonblank (p : Char → Bool) {c : Char} (hc : isBlank c = false) (r : List Char) :
    dropBefore p (c :: r) = c :: dropBefore p r := by
  simp [dropBefore, hc]

theorem dropBefore_space {p : Char → Bool} {c : Char} (hc : isBlank c = false) (hp : p c = false)
    (r : List Char) : dropBefore p (' ' :: c :: r) = ' ' :: dropBefore p (c :: r) := by
  rw [dropBefore, dropBefore_nonblank p hc]
  simp [hp]

theorem dropAfterFrom_pass (p : Char → Bool) {c : Char} (hc : p c = false) (r : List Char) :
    dropAfterFrom p false (c :: r) = c :: dropAfterFrom p false r := by
  simp [dropAfterFrom, hc]

/-- What is dropped behind a text depends on its last character alone. -/
theorem dropAfterFrom_append (p : Char → Bool) (after : Bool) {s : List Char}
    (hs : ∀ c ∈ s, isBlank c = false) {d : Char} (hd : isBlank d = false) (r : List Char) :
    dropAfterFrom p after (s ++ d :: r) = s ++ d :: dropAfterFrom p (p d) r := by
  induction s generalizing after with
  | nil => simp [dropAfterFrom, hd]
  | cons c s ih =>
      rw [List.forall_mem_cons] at hs
      simp [dropAfterFrom, hs.1, ih (p c) hs.2]

theorem dropAfterFrom_word {word : List Char} (hword : IsWord word) (r : List Char) :
    dropAfterFrom isDot false (word ++ r) = word ++ dropAfterFrom isDot false r := by
  obtain rfl | ⟨w, d, rfl⟩ := word.eq_nil_or_concat
  · exact absurd rfl hword.ne_nil
  · rw [List.concat_eq_append] at *
    have hblank : ∀ c ∈ w ++ [d], isBlank c = false :=
      fun c hc => isBlank_of_isWordChar (hword.chars c hc)
    have hdot : isDot d = false := by
      have := hword.last
      simpa [isDot] using this
    rw [List.append_assoc, List.singleton_append,
      dropAfterFrom_append isDot false (fun c hc => hblank c (List.mem_append_left _ hc))
        (hblank d (by simp)), hdot, List.append_assoc, List.singleton_append]

theorem dropAfterFrom_operand {word : List Char} (hword : IsWord word) (negated : Bool)
    (r : List Char) :
    dropAfterFrom isDot false (operand negated word ++ r) =
      operand negated word ++ dropAfterFrom isDot false r := by
  cases negated with
  | true =>
      rw [operand, if_pos rfl, List.cons_append, dropAfterFrom_pass isDot rfl,
        dropAfterFrom_word hword, List.cons_append]
  | false => exact dropAfterFrom_word hword r

namespace Link

variable {l : Link} (h : l.Narrow)
include h

theorem dropBefore_text (r : List Char) :
    dropBefore isDot (l.text ++ r) = l.text ++ dropBefore isDot r := by
  refine h.map_text id (fun c hc => dropBefore_nonblank isDot hc) ?_ r
  intro gap hgap c s hc hdot
  rcases h.gap_eq hgap with rfl | rfl
  · rfl
  · exact dropBefore_space hc (decide_eq_false hdot) s

theorem dropAfter_text (r : List Char) :
    dropAfterFrom isDot false (l.text ++ r) = l.text ++ dropAfterFrom isDot false r := by
  have hgap : ∀ gap, gap = l.before ∨ gap = l.behind → ∀ t,
      dropAfterFrom isDot false (gap ++ t) = gap ++ dropAfterFrom isDot false t := by
    intro gap hgap t
    rcases h.gap_eq hgap with rfl | rfl
    · rfl
    · exact dropAfterFrom_pass isDot rfl t
  have hsign : ∀ t, dropAfterFrom isDot false (l.sign ++ t) =
      l.sign ++ dropAfterFrom isDot false t := by
    refine append_of_passes fun c hc => dropAfterFrom_pass isDot ?_
    have hc := isWordChar_of_takesEquals (h.mem_sign c hc)
    refine decide_eq_false ?_
    rintro rfl
    cases hc
  rw [text_append, text_append, hgap _ (.inl rfl), hsign, hgap _ (.inr rfl),
    dropAfterFrom_operand h.word]

end Link
end Dots

section Brackets

theorem dropBefore_eq_self {p : Char → Bool} {s : List Char} (h : ∀ c ∈ s, p c = false) :
    dropBefore p s = s := by
  induction s with
  | nil => rfl
  | cons c r ih =>
      rw [List.forall_mem_cons] at h
      have hhead : r.head?.any p = false := by
        cases r with
        | nil => rfl
        | cons d r => exact h.2 d List.mem_cons_self
      simp [dropBefore, ih h.2, hhead]

theorem dropAfter_eq_self {p : Char → Bool} {s : List Char} (h : ∀ c ∈ s, p c = false) :
    dropAfter p s = s := by
  have := append_of_passes (fun c hc => dropAfterFrom_pass p (h c hc)) []
  simpa [dropAfter, dropAfterFrom] using this

theorem spaceAfterClosers_eq_self {s : List Char} (h : ∀ c ∈ s, Lexical.isCloser c = false) :
    spaceAfterClosers s = s := by
  induction s with
  | nil => rfl
  | cons c r ih =>
      rw [List.forall_mem_cons] at h
      simp [spaceAfterClosers, h.1, ih h.2]

theorem spaceCommas_eq_self {s : List Char} (h : ∀ c ∈ s, isComma c = false) :
    spaceCommas s = s := by
  rw [spaceCommas, dropBefore_eq_self h, dropAfter_eq_self h]
  induction s with
  | nil => rfl
  | cons c r ih =>
      rw [List.forall_mem_cons] at h
      simp [h.1, ih h.2]

/-- The characters of a chain. -/
def isChainChar (c : Char) : Bool :=
  isWordChar c || takesEquals c || c = ' '

theorem isChainChar_of_isBracket {c : Char} (h : Lexical.isBracket c = true) :
    isChainChar c = false := by
  simp only [Lexical.isBracket, Lexical.isOpener, Lexical.isCloser, Bool.or_eq_true,
    decide_eq_true_eq] at h
  rcases h with ((rfl | rfl) | rfl) | (rfl | rfl) | rfl <;> rfl

theorem mem_chain {word : List Char} (hword : IsWord word) (negated : Bool) {links : List Link}
    (hlinks : ∀ l ∈ links, l.Narrow) :
    ∀ c ∈ operand negated word ++ chain links, isChainChar c = true := by
  have hoperand : ∀ {negated : Bool} {word : List Char}, IsWord word →
      ∀ c ∈ operand negated word, isChainChar c = true := by
    intro negated word hword c hc
    rcases mem_operand hword _ c hc with rfl | hc
    · rfl
    · simp [isChainChar, hc]
  have hgap : ∀ {gap : List Char}, gap = [] ∨ gap = [' '] → ∀ c ∈ gap, isChainChar c = true := by
    rintro gap (rfl | rfl) c hc
    · cases hc
    · rw [List.mem_singleton] at hc
      rw [hc]
      rfl
  intro c hc
  rcases List.mem_append.1 hc with hc | hc
  · exact hoperand hword c hc
  · obtain ⟨l, hl, hc⟩ := List.mem_flatMap.1 hc
    have hlink := hlinks l hl
    simp only [Link.text, List.mem_append] at hc
    rcases hc with hc | hc | hc | hc
    · exact hgap hlink.before_eq c hc
    · simp [isChainChar, hlink.mem_sign c hc]
    · exact hgap hlink.behind_eq c hc
    · exact hoperand hlink.word c hc

end Brackets

/-- Dots stay inside of their words, and there are no brackets and commas. -/
theorem spaceBrackets_chain {word : List Char} (hword : IsWord word) (negated : Bool)
    {links : List Link} (hlinks : ∀ l ∈ links, l.Narrow) :
    spaceBrackets (operand negated word ++ chain links) = operand negated word ++ chain links := by
  have hchars := mem_chain hword negated hlinks
  have hnone : ∀ {p : Char → Bool}, (∀ c, p c = true → isChainChar c = false) →
      ∀ c ∈ operand negated word ++ chain links, p c = false := by
    intro p hp c hc
    cases h : p c with
    | false => rfl
    | true => exact absurd ((hp c h).symm.trans (hchars c hc)) Bool.false_ne_true
  have hopener : ∀ c, Lexical.isOpener c = true → isChainChar c = false :=
    fun c hc => isChainChar_of_isBracket (by simp [Lexical.isBracket, hc])
  have hcloser : ∀ c, Lexical.isCloser c = true → isChainChar c = false :=
    fun c hc => isChainChar_of_isBracket (by simp [Lexical.isBracket, hc])
  have hcomma : ∀ c, isComma c = true → isChainChar c = false := by
    intro c hc
    rw [of_decide_eq_true hc]
    rfl
  have hbefore : dropBefore isDot (operand negated word ++ chain links) =
      operand negated word ++ chain links := by
    rw [append_of_passes fun c hc => dropBefore_nonblank isDot (isBlank_operand hword negated c hc),
      map_chain id rfl fun l hl => Link.dropBefore_text (hlinks l hl), List.map_id]
  have hafter : dropAfter isDot (operand negated word ++ chain links) =
      operand negated word ++ chain links := by
    rw [dropAfter, dropAfterFrom_operand hword,
      map_chain id rfl fun l hl => Link.dropAfter_text (hlinks l hl), List.map_id]
  rw [spaceBrackets, tightenDots, hbefore, hafter, tightenOpeners,
    dropAfter_eq_self (hnone hopener), tightenClosers, dropBefore_eq_self (hnone hcloser),
    spaceAfterClosers_eq_self (hnone hcloser), spaceCommas_eq_self (hnone hcomma)]

theorem collapse_chain {word : List Char} (hword : IsWord word) (negated : Bool)
    {links : List Link} (hlinks : ∀ l ∈ links, l.Valid) :
    collapse (operand negated word ++ chain links) =
      operand negated word ++ chain (links.map Link.narrowed) := by
  rw [collapse, append_of_passes fun c hc =>
      collapseFrom_nonblank (isBlank_operand hword negated c hc) false,
    map_chain Link.narrowed rfl fun l hl => Link.collapse_text (hlinks l hl)]

end Expression
end MiniScriptLayout
