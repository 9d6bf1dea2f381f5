import MiniScriptLayout.Proofs.Expression.Sign

/-!
Optional blanks. Blanks between two parts of a line do not matter where a rule puts its own spacing
in their place: behind a comma, a dot or an opening bracket, before a comma, a dot or a closing
bracket, and beside an operator. All rules before that one keep the place as it is, with one space
or none between the same two characters.
-/

namespace MiniScriptLayout

open Text Expression

theorem Text.trimLeft_append_cons {c : Char} (hc : isBlank c = false) (s r : List Char) :
    trimLeft (s ++ c :: r) = trimLeft s ++ c :: r := by
  rw [trimLeft, List.dropWhile_append]
  split
  · rename_i hnil
    rw [List.isEmpty_iff] at hnil
    simp [trimLeft, hnil, hc]
  · rfl

namespace Spacing

/-- One of two neighbours is an operator, and the other one, if there is one, is no part of it. -/
def BesideOperator (x y : Option Char) : Prop :=
  x.any isOperator = true ∧ y.any takesEquals = false ∨
    y.any isOperator = true ∧ x.any takesEquals = false

/-- Blanks between the two texts are optional. -/
inductive Absorbs (u v : List Char) : Prop
  | behind {c : Char} : u.getLast? = some c →
      c = ',' ∨ c = '.' ∨ Lexical.isOpener c = true → Absorbs u v
  | before {c : Char} : v.head? = some c →
      c = ',' ∨ c = '.' ∨ Lexical.isCloser c = true → Absorbs u v
  | beside : BesideOperator u.getLast? v.head? → Absorbs u v

/-- The texts are equal, or the first one has a space more at a place between the characters `x` and
`y`, which are no blanks; there is none at an end of the text. -/
inductive Parted (x y : Option Char) : List Char → List Char → Prop
  | same (s : List Char) : Parted x y s s
  | start {b : List Char} : x = none → b.head? = y → (∀ c ∈ y, isBlank c = false) →
      Parted x y (' ' :: b) b
  | space {a : List Char} {c : Char} {b : List Char} : x = some c → b.head? = y →
      isBlank c = false → (∀ c ∈ y, isBlank c = false) →
      Parted x y (a ++ c :: ' ' :: b) (a ++ c :: b)

/-- What a rule writes up to a character that is no blank does not depend on the text behind. -/
def LooksBack (f : List Char → List Char) : Prop :=
  ∀ {c : Char}, isBlank c = false → ∀ a, ∃ a', ∀ r, f (a ++ c :: r) = a' ++ f (c :: r)

/-- A rule that closes a place with a space or leaves it as it is. -/
structure KeepsPlaces (f : List Char → List Char) : Prop where
  looksBack : LooksBack f
  head : ∀ {b : List Char}, (∀ c ∈ b.head?, isBlank c = false) → (f b).head? = b.head?
  start : ∀ {b : List Char}, (∀ c ∈ b.head?, isBlank c = false) →
    f (' ' :: b) = f b ∨ f (' ' :: b) = ' ' :: f b
  space : ∀ {c : Char} {b : List Char}, isBlank c = false → (∀ c ∈ b.head?, isBlank c = false) →
    f (c :: ' ' :: b) = f (c :: b) ∨ f (c :: ' ' :: b) = c :: ' ' :: f b ∧ f (c :: b) = c :: f b

section Before

variable (p : Char → Bool)

theorem head?_dropBefore {s : List Char} (hs : ∀ c ∈ s.head?, isBlank c = false) :
    (dropBefore p s).head? = s.head? := by
  cases s with
  | nil => rfl
  | cons c s =>
      rw [dropBefore_nonblank p (hs c rfl)]
      rfl

theorem dropBefore_space_append {b : List Char} (hb : ∀ c ∈ b.head?, isBlank c = false) :
    dropBefore p (' ' :: b) = if b.head?.any p then dropBefore p b else ' ' :: dropBefore p b := by
  have hblank : isBlank ' ' = true := rfl
  rw [dropBefore, hblank, Bool.true_and, head?_dropBefore p hb]

theorem looksBack_dropBefore : LooksBack (dropBefore p) := by
  intro c hc a
  induction a with
  | nil => exact ⟨[], fun r => rfl⟩
  | cons d a ih =>
      obtain ⟨a', ha⟩ := ih
      refine ⟨if isBlank d && (a' ++ [c]).head?.any p then a' else d :: a', fun r => ?_⟩
      have hhead : (a' ++ dropBefore p (c :: r)).head? = (a' ++ [c]).head? := by
        rw [dropBefore_nonblank p hc]
        cases a' <;> rfl
      rw [List.cons_append, dropBefore, ha, hhead]
      split <;> rfl

theorem keepsPlaces_dropBefore : KeepsPlaces (dropBefore p) where
  looksBack := looksBack_dropBefore p
  head := head?_dropBefore p
  start hb := by
    rw [dropBefore_space_append p hb]
    split
    · exact .inl rfl
    · exact .inr rfl
  space hc hb := by
    rw [dropBefore_nonblank p hc, dropBefore_nonblank p hc, dropBefore_space_append p hb]
    split
    · exact .inl rfl
    · exact .inr ⟨rfl, rfl⟩

end Before

section After

variable (p : Char → Bool)

theorem dropAfterFrom_nonblank {c : Char} (hc : isBlank c = false) (after : Bool) (r : List Char) :
    dropAfterFrom p after (c :: r) = c :: dropAfterFrom p (p c) r := by
  simp [dropAfterFrom, hc]

theorem dropAfterFrom_eq {b : List Char} (hb : ∀ c ∈ b.head?, isBlank c = false) (after : Bool) :
    dropAfterFrom p after b = dropAfter p b := by
  cases b with
  | nil => rfl
  | cons c b =>
      rw [dropAfter, dropAfterFrom_nonblank p (hb c rfl), dropAfterFrom_nonblank p (hb c rfl)]

theorem dropAfter_nonblank {c : Char} (hc : isBlank c = false) (r : List Char) :
    dropAfter p (c :: r) = c :: dropAfterFrom p (p c) r :=
  dropAfterFrom_nonblank p hc false r

theorem head?_dropAfter (s : List Char) : (dropAfter p s).head? = s.head? := by
  cases s <;> rfl

theorem dropAfterFrom_space (hp : p ' ' = false) {b : List Char}
    (hb : ∀ c ∈ b.head?, isBlank c = false) (after : Bool) :
    dropAfterFrom p after (' ' :: b) = if after then dropAfter p b else ' ' :: dropAfter p b := by
  have hblank : isBlank ' ' = true := rfl
  rw [dropAfterFrom, hblank, Bool.and_true, hp, dropAfterFrom_eq p hb, dropAfterFrom_eq p hb]

theorem looksBack_dropAfter : LooksBack (dropAfter p) := by
  intro c hc a
  suffices run : ∀ after, ∃ a', ∀ r, dropAfterFrom p after (a ++ c :: r) =
      a' ++ dropAfter p (c :: r) from run false
  induction a with
  | nil =>
      refine fun after => ⟨[], fun r => dropAfterFrom_eq p ?_ after⟩
      simpa using hc
  | cons d a ih =>
      intro after
      obtain ⟨same, hsame⟩ := ih after
      obtain ⟨next, hnext⟩ := ih (p d)
      refine ⟨if after && isBlank d then same else d :: next, fun r => ?_⟩
      rw [List.cons_append, dropAfterFrom, hsame, hnext]
      split <;> rfl

theorem keepsPlaces_dropAfter (hp : p ' ' = false) : KeepsPlaces (dropAfter p) where
  looksBack := looksBack_dropAfter p
  head _ := head?_dropAfter p _
  start hb := .inr (dropAfterFrom_space p hp hb false)
  space {c b} hc hb := by
    rw [dropAfter_nonblank p hc, dropAfter_nonblank p hc, dropAfterFrom_space p hp hb,
      dropAfterFrom_eq p hb]
    split
    · exact .inl rfl
    · exact .inr ⟨rfl, rfl⟩

end After

section Closers

theorem head?_spaceAfterClosers (s : List Char) : (spaceAfterClosers s).head? = s.head? := by
  cases s with
  | nil => rfl
  | cons c s =>
      rw [spaceAfterClosers]
      split <;> rfl

theorem looksBack_spaceAfterClosers : LooksBack spaceAfterClosers := by
  intro c hc a
  induction a with
  | nil => exact ⟨[], fun r => rfl⟩
  | cons d a ih =>
      obtain ⟨a', ha⟩ := ih
      refine ⟨if Lexical.isCloser d && (trimLeft a ++ [c]).head?.any standsApart then
        d :: ' ' :: trimLeft a' else d :: a', fun r => ?_⟩
      obtain ⟨r', hr⟩ : ∃ r', spaceAfterClosers (c :: r) = c :: r' := by
        rw [spaceAfterClosers]
        split
        · exact ⟨_, rfl⟩
        · exact ⟨_, rfl⟩
      have hhead : (trimLeft (a ++ c :: r)).head? = (trimLeft a ++ [c]).head? := by
        rw [trimLeft_append_cons hc]
        cases trimLeft a <;> rfl
      rw [List.cons_append, spaceAfterClosers, ha, hhead, hr, trimLeft_append_cons hc]
      split <;> rfl

/-- A closing bracket gets its space with or without one there. -/
theorem spaceAfterClosers_space {b : List Char} (hb : ∀ c ∈ b.head?, isBlank c = false) (c : Char) :
    spaceAfterClosers (c :: ' ' :: b) = spaceAfterClosers (c :: b) ∨
      spaceAfterClosers (c :: ' ' :: b) = c :: ' ' :: spaceAfterClosers b ∧
        spaceAfterClosers (c :: b) = c :: spaceAfterClosers b := by
  have hspace : spaceAfterClosers (' ' :: b) = ' ' :: spaceAfterClosers b := rfl
  have hrest : ∀ d ∈ (spaceAfterClosers b).head?, isBlank d = false := by
    rwa [head?_spaceAfterClosers]
  have htrim : ∀ s : List Char, trimLeft (' ' :: s) = trimLeft s := fun s => rfl
  have hleft := spaceAfterClosers.eq_2 c (' ' :: b)
  have hright := spaceAfterClosers.eq_2 c b
  rw [hspace, htrim, htrim, trimLeft_eq_self hb, trimLeft_eq_self hrest] at hleft
  rw [trimLeft_eq_self hb, trimLeft_eq_self hrest] at hright
  rw [hleft, hright]
  split
  · exact .inl rfl
  · exact .inr ⟨rfl, rfl⟩

theorem keepsPlaces_spaceAfterClosers : KeepsPlaces spaceAfterClosers where
  looksBack := looksBack_spaceAfterClosers
  head _ := head?_spaceAfterClosers _
  start _ := .inr rfl
  space _ hb := spaceAfterClosers_space hb _

end Closers

namespace Parted

variable {x y : Option Char} {s t : List Char}

theorem map {f : List Char → List Char} (hf : KeepsPlaces f) (h : Parted x y s t) :
    Parted x y (f s) (f t) := by
  cases h with
  | same => exact .same _
  | @start b hx hy hb =>
      subst hy
      rcases hf.start hb with hclosed | hleft
      · rw [hclosed]
        exact .same _
      · rw [hleft]
        exact .start hx (hf.head hb) hb
  | @space a c b hx hy hc hb =>
      subst hy
      obtain ⟨a', ha⟩ := hf.looksBack hc a
      rw [ha, ha]
      rcases hf.space hc hb with hclosed | ⟨hspace, hnone⟩
      · rw [hclosed]
        exact .same _
      · rw [hspace, hnone]
        exact .space hx (hf.head hb) hc hb

theorem dropBefore_eq (p : Char → Bool) (h : Parted x y s t) (hy : y.any p = true) :
    dropBefore p s = dropBefore p t := by
  cases h with
  | same => rfl
  | @start b hx hb hblank =>
      subst hb
      rw [dropBefore_space_append p hblank, if_pos hy]
  | @space a c b hx hb hc hblank =>
      subst hb
      obtain ⟨a', ha⟩ := looksBack_dropBefore p hc a
      rw [ha, ha, dropBefore_nonblank p hc, dropBefore_nonblank p hc,
        dropBefore_space_append p hblank, if_pos hy]

theorem dropAfter_eq {p : Char → Bool} (hp : p ' ' = false) (h : Parted x y s t)
    (hx : x.any p = true) : dropAfter p s = dropAfter p t := by
  cases h with
  | same => rfl
  | start hnone => simp [hnone] at hx
  | @space a c b hc hy hblank hb =>
      subst hy hc
      obtain ⟨a', ha⟩ := looksBack_dropAfter p hblank a
      have hcut : p c = true := hx
      rw [ha, ha, dropAfter_nonblank p hblank, dropAfter_nonblank p hblank,
        dropAfterFrom_space p hp hb, dropAfterFrom_eq p hb, hcut, if_pos rfl]

theorem spaceBehindCommas (hx : x.any isComma = false) (h : Parted x y s t) :
    Parted x y (s.flatMap fun c => if isComma c then [c, ' '] else [c])
      (t.flatMap fun c => if isComma c then [c, ' '] else [c]) := by
  have hspace : isComma ' ' = false := rfl
  have hhead : ∀ b : List Char,
      (b.flatMap fun c => if isComma c then [c, ' '] else [c]).head? = b.head? := by
    intro b
    cases b with
    | nil => rfl
    | cons c b =>
        rw [List.flatMap_cons]
        split <;> rfl
  cases h with
  | same => exact .same _
  | start hnone hy hb =>
      rw [List.flatMap_cons, hspace]
      exact .start hnone ((hhead _).trans hy) hb
  | @space a c b hc hy hblank hb =>
      subst hc
      have hcomma : isComma c = false := hx
      rw [List.flatMap_append, List.flatMap_append, List.flatMap_cons, List.flatMap_cons,
        List.flatMap_cons, hspace, hcomma]
      exact .space rfl ((hhead _).trans hy) hblank hb

theorem spaceCommas (h : Parted x y s t) : Parted x y (spaceCommas s) (spaceCommas t) := by
  have hdrop := h.map (keepsPlaces_dropBefore isComma)
  rw [Spacing.spaceCommas, Spacing.spaceCommas]
  cases hx : x.any isComma with
  | true =>
      rw [hdrop.dropAfter_eq rfl hx]
      exact .same _
  | false => exact (hdrop.map (keepsPlaces_dropAfter isComma rfl)).spaceBehindCommas hx

theorem tightenDots (h : Parted x y s t) : Parted x y (tightenDots s) (tightenDots t) := by
  rw [Spacing.tightenDots, Spacing.tightenDots]
  exact (h.map (keepsPlaces_dropBefore isDot)).map (keepsPlaces_dropAfter isDot rfl)

theorem tightenOpeners (h : Parted x y s t) : Parted x y (tightenOpeners s) (tightenOpeners t) :=
  h.map (keepsPlaces_dropAfter Lexical.isOpener rfl)

theorem tightenClosers (h : Parted x y s t) : Parted x y (tightenClosers s) (tightenClosers t) :=
  h.map (keepsPlaces_dropBefore Lexical.isCloser)

theorem spaceBrackets (h : Parted x y s t) : Parted x y (spaceBrackets s) (spaceBrackets t) :=
  (h.tightenDots.tightenOpeners.tightenClosers.map keepsPlaces_spaceAfterClosers).spaceCommas

theorem spaceBrackets_eq_of_behind {c : Char} (h : Parted x y s t) (hx : x = some c)
    (hc : c = ',' ∨ c = '.' ∨ Lexical.isOpener c = true) :
    Spacing.spaceBrackets s = Spacing.spaceBrackets t := by
  subst hx
  rw [Spacing.spaceBrackets, Spacing.spaceBrackets]
  rcases hc with rfl | rfl | hc
  · have hplace := h.tightenDots.tightenOpeners.tightenClosers.map keepsPlaces_spaceAfterClosers
    rw [Spacing.spaceCommas, Spacing.spaceCommas,
      (hplace.map (keepsPlaces_dropBefore isComma)).dropAfter_eq (p := isComma) rfl rfl]
  · rw [Spacing.tightenDots, Spacing.tightenDots,
      (h.map (keepsPlaces_dropBefore isDot)).dropAfter_eq (p := isDot) rfl rfl]
  · rw [Spacing.tightenOpeners, Spacing.tightenOpeners,
      h.tightenDots.dropAfter_eq (p := Lexical.isOpener) rfl hc]

theorem spaceBrackets_eq_of_before {c : Char} (h : Parted x y s t) (hy : y = some c)
    (hc : c = ',' ∨ c = '.' ∨ Lexical.isCloser c = true) :
    Spacing.spaceBrackets s = Spacing.spaceBrackets t := by
  subst hy
  rw [Spacing.spaceBrackets, Spacing.spaceBrackets]
  rcases hc with rfl | rfl | hc
  · have hplace := h.tightenDots.tightenOpeners.tightenClosers.map keepsPlaces_spaceAfterClosers
    rw [Spacing.spaceCommas, Spacing.spaceCommas, hplace.dropBefore_eq isComma rfl]
  · rw [Spacing.tightenDots, Spacing.tightenDots, h.dropBefore_eq isDot rfl]
  · rw [Spacing.tightenClosers, Spacing.tightenClosers,
      h.tightenDots.tightenOpeners.dropBefore_eq Lexical.isCloser hc]

end Parted

section Operators

theorem operator?_cons (c : Char) (r : List Char) :
    operator? (c :: r) =
      if takesEquals c = true ∧ r.head? = some '=' then some ([c, '='], r.tail)
      else if isOperator c then some ([c], r) else none := by
  cases r with
  | nil => simp [operator?]
  | cons d r =>
      by_cases hd : d = '='
      · simp [operator?, hd]
      · simp [operator?, hd]

/-- The rule for operators looks at the next two characters, and behind a gap at the sign there. -/
theorem spaceOperatorsFrom_congr {r r' : List Char} (c : Char) (hhead : r.head? = r'.head?)
    (hsign : (operator? (trimLeft r)).isSome = (operator? (trimLeft r')).isSome)
    (hrest : ∀ after, spaceOperatorsFrom after r = spaceOperatorsFrom after r')
    (htail : spaceOperatorsFrom true r.tail = spaceOperatorsFrom true r'.tail) (after : Bool) :
    spaceOperatorsFrom after (c :: r) = spaceOperatorsFrom after (c :: r') := by
  cases hc : isBlank c with
  | true =>
      rw [spaceOperatorsFrom, spaceOperatorsFrom, hc, if_pos rfl, if_pos rfl, hsign, hrest, hrest]
  | false =>
      have hop := operator?_cons c r
      have hop' := operator?_cons c r'
      rw [← hhead] at hop'
      split at hop
      · rename_i hpair
        rw [if_pos hpair] at hop'
        rw [spaceOperatorsFrom_operator hc hop, spaceOperatorsFrom_operator hc hop', htail]
      · rename_i hpair
        rw [if_neg hpair] at hop'
        split at hop
        · rename_i hsingle
          rw [if_pos hsingle] at hop'
          rw [spaceOperatorsFrom_operator hc hop, spaceOperatorsFrom_operator hc hop', hrest]
        · rename_i hsingle
          rw [if_neg hsingle] at hop'
          rw [spaceOperatorsFrom_nonblank hc hop, spaceOperatorsFrom_nonblank hc hop', hrest]

theorem operator?_beside {c : Char} {b : List Char} (h : BesideOperator (some c) b.head?) :
    operator? (c :: ' ' :: b) = some ([c], ' ' :: b) ∧ operator? (c :: b) = some ([c], b) ∨
      b.head?.any isOperator = true ∧ operator? (c :: ' ' :: b) = none ∧
        operator? (c :: b) = none := by
  rcases h with ⟨hc, hb⟩ | ⟨hb, hc⟩
  · have hop : isOperator c = true := hc
    have hhead : b.head? ≠ some '=' := by
      intro hequals
      rw [hequals] at hb
      cases hb
    refine .inl ⟨?_, ?_⟩
    · simp [operator?_cons, hop]
    · simp [operator?_cons, hop, hhead]
  · have hc : takesEquals c = false := hc
    exact .inr ⟨hb, operator?_eq_none (.inl hc), operator?_eq_none (.inl hc)⟩

variable {b : List Char} (hb : ∀ c ∈ b.head?, isBlank c = false)
include hb

theorem spaceOperatorsFrom_gap (after : Bool)
    (h : after = true ∨ b.head?.any isOperator = true) :
    spaceOperatorsFrom after (' ' :: b) = spaceOperatorsFrom after b := by
  have hblank : isBlank ' ' = true := rfl
  rw [spaceOperatorsFrom, hblank, if_pos rfl, trimLeft_eq_self hb, if_pos]
  rw [Bool.or_eq_true]
  refine h.imp_right fun hop => ?_
  cases b with
  | nil => cases hop
  | cons d b =>
      rw [operator?_cons]
      split
      · rfl
      · rw [if_pos (by simpa using hop)]
        rfl

theorem spaceOperatorsFrom_beside {c : Char} (hc : isBlank c = false)
    (h : BesideOperator (some c) b.head?) (after : Bool) :
    spaceOperatorsFrom after (c :: ' ' :: b) = spaceOperatorsFrom after (c :: b) := by
  rcases operator?_beside h with ⟨hspace, hnone⟩ | ⟨hop, hspace, hnone⟩
  · rw [spaceOperatorsFrom_operator hc hspace, spaceOperatorsFrom_operator hc hnone,
      spaceOperatorsFrom_gap hb true (.inl rfl)]
  · rw [spaceOperatorsFrom_nonblank hc hspace, spaceOperatorsFrom_nonblank hc hnone,
      spaceOperatorsFrom_gap hb false (.inr hop)]

/-- What stands before the place is read the same with and without the space. -/
theorem spaceOperatorsFrom_append_beside {c : Char} (hc : isBlank c = false)
    (h : BesideOperator (some c) b.head?) (a : List Char) (after : Bool) :
    spaceOperatorsFrom after (a ++ c :: ' ' :: b) = spaceOperatorsFrom after (a ++ c :: b) := by
  -- behind a character that an equals sign goes with, the rule goes on in the tail
  suffices run : (∀ after, spaceOperatorsFrom after (a ++ c :: ' ' :: b) =
      spaceOperatorsFrom after (a ++ c :: b)) ∧
        spaceOperatorsFrom true (a ++ c :: ' ' :: b).tail =
          spaceOperatorsFrom true (a ++ c :: b).tail from run.1 after
  have hsign : ∀ a, (operator? (a ++ c :: ' ' :: b)).isSome = (operator? (a ++ c :: b)).isSome := by
    intro a
    cases a with
    | nil =>
        rcases operator?_beside h with ⟨hspace, hnone⟩ | ⟨-, hspace, hnone⟩
        · rw [List.nil_append, List.nil_append, hspace, hnone]
          rfl
        · rw [List.nil_append, List.nil_append, hspace, hnone]
    | cons d a =>
        have hhead : (a ++ c :: ' ' :: b).head? = (a ++ c :: b).head? := by cases a <;> rfl
        rw [List.cons_append, List.cons_append, operator?_cons, operator?_cons, hhead]
        split
        · rfl
        · split <;> rfl
  induction a with
  | nil =>
      exact ⟨spaceOperatorsFrom_beside hb hc h, spaceOperatorsFrom_gap hb true (.inl rfl)⟩
  | cons d a ih =>
      refine ⟨fun after => spaceOperatorsFrom_congr d ?_ ?_ ih.1 ih.2 after, ih.1 true⟩
      · cases a <;> rfl
      · rw [trimLeft_append_cons hc, trimLeft_append_cons hc]
        exact hsign _

end Operators

theorem Parted.spaceOperators_eq {x y : Option Char} {s t : List Char} (h : Parted x y s t)
    (hop : BesideOperator x y) : spaceOperators s = spaceOperators t := by
  cases h with
  | same => rfl
  | @start b hx hy hb =>
      subst hx hy
      refine spaceOperatorsFrom_gap hb false (.inr ?_)
      rcases hop with ⟨hnone, -⟩ | ⟨hop, -⟩
      · cases hnone
      · exact hop
  | @space a c b hx hy hc hb =>
      subst hx hy
      exact spaceOperatorsFrom_append_beside hb hc hop a false

section Collapse

theorem collapseFrom_append (u r : List Char) (inRun : Bool) :
    collapseFrom inRun (u ++ r) =
      collapseFrom inRun u ++ collapseFrom ((u.getLast?.map isBlank).getD inRun) r := by
  induction u generalizing inRun with
  | nil => rfl
  | cons c u ih =>
      have hlast : ((c :: u).getLast?.map isBlank).getD inRun =
          (u.getLast?.map isBlank).getD (isBlank c) := by
        cases hu : u.getLast? with
        | none => simp [List.getLast?_cons, hu]
        | some d => simp [List.getLast?_cons, hu]
      rw [List.cons_append, hlast]
      cases hc : isBlank c <;> cases inRun <;> simp [collapseFrom, hc, ih]

theorem collapseFrom_run {gap : List Char} (hgap : ∀ c ∈ gap, isBlank c = true) (v : List Char) :
    collapseFrom true (gap ++ v) = collapseFrom true v := by
  induction gap with
  | nil => rfl
  | cons c gap ih =>
      rw [List.forall_mem_cons] at hgap
      simpa [collapseFrom, hgap.1] using ih hgap.2

/-- Behind a character that is no blank a gap is written as a space, unless it goes on. -/
theorem collapseFrom_gap_cons {d : Char} {gap : List Char} (hgap : ∀ c ∈ d :: gap, isBlank c = true)
    (v : List Char) :
    collapseFrom false (d :: gap ++ v) = collapse v ∨
      collapseFrom false (d :: gap ++ v) = ' ' :: collapse v ∧
        (collapse v).head? = v.head? ∧ ∀ c ∈ v.head?, isBlank c = false := by
  rw [List.forall_mem_cons] at hgap
  rw [List.cons_append, collapseFrom, if_pos hgap.1, collapseFrom_run hgap.2]
  cases v with
  | nil => exact .inr ⟨rfl, rfl, by simp⟩
  | cons c v =>
      cases hc : isBlank c with
      | true => exact .inl (by simp [collapse, collapseFrom, hc])
      | false => exact .inr (by simp [collapse, collapseFrom, hc])

/-- A gap is written as a space if it stands between two characters that are no blanks. -/
theorem parted_collapse (u v : List Char) {gap : List Char} (hgap : ∀ c ∈ gap, isBlank c = true) :
    Parted u.getLast? v.head? (collapse (u ++ (gap ++ v))) (collapse (u ++ v)) := by
  cases gap with
  | nil => exact .same _
  | cons d gap =>
      have hseam := collapseFrom_gap_cons hgap v
      rcases u.eq_nil_or_concat with rfl | ⟨u, c, rfl⟩
      · rcases hseam with hblank | ⟨hspace, hhead, hv⟩
        · rw [List.nil_append, List.nil_append, collapse, hblank]
          exact .same _
        · rw [List.nil_append, List.nil_append, collapse, hspace]
          exact .start rfl hhead hv
      · rw [List.concat_eq_append, collapse, collapse, collapseFrom_append,
          collapseFrom_append (u ++ [c]) v, List.getLast?_concat, Option.map_some, Option.getD_some]
        cases hc : isBlank c with
        | true =>
            rw [collapseFrom_run hgap]
            exact .same _
        | false =>
            rcases hseam with hblank | ⟨hspace, hhead, hv⟩
            · rw [hblank, collapse]
              exact .same _
            · rw [hspace, collapseFrom_append, collapseFrom_nonblank hc, List.append_assoc,
                List.append_assoc]
              exact .space rfl hhead hc hv

end Collapse

/-- Optional blanks do not matter. -/
theorem normalize_seam {u v gap : List Char} (h : Absorbs u v)
    (hgap : ∀ c ∈ gap, isBlank c = true) :
    normalize (u ++ (gap ++ v)) = normalize (u ++ v) := by
  have hplace := parted_collapse u v hgap
  have heq : spaceOperators (spaceBrackets (collapse (u ++ (gap ++ v)))) =
      spaceOperators (spaceBrackets (collapse (u ++ v))) := by
    cases h with
    | behind hlast hc => rw [hplace.spaceBrackets_eq_of_behind hlast hc]
    | before hhead hc => rw [hplace.spaceBrackets_eq_of_before hhead hc]
    | beside hop => exact hplace.spaceBrackets.spaceOperators_eq hop
  rw [normalize, normalize, heq]

/-- Between a less-than sign and a name, blanks change nothing. -/
theorem normalize_seam_less :
    Absorbs "a<".toList "b".toList ∧ normalize "a< \tb".toList = normalize "a<b".toList := by
  have h : Absorbs "a<".toList "b".toList := .beside (.inl (by decide))
  have hgap : ∀ c ∈ [' ', '\t'], isBlank c = true := by simp [isBlank]
  exact ⟨h, by simpa using normalize_seam h hgap⟩

end Spacing
end MiniScriptLayout
