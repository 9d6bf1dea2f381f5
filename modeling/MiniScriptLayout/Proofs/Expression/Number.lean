import MiniScriptLayout.Proofs.Expression.Chain

/-!
Numbers among spaced signs. The rule for scientific notation reads a number up to its end, takes the
spaces out that stand around the sign of its exponent, and leaves a number without exponent alone.
-/

namespace MiniScriptLayout
namespace Expression

open Text Spacing

/-- A row of digits. -/
structure Digits where
  text : List Char
  ne_nil : text ≠ []
  digit : ∀ c ∈ text, isAsciiDigit c = true

inductive ExponentSign where
  | none
  | plus
  | minus

def ExponentSign.text : ExponentSign → List Char
  | none => []
  | plus => ['+']
  | minus => ['-']

/-- Digits, perhaps with a fraction. -/
def mantissa (whole : Digits) (fraction : Option Digits) : List Char :=
  whole.text ++
    match fraction with
    | none => []
    | some digits => '.' :: digits.text

/-- What comes behind an operand of a line with spaced signs. -/
def Ends (r : List Char) : Prop :=
  r = [] ∨ ∃ c t, r = ' ' :: c :: t ∧ takesEquals c = true

/-- The text does not go on with a digit. -/
def StopsDigits (r : List Char) : Prop :=
  ∀ c ∈ r.head?, isAsciiDigit c = false

namespace Ends

variable {r : List Char} (h : Ends r)
include h

theorem stopsDigits : StopsDigits r := by
  rcases h with rfl | ⟨c, t, rfl, -⟩
  · exact fun c hc => by cases hc
  · exact fun c hc => by cases hc; rfl

theorem head?_ne_dot : r.head? ≠ some '.' := by
  rcases h with rfl | ⟨c, t, rfl, -⟩ <;> simp

/-- The next word is no letter of an exponent, as a sign comes first. -/
theorem trimLeft_ne (s : List Char) : trimLeft r ≠ 'e' :: s := by
  rcases h with rfl | ⟨c, t, rfl, hc⟩
  · simp [trimLeft]
  · have htrim : trimLeft (' ' :: c :: t) = c :: t := by
      rw [← List.singleton_append, trimLeft_blanks_append (by simp [isBlank])]
      exact trimLeft_eq_self (by simpa using isBlank_of_takesEquals hc)
    rw [htrim]
    rintro ⟨⟩
    cases hc

end Ends

namespace Digits

variable (d : Digits)

theorem takeWhile {r : List Char} (hr : StopsDigits r) :
    (d.text ++ r).takeWhile isAsciiDigit = d.text := by
  rw [List.takeWhile_append_of_pos d.digit]
  cases r with
  | nil => simp
  | cons c r => simp [hr c rfl]

theorem dropWhile {r : List Char} (hr : StopsDigits r) :
    (d.text ++ r).dropWhile isAsciiDigit = r := by
  rw [List.dropWhile_append_of_pos d.digit]
  cases r with
  | nil => rfl
  | cons c r => simp [hr c rfl]

theorem exists_cons : ∃ c s, d.text = c :: s ∧ isAsciiDigit c = true := by
  obtain ⟨c, s, hs⟩ := List.exists_cons_of_ne_nil d.ne_nil
  exact ⟨c, s, hs, d.digit c (by rw [hs]; exact List.mem_cons_self)⟩

theorem cutOne (p : Char → Bool) (hp : ∀ c, isAsciiDigit c = true → p c = false) (r : List Char) :
    Text.cutOne p (d.text ++ r) = ([], d.text ++ r) := by
  obtain ⟨c, s, hs, hc⟩ := d.exists_cons
  simp [hs, Text.cutOne, hp c hc]

end Digits

theorem isWordChar_of_isAsciiDigit {c : Char} (hc : isAsciiDigit c = true) :
    isWordChar c = true := by
  simp [isWordChar, hc]

theorem isIdentifierChar_of_isAsciiDigit {c : Char} (hc : isAsciiDigit c = true) :
    Lexical.isIdentifierChar c = true := by
  simp only [isAsciiDigit] at hc
  simp [Lexical.isIdentifierChar, hc]

theorem ne_of_isAsciiDigit {c d : Char} (hc : isAsciiDigit c = true) (hd : isAsciiDigit d = false) :
    c ≠ d := by
  rintro rfl
  exact absurd (hd.symm.trans hc) Bool.false_ne_true

section Reading

variable (whole : Digits) (fraction : Option Digits) {r : List Char}

theorem readMantissa?_append (hr : StopsDigits r) (hdot : r.head? ≠ some '.') :
    Scientific.readMantissa? (mantissa whole fraction ++ r) =
      some (mantissa whole fraction, r) := by
  have hnotDot : ∀ c, isAsciiDigit c = true → decide (c = '.') = false := fun c hc =>
    decide_eq_false (ne_of_isAsciiDigit hc rfl)
  have hwhole : whole.text.isEmpty = false := by simpa using whole.ne_nil
  cases fraction with
  | none =>
      have hcut : cutOne (fun c => decide (c = '.')) r = ([], r) := by
        cases r with
        | nil => rfl
        | cons c r =>
            have hc : c ≠ '.' := fun hc => hdot (by rw [hc]; rfl)
            simp [cutOne, hc]
      have htake : r.takeWhile isAsciiDigit = [] := by
        cases r with
        | nil => rfl
        | cons c r => simp [hr c rfl]
      have hdrop : r.dropWhile isAsciiDigit = r := by
        cases r with
        | nil => rfl
        | cons c r => simp [hr c rfl]
      simp [Scientific.readMantissa?, mantissa, whole.cutOne _ hnotDot, whole.takeWhile hr,
        whole.dropWhile hr, hcut, hwhole, htake, hdrop]
  | some digits =>
      have hstop : StopsDigits ('.' :: (digits.text ++ r)) := fun c hc => by cases hc; rfl
      have hcut : cutOne (fun c => decide (c = '.')) ('.' :: (digits.text ++ r)) =
          (['.'], digits.text ++ r) := rfl
      simp [Scientific.readMantissa?, mantissa, whole.cutOne _ hnotDot, whole.takeWhile hstop,
        whole.dropWhile hstop, hcut, hwhole, digits.takeWhile hr, digits.dropWhile hr]

/-- A number without exponent is not in scientific notation. -/
theorem read?_mantissa (h : Ends r) : Scientific.read? (mantissa whole fraction ++ r) = none := by
  simp only [Scientific.read?, readMantissa?_append whole fraction h.stopsDigits h.head?_ne_dot]
  split
  · rfl
  · rename_i c rest htrim
    rw [if_neg]
    rintro rfl
    exact h.trimLeft_ne rest htrim

/-- A number with exponent is read to its end. -/
theorem read?_exponent (sign : ExponentSign) (digits : Digits) {gap : List Char}
    (hgap : ∀ c ∈ gap, isBlank c = true) (hr : StopsDigits r) :
    Scientific.read?
        (mantissa whole fraction ++ 'e' :: (gap ++ (sign.text ++ (gap ++ (digits.text ++ r))))) =
      some (⟨mantissa whole fraction, sign.text, digits.text⟩, r) := by
  have hstop : StopsDigits ('e' :: (gap ++ (sign.text ++ (gap ++ (digits.text ++ r))))) :=
    fun c hc => by cases hc; rfl
  have hmantissa := readMantissa?_append whole fraction hstop (by simp)
  have htrim : trimLeft ('e' :: (gap ++ (sign.text ++ (gap ++ (digits.text ++ r))))) =
      'e' :: (gap ++ (sign.text ++ (gap ++ (digits.text ++ r)))) := rfl
  have hdigits : trimLeft (digits.text ++ r) = digits.text ++ r := by
    obtain ⟨c, s, hs, hc⟩ := digits.exists_cons
    refine trimLeft_eq_self ?_
    simpa [hs] using isBlank_of_isWordChar (isWordChar_of_isAsciiDigit hc)
  have hempty : digits.text.isEmpty = false := by simpa using digits.ne_nil
  have hcut : cutOne (fun c => decide (c = '+') || decide (c = '-'))
      (trimLeft (gap ++ (sign.text ++ (gap ++ (digits.text ++ r))))) =
        (sign.text, if sign.text = [] then digits.text ++ r else gap ++ (digits.text ++ r)) := by
    rw [trimLeft_blanks_append hgap]
    cases sign with
    | none =>
        rw [ExponentSign.text, List.nil_append, trimLeft_blanks_append hgap, hdigits]
        refine digits.cutOne _ (fun c hc => ?_) r
        simp [ne_of_isAsciiDigit hc (by decide : isAsciiDigit '+' = false),
          ne_of_isAsciiDigit hc (by decide : isAsciiDigit '-' = false)]
    | plus => rfl
    | minus => rfl
  have hbehind : trimLeft (if sign.text = [] then digits.text ++ r else gap ++ (digits.text ++ r)) =
      digits.text ++ r := by
    split
    · exact hdigits
    · rw [trimLeft_blanks_append hgap, hdigits]
  simp only [Scientific.read?, hmantissa, htrim, if_true, Scientific.readExponent?, hcut, hbehind,
    digits.takeWhile hr, digits.dropWhile hr, hempty, Bool.false_eq_true, if_false]

end Reading

section Joining

theorem joinExponentsFrom_inName (c : Char) (r : List Char) :
    joinExponentsFrom true (c :: r) = c :: joinExponentsFrom (Lexical.isIdentifierChar c) r := by
  rw [joinExponentsFrom, if_pos rfl]

theorem joinExponentsFrom_none {c : Char} {r : List Char} (h : Scientific.read? (c :: r) = none)
    (inName : Bool) :
    joinExponentsFrom inName (c :: r) = c :: joinExponentsFrom (Lexical.isIdentifierChar c) r := by
  rw [joinExponentsFrom]
  split
  · rfl
  · split
    · rename_i hread
      rw [h] at hread
      cases hread
    · rfl

theorem joinExponentsFrom_some {s rest : List Char} {n : Scientific}
    (h : Scientific.read? s = some (n, rest)) :
    joinExponentsFrom false s = n.text ++ joinExponentsFrom true rest := by
  cases s with
  | nil => cases h
  | cons c r =>
      rw [joinExponentsFrom, if_neg Bool.false_ne_true]
      split
      · rename_i hread
        rw [h] at hread
        cases hread
        rfl
      · rename_i hread
        rw [h] at hread
        cases hread

theorem joinExponentsFrom_name {w : List Char} (hw : ∀ c ∈ w, Lexical.isIdentifierChar c = true)
    (r : List Char) : joinExponentsFrom true (w ++ r) = w ++ joinExponentsFrom true r :=
  append_of_passes (fun c hc t => by rw [joinExponentsFrom_inName, hw c hc]) r

theorem joinExponentsFrom_digits (d : Digits) {r : List Char} {inName : Bool}
    (h : inName = true ∨ Scientific.read? (d.text ++ r) = none) :
    joinExponentsFrom inName (d.text ++ r) = d.text ++ joinExponentsFrom true r := by
  have hname : ∀ c ∈ d.text, Lexical.isIdentifierChar c = true :=
    fun c hc => isIdentifierChar_of_isAsciiDigit (d.digit c hc)
  rcases h with rfl | hread
  · exact joinExponentsFrom_name hname r
  · obtain ⟨c, s, hs, -⟩ := d.exists_cons
    rw [hs] at hread hname ⊢
    rw [List.forall_mem_cons] at hname
    rw [List.cons_append] at hread
    rw [List.cons_append, joinExponentsFrom_none hread, hname.1, joinExponentsFrom_name hname.2,
      List.cons_append]

variable (whole : Digits) (fraction : Option Digits) {r : List Char}

theorem joinExponentsFrom_mantissa (h : Ends r) :
    joinExponentsFrom false (mantissa whole fraction ++ r) =
      mantissa whole fraction ++ joinExponentsFrom true r := by
  have hread := read?_mantissa whole fraction h
  cases fraction with
  | none =>
      simp only [mantissa, List.append_nil] at hread ⊢
      exact joinExponentsFrom_digits whole (.inr hread)
  | some digits =>
      simp only [mantissa, List.append_assoc] at hread ⊢
      -- behind the point the rule looks for a number anew
      have hfraction : Scientific.read? (digits.text ++ r) = none := by
        simpa [mantissa] using read?_mantissa digits none h
      rw [joinExponentsFrom_digits whole (.inr hread), List.cons_append, joinExponentsFrom_inName]
      have hdot : Lexical.isIdentifierChar '.' = false := by decide
      rw [hdot, joinExponentsFrom_digits digits (.inr hfraction), List.cons_append]

theorem joinExponentsFrom_exponent (sign : ExponentSign) (digits : Digits) (gap : List Char)
    (hgap : ∀ c ∈ gap, isBlank c = true) (hr : StopsDigits r) :
    joinExponentsFrom false
        (mantissa whole fraction ++ 'e' :: (gap ++ (sign.text ++ (gap ++ (digits.text ++ r))))) =
      mantissa whole fraction ++ 'e' :: (sign.text ++ digits.text) ++ joinExponentsFrom true r :=
  joinExponentsFrom_some (read?_exponent whole fraction sign digits hgap hr)

end Joining

end Expression
end MiniScriptLayout
