import MiniScriptLayout.Layout
import MiniScriptLayout.Proofs.Token.Dropping
import MiniScriptLayout.Proofs.Token.Exponent

/-!
The tokens of a normalised line. In a view where no sign of spacing glues anything, and which skips
commas and parentheses, a line has the tokens that it had before; only where the rule for numbers in
scientific notation closes a gap between words may words come together.
-/

namespace MiniScriptLayout

namespace Spacing

/-- The signs that spacing is about: dots, brackets, commas and what operators are made of. -/
def isSign (c : Char) : Bool :=
  c = '.' || c = ',' || Lexical.isBracket c || takesEquals c

def signs : List Char :=
  ['.', ',', '(', '[', '\x7b', ')', ']', '\x7d', '+', '*', '/', '%', '^', '<', '>', '=', '!', '-']

theorem mem_signs {c : Char} (h : isSign c = true) : c ∈ signs := by
  simp only [isSign, Lexical.isBracket, Lexical.isOpener, Lexical.isCloser, takesEquals,
    isOperator, Bool.or_eq_true, decide_eq_true_eq] at h
  simp only [signs, List.mem_cons, List.not_mem_nil, or_false]
  tauto

/-- A line as the rule for numbers in scientific notation finds it. -/
def beforeExponents (s : List Char) : List Char :=
  spaceMinuses (spaceOperators (spaceBrackets (collapse s)))

/-- The rule for numbers in scientific notation brings words of the line together. -/
def JoinsWords (code : List Char) : Prop :=
  ∃ w ∈ Scientific.stretches (beforeExponents code), SpacedNumber w

end Spacing

namespace View

open Spacing

/-- No sign of spacing glues its neighbours. -/
def Plain (v : View) : Prop :=
  ∀ c, isSign c = true → v.glued c = false

variable {v : View}

theorem Plain.of_signs (h : signs.any v.glued = false) : v.Plain := by
  intro c hc
  rw [List.any_eq_false] at h
  simpa using h c (mem_signs hc)

namespace Plain

variable (h : v.Plain)
include h

theorem dot : v.glued '.' = false := h '.' rfl

theorem comma : v.glued ',' = false := h ',' rfl

theorem minus : v.glued '-' = false := h '-' rfl

theorem opener (c : Char) (hc : Lexical.isOpener c = true) : v.glued c = false :=
  h c (by simp [isSign, Lexical.isBracket, hc])

theorem closer (c : Char) (hc : Lexical.isCloser c = true) : v.glued c = false :=
  h c (by simp [isSign, Lexical.isBracket, hc])

theorem operator (c : Char) (hc : takesEquals c = true) : v.glued c = false :=
  h c (by simp [isSign, hc])

/-- Whatever is glued stands apart from a closing bracket before it. -/
theorem standsApart (c : Char) (hc : v.glued c = true) : standsApart c = true := by
  have hblank : Text.isBlank c = false := by
    cases hb : Text.isBlank c with
    | false => rfl
    | true => simp [v.glued_blank c hb] at hc
  have hsign : isSign c = false := by
    cases hs : isSign c with
    | false => rfl
    | true => simp [h c hs] at hc
  simp only [isSign, takesEquals, Bool.or_eq_false_iff] at hsign
  simp [Spacing.standsApart, hblank, hsign]

end Plain

theorem closesItems_isCloser {c : Char} (h : closesItems c = true) :
    Lexical.isCloser c = true := by
  simp only [closesItems, Bool.or_eq_true, decide_eq_true_eq] at h
  rcases h with rfl | rfl <;> rfl

/-- The rules between the closing brackets and the numbers. -/
theorem tokens_spaceSigns (hcomma : v.glued ',' = false)
    (hop : ∀ c, takesEquals c = true → v.glued c = false) (s : List Char) :
    v.tokens (spaceMinuses (spaceOperators (spaceCommas s))) = v.tokens s := by
  have hminus : v.glued '-' = false := hop '-' rfl
  rw [spaceMinuses, tokens_spaceTightMinus hminus, tokens_spaceMinus hminus,
    tokens_tightenUnary hminus, tokens_splitMinusPairs hminus, tokens_spaceOperators hop,
    tokens_spaceCommas hcomma]

theorem tokens_beforeExponents (h : v.Plain) (s : List Char) :
    v.tokens (beforeExponents s) = v.tokens s := by
  rw [beforeExponents, spaceBrackets, tokens_spaceSigns h.comma h.operator,
    tokens_spaceAfterClosers h.closer, tokens_tightenClosers h.closer,
    tokens_tightenOpeners h.opener, tokens_tightenDots h.dot, tokens_collapse]

/-- The view in which a closing parenthesis is glued to its neighbours too. -/
def withParenthesis (v : View) : View where
  glued c := v.glued c || c = ')'
  kept := v.kept
  glued_blank := by
    intro c hc
    simp only [v.glued_blank c hc, Bool.false_or, decide_eq_false_iff_not]
    rintro rfl
    simp [Text.isBlank] at hc
  kept_blank := v.kept_blank

/-- Until its empty parameters are dropped, a line keeps words away from closing parentheses. -/
theorem apart_dropTrailingCommas (h : v.Plain) (hcomma : v.skips ',' = true) {s : List Char}
    (hj : v.glued 'e' = true → ¬ JoinsWords s) :
    Text.Apart (· = ')') v.glued (dropTrailingCommas (joinExponents (beforeExponents s))) := by
  have plain : ∀ c, c ≠ ')' → v.glued c = false → v.withParenthesis.glued c = false := by
    intro c hne hc
    simp [withParenthesis, hc, hne]
  have hop : ∀ c, takesEquals c = true → v.withParenthesis.glued c = false := by
    intro c hc
    refine plain c ?_ (h.operator c hc)
    rintro rfl
    simp [takesEquals, isOperator] at hc
  have hskips : v.withParenthesis.skips ',' = true := by
    simpa [skips, withParenthesis] using hcomma
  have hclose : ∀ c, closesItems c = true → v.withParenthesis.glued c = false := by
    intro c hc
    refine plain c ?_ (h.closer c (closesItems_isCloser hc))
    rintro rfl
    simp [closesItems] at hc
  have tokens_eq : v.withParenthesis.tokens
      (dropTrailingCommas (joinExponents (beforeExponents s))) = v.withParenthesis.tokens
      (spaceAfterClosers (tightenClosers (tightenOpeners (tightenDots (collapse s))))) := by
    have hnumbers : v.withParenthesis.glued 'e' = true →
        ∀ w ∈ Scientific.stretches (beforeExponents s), ¬ SpacedNumber w := by
      intro he w hw hsp
      exact hj (by simpa [withParenthesis] using he) ⟨w, hw, hsp⟩
    rw [tokens_dropTrailingCommas hskips hclose,
      tokens_joinExponents (hop '+' rfl) (hop '-' rfl) hnumbers, beforeExponents, spaceBrackets,
      tokens_spaceSigns (glued_of_skips hskips) hop]
  rw [apart_congr (v := v.withParenthesis) (by simp [withParenthesis])
    (by simp +contextual [withParenthesis]) tokens_eq]
  refine (apart_spaceAfterClosers _).mono ?_ h.standsApart
  intro c hc
  simp only [decide_eq_true_eq] at hc
  rw [hc]
  rfl

variable (h : v.Plain) (hcomma : v.skips ',' = true) (ho : v.skips '(' = true)
  (hc : v.skips ')' = true)
include h hcomma ho hc

theorem tokens_normalize {s : List Char} (hj : v.glued 'e' = true → ¬ JoinsWords s) :
    v.tokens (Spacing.normalize s) = v.tokens s := by
  have hnumbers : v.glued 'e' = true →
      ∀ w ∈ Scientific.stretches (beforeExponents s), ¬ SpacedNumber w :=
    fun he w hw hsp => hj he ⟨w, hw, hsp⟩
  calc
    v.tokens (Spacing.normalize s)
        = v.tokens (dropTrailingCommas (joinExponents (beforeExponents s))) :=
          tokens_dropEmptyParameters ho hc fun _ => apart_dropTrailingCommas h hcomma hj
    _ = v.tokens (joinExponents (beforeExponents s)) :=
          tokens_dropTrailingCommas hcomma (fun c hc => h.closer c (closesItems_isCloser hc)) _
    _ = v.tokens (beforeExponents s) :=
          tokens_joinExponents (h.operator '+' rfl) h.minus hnumbers
    _ = v.tokens s := tokens_beforeExponents h s

theorem tokens_normalizeLine (continued : Bool) {line : CodeLine}
    (hj : v.glued 'e' = true → ¬ JoinsWords line.code) :
    v.tokens (line.normalize continued).code = v.tokens line.code := by
  simp only [CodeLine.normalize]
  rw [tokens_trim, tokens_stripCondition ho hc]
  split
  · exact tokens_normalize h hcomma ho hc hj
  · rw [tokens_stripCall ho hc]
    exact tokens_normalize h hcomma ho hc hj

end View
end MiniScriptLayout
