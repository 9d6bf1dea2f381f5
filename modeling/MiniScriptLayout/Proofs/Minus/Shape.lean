import MiniScriptLayout.Proofs.Comma.Sign
import MiniScriptLayout.Proofs.Text.Places

/-!
The two shapes of a minus sign: right before its operand, or with a space on each side. The four
rules for minus signs leave no other sign, in rows of any length. What carries this through the
rules is where two signs meet: the first of them has a space before it from the first rule on, so
that a space put before the second one makes the first one binary.

For each rule, `before` is what it has read so far and `before'` what it has written for that.
-/

namespace MiniScriptLayout
namespace Spacing

open Text Expression

/-- A minus sign here belongs to the operand behind it. -/
def Unary (before after : List Char) : Prop :=
  (∀ c ∈ before.getLast?, isBlank c = true ∨ Lexical.isOpener c = true ∨ c = ':') ∧
    ∃ c ∈ after.head?, isBlank c = false

/-- A minus sign here stands between operands, or at the end of the line. -/
def Binary (before after : List Char) : Prop :=
  before.getLast? = some ' ' ∧ ∀ c ∈ after.head?, c = ' '

def Shaped (before after : List Char) : Prop :=
  Unary before after ∨ Binary before after

variable {before before' after after' s : List Char}

theorem Unary.not_binary (h : Unary before after) : ¬ Binary before after := by
  rintro ⟨-, hafter⟩
  obtain ⟨-, c, hc, hblank⟩ := h
  rw [hafter c hc] at hblank
  cases hblank

theorem Shaped.congr (hlast : before'.getLast? = before.getLast?)
    (hhead : after'.head? = after.head?) (h : Shaped before after) : Shaped before' after' := by
  rwa [Shaped, Unary, Binary, hlast, hhead]

theorem endsOperand_eq_false {c : Char} :
    endsOperand c = false ↔ isBlank c = true ∨ Lexical.isOpener c = true ∨ c = ':' := by
  simp only [endsOperand, Bool.not_eq_false', Bool.or_eq_true, decide_eq_true_eq, or_assoc]

/-- A sign between two spaces is binary. -/
theorem atEach_spaced {P : List Char → List Char → Prop}
    (hP : ∀ before after, Binary before after → P before after)
    (h : AtEach '-' P (before ++ [' '] ++ ['-'] ++ [' ']) s) :
    AtEach '-' P before (' ' :: '-' :: ' ' :: s) := by
  refine (atEach_cons_of_ne (by decide)).2 (atEach_cons.2 ⟨fun _ => hP _ _ ?_, ?_⟩)
  · exact ⟨List.getLast?_concat, fun c hc => (Option.some.inj hc).symm⟩
  · exact (atEach_cons_of_ne (by decide)).2 h

/-- A minus sign with another one right behind it has a space before it. -/
def PairSpaced (before after : List Char) : Prop :=
  after.head? = some '-' → before.getLast? = some ' '

section Pairs

theorem atEach_splitMinusPairs (before s : List Char) :
    AtEach '-' PairSpaced before (splitMinusPairs s) := by
  fun_induction splitMinusPairs s generalizing before with
  | case1 => exact atEach_nil
  | case2 c => exact atEach_cons.2 ⟨fun _ hhead => absurd hhead (by decide), atEach_nil⟩
  | case3 c d r _ ih =>
      refine atEach_cons.2 ⟨fun _ hhead => absurd (Option.some.inj hhead) (by decide), ?_⟩
      refine (atEach_cons_of_ne (by decide)).2 ?_
      exact atEach_cons.2 ⟨fun _ _ => List.getLast?_concat, ih _⟩
  | case4 c d r hpair ih =>
      refine atEach_cons.2 ⟨fun hc hhead => ?_, ih _⟩
      rw [head?_splitMinusPairs] at hhead
      exact absurd ⟨hc, Option.some.inj hhead⟩ hpair

end Pairs

section UnarySigns

theorem head?_of_tightenUnary (h : (tightenUnary s).head? = some '-') : s.head? = some '-' := by
  induction s with
  | nil => cases h
  | cons c r ih =>
      rw [tightenUnary] at h
      split at h
      · split at h
        · rename_i hblank
          rw [startsBlank, ih h] at hblank
          cases hblank
        · cases h
      · exact h

/-- The blanks before a unary sign may go but for one, which is a space. -/
theorem atEach_tightenUnary (h : AtEach '-' PairSpaced before s)
    (hlast : s.head? = some '-' → before.getLast? = some ' ' → before'.getLast? = some ' ') :
    AtEach '-' PairSpaced before' (tightenUnary s) := by
  induction s generalizing before before' with
  | nil => exact atEach_nil
  | cons c r ih =>
      obtain ⟨hplace, hrest⟩ := atEach_cons.1 h
      rw [tightenUnary]
      split
      · split
        · rename_i hblank
          refine ih hrest fun hhead => ?_
          rw [startsBlank, hhead] at hblank
          cases hblank
        · exact (atEach_cons_of_ne (by decide)).2 (ih hrest fun _ _ => List.getLast?_concat)
      · refine atEach_cons.2 ⟨?_, ih hrest fun _ hspace => ?_⟩
        · rintro rfl hhead
          exact hlast rfl (hplace rfl (head?_of_tightenUnary hhead))
        · rwa [List.getLast?_concat] at hspace ⊢

end UnarySigns

section BinarySigns

/-- Before the last rule, a sign that is not binary has its operand right behind it, and maybe
another operand right before it. -/
def Settling (before after : List Char) : Prop :=
  PairSpaced before after ∧ (startsUnary ('-' :: after) = true ∨ Binary before after)

theorem Binary.settling (h : Binary before after) : Settling before after :=
  ⟨fun hhead => absurd (h.2 '-' hhead) (by decide), .inr h⟩

theorem startsUnary_minus {d : Char} (hd : isBlank d = false) (r : List Char) :
    startsUnary ('-' :: d :: r) = true := by
  simp [startsUnary, hd]

theorem eq_minus_of_startsBinary {c : Char} {r : List Char} (h : startsBinary (c :: r) = true) :
    c = '-' := by
  by_contra hne
  rw [startsBinary_of_ne hne] at h
  cases h

/-- A sign that is not binary where the rule comes to it: its operand stays right behind it, unless
that is a sign which is binary itself. -/
theorem settling_spaceMinusFrom (hminus : startsBinary ('-' :: s) = false)
    (hpair : PairSpaced before s) (hlast : startsUnary ('-' :: s) = true →
      before.getLast? = some ' ' → before'.getLast? = some ' ') :
    Settling before' (spaceMinusFrom false s) := by
  cases s with
  | nil => cases hminus
  | cons d r =>
      have hd : isBlank d = false := by simpa [startsBinary] using hminus
      have hspace (hsign : d = '-') : before'.getLast? = some ' ' :=
        hlast (startsUnary_minus hd r) (hpair (congrArg some hsign))
      cases hbinary : startsBinary (d :: r) with
      | true =>
          rw [spaceMinusFrom, if_neg (by simp [hd]), if_pos hbinary]
          refine Binary.settling ⟨hspace (eq_minus_of_startsBinary hbinary), fun c hc => ?_⟩
          exact (Option.some.inj hc).symm
      | false =>
          rw [spaceMinusFrom_nonblank hd hbinary]
          exact ⟨fun hhead => hspace (Option.some.inj hhead), .inl (startsUnary_minus hd _)⟩

/-- Of what stands before the text only its last character counts, and that only for a row of signs
at the start of the text. -/
theorem atEach_spaceMinusFrom (after : Bool) (h : AtEach '-' PairSpaced before s)
    (hafter : after = true → before'.getLast? = some ' ')
    (hlast : startsUnary s = true → before.getLast? = some ' ' → before'.getLast? = some ' ') :
    AtEach '-' Settling before' (spaceMinusFrom after s) := by
  induction s generalizing after before before' with
  | nil => exact atEach_nil
  | cons c r ih =>
      obtain ⟨hplace, hrest⟩ := atEach_cons.1 h
      have hkeep : AtEach '-' Settling (before' ++ [c]) (spaceMinusFrom false r) :=
        ih false hrest (fun h => by cases h) fun _ hspace => by
          rwa [List.getLast?_concat] at hspace ⊢
      rw [spaceMinusFrom]
      split
      · rename_i hblank
        split
        · rename_i hdrop
          refine ih after hrest hafter fun hunary _ => ?_
          obtain ⟨d, t, rfl, hd⟩ := startsUnary_eq_true hunary
          rw [trimLeft_eq_self (by simp [isBlank]), startsBinary_of_nonblank hd,
            Bool.or_false] at hdrop
          exact hafter hdrop
        · exact (atEach_cons_of_ne (ne_minus (.inl hblank))).2 hkeep
      · rename_i hblank
        split
        · rename_i hbinary
          obtain rfl := eq_minus_of_startsBinary hbinary
          exact atEach_spaced (fun _ _ => Binary.settling) (ih true hrest
            (fun _ => List.getLast?_concat) fun _ _ => List.getLast?_concat)
        · rename_i hbinary
          rw [Bool.not_eq_true] at hbinary
          refine atEach_cons.2 ⟨?_, hkeep⟩
          rintro rfl
          exact settling_spaceMinusFrom hbinary (hplace rfl) hlast

end BinarySigns

section TightSigns

/-- A sign that joins no operands where the rule comes to it: it is unary, unless a space comes
between it and a sign behind it. -/
theorem shaped_spaceTightMinusFrom (h : Settling before s)
    (hlast : before'.getLast? = before.getLast?)
    (hleft : ∀ c ∈ before.getLast?, startsUnary ('-' :: s) = true → endsOperand c = false) :
    Shaped before' (spaceTightMinusFrom true s) := by
  obtain ⟨hpair, hunary | ⟨hspace, hhead⟩⟩ := h
  · cases s with
    | nil => exact absurd hunary (by decide)
    | cons d r =>
        cases hd : startsUnary (d :: r) with
        | true =>
            obtain ⟨e, t, hs, -⟩ := startsUnary_eq_true hd
            obtain ⟨rfl, rfl⟩ := List.cons_eq_cons.1 hs
            refine .inr ⟨hlast.trans (hpair rfl), fun c hc => ?_⟩
            rw [spaceTightMinusFrom, hd] at hc
            exact (Option.some.inj hc).symm
        | false =>
            refine .inl ⟨fun c hc => endsOperand_eq_false.1 ?_, d, ?_, ?_⟩
            · exact hleft c (hlast ▸ hc) hunary
            · rw [spaceTightMinusFrom_cons (.inr hd)]
              rfl
            · simpa [startsUnary] using hunary
  · refine .inr ⟨hlast.trans hspace, fun c hc => ?_⟩
    cases s with
    | nil => cases hc
    | cons d r =>
        obtain rfl : d = ' ' := hhead d rfl
        rw [spaceTightMinusFrom_cons (.inr (startsUnary_of_ne (by decide) r))] at hc
        exact (Option.some.inj hc).symm

/-- What the rule has written ends like what it has read, but for the space behind a sign that it
has made binary. -/
theorem atEach_spaceTightMinusFrom (operand : Bool) (h : AtEach '-' Settling before s)
    (hoperand : before.getLast?.any endsOperand = operand)
    (hlast : before'.getLast? = before.getLast? ∨ before.getLast? = some '-') :
    AtEach '-' Shaped before' (spaceTightMinusFrom operand s) := by
  induction s generalizing operand before before' with
  | nil => exact atEach_nil
  | cons c r ih =>
      obtain ⟨hplace, hrest⟩ := atEach_cons.1 h
      rw [spaceTightMinusFrom]
      split
      · rename_i hjoins
        rw [Bool.and_eq_true] at hjoins
        obtain ⟨d, t, hs, -⟩ := startsUnary_eq_true hjoins.2
        obtain ⟨rfl, rfl⟩ := List.cons_eq_cons.1 hs
        exact atEach_spaced (fun _ _ => .inr)
          (ih true hrest (by rw [List.getLast?_concat]; rfl) (.inr List.getLast?_concat))
      · rename_i hjoins
        refine atEach_cons.2 ⟨?_, ih _ hrest (by rw [List.getLast?_concat]; rfl)
          (.inl (by rw [List.getLast?_concat, List.getLast?_concat]))⟩
        rintro rfl
        have hleft : ∀ d ∈ before.getLast?, startsUnary ('-' :: r) = true →
            endsOperand d = false := by
          intro d hd hunary
          rw [Option.mem_def.1 hd] at hoperand
          rw [← hoperand, hunary, Bool.and_true, Bool.not_eq_true] at hjoins
          exact hjoins
        have hsign : before.getLast? ≠ some '-' := by
          intro hminus
          rcases (hplace rfl).2 with hunary | hbinary
          · exact absurd (hleft '-' hminus hunary) (by decide)
          · exact absurd (hminus.symm.trans hbinary.1) (by decide)
        exact shaped_spaceTightMinusFrom (hplace rfl) (hlast.resolve_right hsign) hleft

end TightSigns

theorem atEach_spaceMinuses (s : List Char) : AtEach '-' Shaped [] (spaceMinuses s) := by
  have htightened : AtEach '-' PairSpaced [] (tightenUnary (splitMinusPairs s)) :=
    atEach_tightenUnary (atEach_splitMinusPairs [] s) fun _ hlast => hlast
  have hsettling : AtEach '-' Settling [] (spaceMinus (tightenUnary (splitMinusPairs s))) :=
    atEach_spaceMinusFrom false htightened nofun fun _ hlast => hlast
  exact atEach_spaceTightMinusFrom false hsettling rfl (.inl rfl)

end Spacing
end MiniScriptLayout
