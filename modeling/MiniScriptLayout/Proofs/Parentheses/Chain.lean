import MiniScriptLayout.Parentheses.Call
import MiniScriptLayout.Proofs.Parentheses.Balanced

/-!
Call statements. Read from their end, the chains that the layout accepts are exactly those of names,
dots and bracket groups, so that a line loses the parentheses of its arguments exactly if a chain
stands before them and nothing behind them.
-/

namespace MiniScriptLayout
namespace Parentheses

/-- Identifier characters, dots and bracket groups in a row. In a group only the brackets of its own
kind have to be balanced. -/
inductive Chain : List Char → Prop
  | nil : Chain []
  | name {c : Char} {s : List Char} (hc : c = '.' ∨ Lexical.isIdentifierChar c = true)
      (hs : Chain s) : Chain (c :: s)
  | group {opener closer : Char} {inner s : List Char}
      (hkind : Lexical.openerOf? closer = some opener) (hinner : Balanced opener closer inner)
      (hs : Chain s) : Chain (opener :: (inner ++ closer :: s))

theorem Chain.append {s t : List Char} (hs : Chain s) (ht : Chain t) : Chain (s ++ t) := by
  induction hs with
  | nil => exact ht
  | name hc _ ih => exact .name hc ih
  | group hkind hinner _ ih =>
      rw [List.cons_append, List.append_assoc, List.cons_append]
      exact .group hkind hinner ih

section Kinds

variable {opener closer : Char} (hkind : Lexical.openerOf? closer = some opener)
include hkind

theorem kind_cases :
    opener = '(' ∧ closer = ')' ∨ opener = '[' ∧ closer = ']' ∨
      opener = '\x7b' ∧ closer = '\x7d' := by
  unfold Lexical.openerOf? at hkind
  split at hkind
  · rename_i hc
    exact .inl ⟨(Option.some.inj hkind).symm, hc⟩
  · split at hkind
    · rename_i hc
      exact .inr (.inl ⟨(Option.some.inj hkind).symm, hc⟩)
    · split at hkind
      · rename_i hc
        exact .inr (.inr ⟨(Option.some.inj hkind).symm, hc⟩)
      · cases hkind

theorem opener_ne_closer : opener ≠ closer := by
  rcases kind_cases hkind with ⟨rfl, rfl⟩ | ⟨rfl, rfl⟩ | ⟨rfl, rfl⟩ <;> decide

theorem not_name_closer : ¬ (closer = '.' ∨ Lexical.isIdentifierChar closer = true) := by
  rcases kind_cases hkind with ⟨rfl, rfl⟩ | ⟨rfl, rfl⟩ | ⟨rfl, rfl⟩ <;> decide

end Kinds

section Reversed

variable {c opener closer : Char} {inner s : List Char}

theorem isReversedChain_name (hc : c = '.' ∨ Lexical.isIdentifierChar c = true) (r : List Char) :
    isReversedChain (c :: r) = isReversedChain r := by
  rw [isReversedChain, if_pos (by simpa using hc)]

theorem isReversedChain_group (hkind : Lexical.openerOf? closer = some opener)
    (hinner : Balanced closer opener inner) (r : List Char) :
    isReversedChain (closer :: (inner ++ opener :: r)) = isReversedChain r := by
  have hread : enclosed closer opener 0 (inner ++ opener :: r) = some (inner, r) :=
    (enclosed_eq_some_iff (opener_ne_closer hkind)).2 ⟨rfl, hinner⟩
  rw [isReversedChain, if_neg (by simpa using not_name_closer hkind)]
  simp only [hkind]
  split
  · rename_i h
    rw [hread] at h
    cases h
  · rename_i h
    rw [hread] at h
    cases h
    rfl

/-- The check passes over a chain from its end. -/
theorem isReversedChain_append (hs : Chain s) (r : List Char) :
    isReversedChain (s.reverse ++ r) = isReversedChain r := by
  induction hs generalizing r with
  | nil => rfl
  | @name c s hc _ ih =>
      rw [List.reverse_cons, List.append_assoc, ih]
      exact isReversedChain_name hc r
  | @group opener closer inner s hkind hinner _ ih =>
      have hsplit : (opener :: (inner ++ closer :: s)).reverse ++ r =
          s.reverse ++ closer :: (inner.reverse ++ opener :: r) := by simp
      rw [hsplit, ih, isReversedChain_group hkind hinner.reverse]

theorem chain_of_isReversedChain (h : isReversedChain s = true) : Chain s.reverse := by
  fun_induction isReversedChain s with
  | case1 => exact .nil
  | case2 c r hc ih =>
      rw [List.reverse_cons]
      exact (ih h).append (.name (by simpa using hc) .nil)
  | case3 => cases h
  | case4 => cases h
  | case5 c r _ opener hkind inner rest hread ih =>
      obtain ⟨rfl, hinner⟩ := (enclosed_eq_some_iff (opener_ne_closer hkind)).1 hread
      have hchain := (ih h).append (.group hkind hinner.reverse .nil)
      simpa using hchain

theorem isReversedChain_reverse_iff : isReversedChain s.reverse = true ↔ Chain s := by
  constructor
  · intro h
    simpa using chain_of_isReversedChain h
  · intro h
    have hpass := isReversedChain_append h []
    rw [List.append_nil] at hpass
    rw [hpass, isReversedChain]

end Reversed

/-- But for blanks at its end, the line is a chain and its arguments in parentheses. -/
structure IsCall (line chain arguments : List Char) : Prop where
  line_eq : Text.trimRight line = chain ++ '(' :: (arguments ++ [')'])
  isChain : Chain chain
  balanced : Balanced '(' ')' arguments

theorem stripCall_of_isCall {line chain arguments : List Char} (h : IsCall line chain arguments) :
    stripCall line = chain ++ ' ' :: arguments := by
  have hreverse : (Text.trimRight line).reverse =
      ')' :: (arguments.reverse ++ '(' :: chain.reverse) := by simp [h.line_eq]
  have hread : enclosed ')' '(' 0 (arguments.reverse ++ '(' :: chain.reverse) =
      some (arguments.reverse, chain.reverse) :=
    (enclosed_eq_some_iff (by decide)).2 ⟨rfl, h.balanced.reverse⟩
  simp only [stripCall, hreverse, hread, isReversedChain_reverse_iff.2 h.isChain, if_true,
    List.reverse_reverse]

theorem isCall_of_stripCall_ne {line : List Char} (h : stripCall line ≠ Text.trimRight line) :
    ∃ chain arguments, IsCall line chain arguments := by
  simp only [stripCall] at h
  split at h
  · rename_i r hreverse
    split at h
    · exact absurd rfl h
    · rename_i arguments chain hread
      split at h
      · rename_i hchain
        obtain ⟨rfl, hbalanced⟩ := (enclosed_eq_some_iff (by decide)).1 hread
        refine ⟨chain.reverse, arguments.reverse, ?_, chain_of_isReversedChain hchain,
          hbalanced.reverse⟩
        rw [← List.reverse_reverse (Text.trimRight line), hreverse]
        simp
      · exact absurd rfl h
  · exact absurd rfl h

/-- A call statement loses the parentheses around its arguments. Any other line loses nothing but
the blanks at its end. -/
theorem stripCall_calls (line : List Char) :
    (∀ chain arguments, IsCall line chain arguments →
      stripCall line = chain ++ ' ' :: arguments) ∧
    ((¬ ∃ chain arguments, IsCall line chain arguments) →
      stripCall line = Text.trimRight line) := by
  refine ⟨fun chain arguments h => stripCall_of_isCall h, fun h => ?_⟩
  by_cases heq : stripCall line = Text.trimRight line
  · exact heq
  · exact absurd (isCall_of_stripCall_ne heq) h

/-- The group before the arguments may hold brackets of other kinds as it likes. -/
theorem stripCall_calls_group : IsCall "f[(].g(x) ".toList "f[(].g".toList ['x'] ∧
    stripCall "f[(].g(x) ".toList = "f[(].g x".toList := by
  have hcall : IsCall "f[(].g(x) ".toList "f[(].g".toList ['x'] :=
    ⟨by decide, isReversedChain_reverse_iff.1 (by cbv), .char (by decide) (by decide) .nil⟩
  exact ⟨hcall, (stripCall_calls _).1 _ _ hcall⟩

end Parentheses
end MiniScriptLayout
