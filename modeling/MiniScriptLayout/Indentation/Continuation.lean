import MiniScriptLayout.Indentation.Stretch

/-!
Lines that continue a statement: the items of open brackets, and what follows a comma, a colon or
a binary operator. Every level of brackets adds one continuation unit, and a line behind an operator
one more.
-/

namespace MiniScriptLayout
namespace Indentation

/-- Indents the lines that continue a statement which left `openers` brackets open. The stretch ends
behind the first line that completes the statement, or before a line that closes the last of the
brackets and goes on itself; such a line is indented again by whoever comes next. -/
def walkContinuation (openers : Int) (p : Place) :
    { s : Stretch // s.next.lines.length ≤ p.lines.length } :=
  match h : p.lines with
  | [] => ⟨.stop p, Nat.le_of_eq (congrArg List.length h)⟩
  | l :: ls =>
    let open₁ := openers - l.balance.closed
    let closing := if l.startsWithCloser then 0 else 1
    if !l.isIncomplete then
      ⟨⟨[⟨0, p.carried + closing + p.operatorUnits⟩], (-open₁).toNat, ⟨ls, 0, l.endsWithOperation⟩⟩,
        Nat.le_succ _⟩
    else if 0 < l.balance.opened then
      let inner := walkContinuation l.balance.opened ⟨ls, 0, l.endsWithOperation⟩
      let nested := (inner.val.cons ⟨0, p.carried⟩).map (·.continued (1 + p.operatorUnits))
      let open₂ := max open₁ 0 - inner.val.excess
      if open₂ ≤ 0 then
        ⟨⟨nested.depths, (-open₂).toNat, nested.next⟩, Nat.le_succ_of_le inner.property⟩
      else
        let rest := walkContinuation open₂ inner.val.next
        ⟨nested.resume rest.val,
          Nat.le_succ_of_le (Nat.le_trans rest.property inner.property)⟩
    else if open₁ ≤ 0 then
      ⟨⟨[], (-open₁).toNat, ⟨l :: ls, p.carried + closing, p.afterOperation⟩⟩, Nat.le_refl _⟩
    else
      let rest := walkContinuation open₁ ⟨ls, 0, l.endsWithOperation⟩
      ⟨rest.val.cons ⟨0, p.carried + 1 + p.operatorUnits⟩, Nat.le_succ_of_le rest.property⟩
termination_by p.lines.length
decreasing_by
  · simp [h]
  · exact Nat.lt_of_le_of_lt inner.property (by simp [h])
  · simp [h]

/-- The lines that continue a statement which left `openers` brackets open. -/
def continuation (openers : Int) (p : Place) : Stretch :=
  (walkContinuation openers p).val

end Indentation
end MiniScriptLayout
