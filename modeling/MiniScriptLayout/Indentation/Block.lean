import MiniScriptLayout.Indentation.Continuation

/-!
Blocks: the branches of an `if`, loops and functions. Each block around a line adds one block unit
to its indentation. A block that nothing closes goes on to the end of the text, and a line that
closes or divides no open block is indented as any other.
-/

namespace MiniScriptLayout
namespace Indentation

/-- What the lines of a body stand in. -/
inductive Region where
  /-- The whole text, which no line ends. -/
  | document
  /-- A branch of an `if`, which ends before `else` and `end`. -/
  | branch
  /-- A loop or function, which ends before `end`. -/
  | block
  deriving DecidableEq, Repr

/-- The line ends a body of this region. -/
def Region.endsAt : Region → Shape → Bool
  | document, _ => false
  | branch, l => l.startsElse || l.startsEnd
  | block, l => l.startsEnd

mutual

/-- Indents the statements of a body up to the line that ends its region. -/
def walkBody (region : Region) (p : Place) :
    { s : Stretch // s.next.lines.length ≤ p.lines.length } :=
  match h : p.lines with
  | [] => ⟨.stop p, Nat.le_of_eq (congrArg List.length h)⟩
  | l :: ls =>
    if region.endsAt l then ⟨.stop p, Nat.le_of_eq (congrArg List.length h)⟩
    else if l.opensBranch then
      let inner := walkBranches ⟨ls, 0, l.endsWithOperation⟩
      let rest := walkBody region inner.val.next
      ⟨(inner.val.cons ⟨0, p.carried⟩).append rest.val,
        Nat.le_succ_of_le (Nat.le_trans rest.property inner.property)⟩
    else if l.opensBlock then
      let inner := walkBlock ⟨ls, 0, l.endsWithOperation⟩
      let rest := walkBody region inner.val.next
      ⟨(inner.val.cons ⟨0, p.carried⟩).append rest.val,
        Nat.le_succ_of_le (Nat.le_trans rest.property inner.property)⟩
    else if l.endsOpen then
      let inner := walkContinuation l.balance.opened ⟨ls, 0, l.endsWithOperation⟩
      let rest := walkBody region inner.val.next
      ⟨((inner.val.cons ⟨0, p.carried⟩).map (·.continued p.operatorUnits)).append rest.val,
        Nat.le_succ_of_le (Nat.le_trans rest.property inner.property)⟩
    else
      let rest := walkBody region ⟨ls, 0, l.endsWithOperation⟩
      ⟨rest.val.cons ⟨0, p.carried + p.operatorUnits⟩, Nat.le_succ_of_le rest.property⟩
termination_by (p.lines.length, 0)
decreasing_by
  · exact Prod.Lex.left _ _ (by simp [h])
  · exact Prod.Lex.left _ _ (Nat.lt_of_le_of_lt inner.property (by simp [h]))
  · exact Prod.Lex.left _ _ (by simp [h])
  · exact Prod.Lex.left _ _ (Nat.lt_of_le_of_lt inner.property (by simp [h]))
  · exact Prod.Lex.left _ _ (Nat.lt_of_le_of_lt inner.property (by simp [h]))
  · exact Prod.Lex.left _ _ (by simp [h])

/-- Indents what follows an `if … then` line, up to and with its `end` line. -/
def walkBranches (p : Place) : { s : Stretch // s.next.lines.length ≤ p.lines.length } :=
  let body := walkBody .branch p
  let indented := body.val.map Depth.intoBlock
  match h : body.val.next.lines with
  | [] => ⟨indented, body.property⟩
  | l :: ls =>
    have hlt : ls.length < p.lines.length := by
      have hb := body.property
      rw [h] at hb
      exact hb
    let closed := indented.append ⟨[⟨0, body.val.next.carried⟩], 0, ⟨ls, 0, l.endsWithOperation⟩⟩
    if l.startsElse then
      let rest := walkBranches ⟨ls, 0, l.endsWithOperation⟩
      ⟨closed.append rest.val, Nat.le_trans rest.property (Nat.le_of_lt hlt)⟩
    else ⟨closed, Nat.le_of_lt hlt⟩
termination_by (p.lines.length, 1)
decreasing_by
  · exact Prod.Lex.right _ (by decide)
  · exact Prod.Lex.left _ _ hlt

/-- Indents what follows the head of a loop or function, up to and with its `end` line. -/
def walkBlock (p : Place) : { s : Stretch // s.next.lines.length ≤ p.lines.length } :=
  let body := walkBody .block p
  let indented := body.val.map Depth.intoBlock
  match h : body.val.next.lines with
  | [] => ⟨indented, body.property⟩
  | l :: ls =>
    have hlt : ls.length < p.lines.length := by
      have hb := body.property
      rw [h] at hb
      exact hb
    ⟨indented.append ⟨[⟨0, body.val.next.carried⟩], 0, ⟨ls, 0, l.endsWithOperation⟩⟩,
      Nat.le_of_lt hlt⟩
termination_by (p.lines.length, 1)
decreasing_by
  · exact Prod.Lex.right _ (by decide)

end

/-- The statements of a body up to the line that ends its region. -/
def body (region : Region) (p : Place) : Stretch :=
  (walkBody region p).val

/-- What follows an `if … then` line, up to and with its `end` line. -/
def branches (p : Place) : Stretch :=
  (walkBranches p).val

/-- What follows the head of a loop or function, up to and with its `end` line. -/
def block (p : Place) : Stretch :=
  (walkBlock p).val

/-- Indents all lines of a text. -/
def ofShapes (lines : List Shape) : Stretch :=
  body .document ⟨lines, 0, false⟩

end Indentation
end MiniScriptLayout
