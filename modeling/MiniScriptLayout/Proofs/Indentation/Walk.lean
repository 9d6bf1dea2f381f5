import Mathlib.Logic.Basic
import MiniScriptLayout.Indentation.Block

/-!
What each walk does at its first line. The equations leave out that a walk never ends before it
begins, which only its termination needs.
-/

namespace MiniScriptLayout
namespace Indentation

variable (region : Region) (openers : Int) {p : Place} {l : Shape} {ls : List Shape}

theorem continuation_nil (hp : p.lines = []) : continuation openers p = .stop p := by
  obtain ⟨lines, carried, after⟩ := p
  subst hp
  rw [continuation, walkContinuation]

theorem continuation_cons (hp : p.lines = l :: ls) :
    continuation openers p =
      let behind : Place := ⟨ls, 0, l.endsWithOperation⟩
      let left := openers - l.balance.closed
      let closing := if l.startsWithCloser then 0 else 1
      if !l.isIncomplete then ⟨[⟨0, p.carried + closing + p.operatorUnits⟩], (-left).toNat, behind⟩
      else if 0 < l.balance.opened then
        let inner := continuation l.balance.opened behind
        let nested := (inner.cons ⟨0, p.carried⟩).map (·.continued (1 + p.operatorUnits))
        let still := max left 0 - inner.excess
        if still ≤ 0 then ⟨nested.depths, (-still).toNat, nested.next⟩
        else nested.resume (continuation still inner.next)
      else if left ≤ 0 then ⟨[], (-left).toNat, ⟨l :: ls, p.carried + closing, p.afterOperation⟩⟩
      else (continuation left behind).cons ⟨0, p.carried + 1 + p.operatorUnits⟩ := by
  obtain ⟨lines, carried, after⟩ := p
  subst hp
  rw [continuation, walkContinuation]
  simp only [apply_ite Subtype.val]
  rfl

theorem body_nil (hp : p.lines = []) : body region p = .stop p := by
  obtain ⟨lines, carried, after⟩ := p
  subst hp
  rw [body, walkBody]

theorem body_cons (hp : p.lines = l :: ls) :
    body region p =
      let behind : Place := ⟨ls, 0, l.endsWithOperation⟩
      if region.endsAt l then .stop p
      else if l.opensBranch then
        let inner := branches behind
        (inner.cons ⟨0, p.carried⟩).append (body region inner.next)
      else if l.opensBlock then
        let inner := block behind
        (inner.cons ⟨0, p.carried⟩).append (body region inner.next)
      else if l.endsOpen then
        let inner := continuation l.balance.opened behind
        ((inner.cons ⟨0, p.carried⟩).map (·.continued p.operatorUnits)).append
          (body region inner.next)
      else (body region behind).cons ⟨0, p.carried + p.operatorUnits⟩ := by
  obtain ⟨lines, carried, after⟩ := p
  subst hp
  rw [body, walkBody]
  simp only [apply_ite Subtype.val]
  rfl

/-- A body in a block, and the line that ends it. -/
def Stretch.close (s : Stretch) (l : Shape) (ls : List Shape) : Stretch :=
  (s.map Depth.intoBlock).append ⟨[⟨0, s.next.carried⟩], 0, ⟨ls, 0, l.endsWithOperation⟩⟩

theorem branches_nil (h : (body .branch p).next.lines = []) :
    branches p = (body .branch p).map Depth.intoBlock := by
  rw [branches, walkBranches]
  dsimp only
  split
  · rfl
  · rename_i heq
    rw [body] at h
    rw [h] at heq
    cases heq

theorem branches_cons (h : (body .branch p).next.lines = l :: ls) :
    branches p =
      if l.startsElse then
        ((body .branch p).close l ls).append (branches ⟨ls, 0, l.endsWithOperation⟩)
      else (body .branch p).close l ls := by
  rw [branches, walkBranches]
  dsimp only
  split
  · rename_i heq
    rw [body] at h
    rw [h] at heq
    cases heq
  · rename_i l' ls' heq
    rw [body] at h
    rw [h] at heq
    cases heq
    split <;> rfl

theorem block_nil (h : (body .block p).next.lines = []) :
    block p = (body .block p).map Depth.intoBlock := by
  rw [block, walkBlock]
  dsimp only
  split
  · rfl
  · rename_i heq
    rw [body] at h
    rw [h] at heq
    cases heq

theorem block_cons (h : (body .block p).next.lines = l :: ls) :
    block p = (body .block p).close l ls := by
  rw [block, walkBlock]
  dsimp only
  split
  · rename_i heq
    rw [body] at h
    rw [h] at heq
    cases heq
  · rename_i l' ls' heq
    rw [body] at h
    rw [h] at heq
    cases heq
    rfl

/-- What the walk over a body in a region comes to, with the lines that divide and close it. -/
def Region.leave (r : Region) (s : Stretch) : Stretch :=
  match r, s.next.lines with
  | document, _ => s
  | _, [] => s.map Depth.intoBlock
  | branch, l :: ls =>
    if l.startsElse then (s.close l ls).append (branches ⟨ls, 0, l.endsWithOperation⟩)
    else s.close l ls
  | block, l :: ls => s.close l ls

theorem branches_eq_leave (p : Place) : branches p = Region.branch.leave (body .branch p) := by
  unfold Region.leave
  cases h : (body .branch p).next.lines with
  | nil => exact branches_nil h
  | cons l ls => exact branches_cons h

theorem block_eq_leave (p : Place) : block p = Region.block.leave (body .block p) := by
  unfold Region.leave
  cases h : (body .block p).next.lines with
  | nil => exact block_nil h
  | cons l ls => exact block_cons h

namespace Stretch

variable (ds es : List Depth) (s : Stretch)

/-- Lines with their depths before a stretch. -/
def behind : Stretch :=
  ⟨ds ++ s.depths, s.excess, s.next⟩

@[simp] theorem behind_next : (s.behind ds).next = s.next := rfl

theorem behind_behind : (s.behind es).behind ds = s.behind (ds ++ es) := by
  simp [behind]

theorem map_behind (f : Depth → Depth) : (s.behind ds).map f = (s.map f).behind (ds.map f) := by
  simp [behind, map]

theorem close_behind (l : Shape) (ls : List Shape) :
    (s.behind ds).close l ls = (s.close l ls).behind (ds.map Depth.intoBlock) := by
  simp [close, append, behind, map]

end Stretch

/-- The depth of a line around whose region `d` is counted. -/
def Region.enter : Region → Depth → Depth
  | document => id
  | branch => Depth.intoBlock
  | block => Depth.intoBlock

theorem Region.leave_behind (r : Region) (ds : List Depth) (s : Stretch) :
    r.leave (s.behind ds) = (r.leave s).behind (ds.map r.enter) := by
  cases r with
  | document => simp [leave, enter]
  | branch =>
      cases h : s.next.lines with
      | nil => simp only [leave, Stretch.behind_next, h, Stretch.map_behind, enter]
      | cons l ls =>
          simp only [leave, Stretch.behind_next, h, Stretch.close_behind, enter]
          split
          · simp [Stretch.append, Stretch.behind]
          · rfl
  | block =>
      cases h : s.next.lines with
      | nil => simp only [leave, Stretch.behind_next, h, Stretch.map_behind, enter]
      | cons l ls => simp only [leave, Stretch.behind_next, h, Stretch.close_behind, enter]

end Indentation
end MiniScriptLayout
