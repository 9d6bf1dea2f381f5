import MiniScriptLayout.Proofs.Indentation.Extension

/-!
The depth of a line does not depend on the lines behind it. A walk either ends at a place that more
lines at the end of the text do not change, or it reads all lines, and then it gives them the same
depths when it goes on.
-/

namespace MiniScriptLayout
namespace Indentation

namespace Stretch

variable {s : Stretch} {t : List Shape → Stretch} {g : Place → Stretch}

/-- `t` is the stretch `s` when lines follow: the depths of `s` stand at its start. -/
inductive Causal (s : Stretch) (t : List Shape → Stretch) : Prop
  | stops : s.Stops t → Causal s t
  | goesOn : s.next.lines = [] → (∀ rest, s.depths <+: (t rest).depths) → Causal s t

namespace Causal

theorem isPrefix (h : s.Causal t) (rest : List Shape) : s.depths <+: (t rest).depths := by
  cases h with
  | stops h => exact ⟨[], by rw [List.append_nil, h rest]⟩
  | goesOn _ h => exact h rest

theorem cons (h : s.Causal t) (d : Depth) : (s.cons d).Causal fun rest => (t rest).cons d := by
  cases h with
  | stops h => exact .stops (h.cons d)
  | goesOn hnext h => exact .goesOn hnext fun rest => List.prefix_cons_inj d |>.2 (h rest)

theorem map (h : s.Causal t) (f : Depth → Depth) :
    (s.map f).Causal fun rest => (t rest).map f := by
  cases h with
  | stops h => exact .stops (h.map f)
  | goesOn hnext h => exact .goesOn hnext fun rest => (h rest).map f

/-- A walk that goes on where another one ends; at the end of the text it has nothing to read. -/
theorem join (h : s.Causal t) (k : (g s.next).Causal fun rest => g (s.next.extend rest))
    (hnil : s.next.lines = [] → g s.next = .stop s.next) (excess : Nat → Nat → Nat) :
    (s.join excess (g s.next)).Causal fun rest => (t rest).join excess (g (t rest).next) := by
  cases h with
  | stops h =>
      cases k with
      | stops k => exact .stops (h.join k excess)
      | goesOn hnext k =>
          refine .goesOn hnext fun rest => ?_
          simp only [h rest]
          exact (List.prefix_append_right_inj s.depths).2 (k rest)
  | goesOn hnext h =>
      rw [hnil hnext]
      refine .goesOn hnext fun rest => ?_
      simp only [Stretch.join, stop, List.append_nil]
      exact (h rest).trans (List.prefix_append _ _)

end Causal
end Stretch

theorem Stretch.isPrefix_behindGroup (s : Stretch) (left : Int) :
    s.depths <+: (s.behindGroup left).depths := by
  unfold behindGroup
  dsimp only
  split
  · exact List.prefix_refl _
  · exact List.prefix_append _ _

theorem Stretch.Causal.group {s : Stretch} {t : List Shape → Stretch} (h : s.Causal t) (left : Int)
    (d : Depth) (f : Depth → Depth) : s.Stops t ∨
      (((s.cons d).map f).behindGroup left).Causal fun rest =>
        (((t rest).cons d).map f).behindGroup left := by
  cases h with
  | stops h => exact .inl h
  | goesOn hnext h =>
      obtain ⟨hdepths, hlast⟩ := Stretch.behindGroup_of_nil (s := (s.cons d).map f) hnext left
      refine .inr (.goesOn (hlast ▸ hnext) fun rest => ?_)
      have hprefix : ((s.cons d).map f).depths <+: (((t rest).cons d).map f).depths :=
        ((List.prefix_cons_inj d).2 (h rest)).map f
      rw [hdepths]
      exact hprefix.trans (isPrefix_behindGroup _ left)

theorem Region.isPrefix_leave (r : Region) (s : Stretch) :
    s.depths.map r.enter <+: (r.leave s).depths := by
  cases r with
  | document => simp [leave, enter]
  | branch =>
      cases h : s.next.lines with
      | nil => simp [leave, h, enter, Stretch.map]
      | cons l ls =>
          have hclose : s.depths.map Depth.intoBlock <+: (s.close l ls).depths :=
            List.prefix_append _ _
          simp only [leave, h, enter]
          split
          · exact hclose.trans (List.prefix_append _ _)
          · exact hclose
  | block =>
      cases h : s.next.lines with
      | nil => simp [leave, h, enter, Stretch.map]
      | cons l ls =>
          simp only [leave, h, enter]
          exact List.prefix_append _ _

theorem Stretch.Causal.leave (r : Region) {s : Stretch} {t : List Shape → Stretch}
    (h : s.Causal t) : s.Stops t ∨ (r.leave s).Causal fun rest => r.leave (t rest) := by
  cases h with
  | stops h => exact .inl h
  | goesOn hnext h =>
      rw [r.leave_of_nil hnext]
      exact .inr (.goesOn hnext fun rest => ((h rest).map _).trans (r.isPrefix_leave _))

theorem Stretch.Causal.of_nil {s : Stretch} {t : List Shape → Stretch} {p : Place}
    (hp : p.lines = []) (hs : s = .stop p) : s.Causal t := by
  rw [hs]
  exact .goesOn hp fun rest => List.nil_prefix

/-- What the steps of the walks keep. -/
theorem Stretch.Causal.compatible : Compatible Causal Causal where
  stopsContinuation := .stops
  consContinuation d h := h.cons d
  continued _ h := h.map _
  resume h k := Stretch.Causal.join (.stops h) k (continuation_nil _) fun _ excess => excess
  group left d _ h := h.group left d _
  endContinuation _ hp := .of_nil hp (continuation_nil _ hp)
  stops := .stops
  cons d h := h.cons d
  append hnil h k := h.join k (hnil _) (· + ·)
  statement h k := h.join k (body_nil _) (· + ·)
  endBody hp := .of_nil hp (body_nil _ hp)
  leave r h := h.leave r

theorem isPrefix_ofShapes (lines rest : List Shape) :
    (ofShapes lines).depths <+: (ofShapes (lines ++ rest)).depths :=
  ((Stretch.Causal.compatible.holds ⟨lines, 0, false⟩).1 .document).isPrefix rest

/-- Lines are indented alike whatever lines follow. -/
theorem isPrefix_indents (u : Units) (codes rest : List (List Char)) :
    indents u codes <+: indents u (codes ++ rest) := by
  rw [indents, indents, List.map_append]
  exact (isPrefix_ofShapes _ _).map _

end Indentation
end MiniScriptLayout
