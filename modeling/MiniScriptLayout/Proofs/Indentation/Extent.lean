import MiniScriptLayout.Proofs.Indentation.Walk

/-!
Every line gets one depth. Each walk gives depths to the lines between the place where it begins and
the place where it ends, and the walk over the whole text ends behind the last line.
-/

namespace MiniScriptLayout
namespace Indentation

/-- The stretch has a depth for each line between a place and the place where it ends. -/
def Stretch.Covers (s : Stretch) (p : Place) : Prop :=
  s.depths.length + s.next.lines.length = p.lines.length

namespace Stretch.Covers

variable {s t : Stretch} {p q : Place} {l : Shape} {ls : List Shape}

theorem stop (p : Place) : (Stretch.stop p).Covers p :=
  Nat.zero_add _

theorem cons (h : s.Covers q) (hp : p.lines = l :: q.lines) (d : Depth) : (s.cons d).Covers p := by
  simp only [Covers, Stretch.cons, hp, List.length_cons] at h ⊢
  omega

theorem map (h : s.Covers p) (f : Depth → Depth) : (s.map f).Covers p := by
  simpa [Covers, Stretch.map] using h

theorem append (h : s.Covers p) (k : t.Covers s.next) : (s.append t).Covers p := by
  simp only [Covers, Stretch.append, List.length_append] at h k ⊢
  omega

theorem resume (h : s.Covers p) (k : t.Covers s.next) : (s.resume t).Covers p :=
  h.append k

theorem close (h : s.Covers p) (hs : s.next.lines = l :: ls) : (s.close l ls).Covers p := by
  refine (h.map Depth.intoBlock).append ?_
  simp only [Covers, Stretch.map, hs, List.length_cons, List.length_nil]
  omega

/-- The walk ends before a shorter rest of the lines. -/
theorem length_le (h : s.Covers p) : s.next.lines.length ≤ p.lines.length := by
  unfold Covers at h
  omega

end Stretch.Covers

theorem covers_continuation (openers : Int) (p : Place) : (continuation openers p).Covers p := by
  induction hn : p.lines.length using Nat.strongRecOn generalizing openers p with
  | ind n ih =>
      cases hp : p.lines with
      | nil =>
          rw [continuation_nil openers hp]
          exact .stop p
      | cons l ls =>
          have hlt : ls.length < n := by
            rw [← hn, hp]
            exact Nat.lt_succ_self _
          have behind := fun openers => ih ls.length hlt openers ⟨ls, 0, l.endsWithOperation⟩ rfl
          rw [continuation_cons openers hp]
          dsimp only
          split
          · simp [Stretch.Covers, hp, Nat.add_comm]
          · split
            · have nested := ((behind l.balance.opened).cons hp ⟨0, p.carried⟩).map
                (·.continued (1 + p.operatorUnits))
              split
              · exact nested
              · exact nested.resume (ih _ (Nat.lt_of_le_of_lt (behind _).length_le hlt) _ _ rfl)
            · split
              · simp [Stretch.Covers, hp]
              · exact (behind _).cons hp _

theorem covers_branches {p : Place} (hbody : (body .branch p).Covers p)
    (ih : ∀ q : Place, q.lines.length < p.lines.length → (branches q).Covers q) :
    (branches p).Covers p := by
  cases hnext : (body .branch p).next.lines with
  | nil =>
      rw [branches_nil hnext]
      exact hbody.map _
  | cons l ls =>
      have closed := hbody.close hnext
      rw [branches_cons hnext]
      split
      · refine closed.append (ih _ ?_)
        have := hbody.length_le
        rw [hnext] at this
        exact this
      · exact closed

theorem covers_block {p : Place} (hbody : (body .block p).Covers p) : (block p).Covers p := by
  cases hnext : (body .block p).next.lines with
  | nil =>
      rw [block_nil hnext]
      exact hbody.map _
  | cons l ls =>
      rw [block_cons hnext]
      exact hbody.close hnext

/-- One step of the walk over a body, if the walks over shorter rests cover them. -/
theorem covers_body {region : Region} {p : Place}
    (ih : ∀ q : Place, q.lines.length < p.lines.length →
      (body region q).Covers q ∧ (branches q).Covers q ∧ (block q).Covers q) :
    (body region p).Covers p := by
  cases hp : p.lines with
  | nil =>
      rw [body_nil region hp]
      exact .stop p
  | cons l ls =>
      have hlt : ls.length < p.lines.length := by
        rw [hp]
        exact Nat.lt_succ_self _
      have behind := ih ⟨ls, 0, l.endsWithOperation⟩ hlt
      have goesOn : ∀ s : Stretch, s.Covers ⟨ls, 0, l.endsWithOperation⟩ →
          (body region s.next).Covers s.next :=
        fun s hs => (ih s.next (Nat.lt_of_le_of_lt hs.length_le hlt)).1
      rw [body_cons region hp]
      dsimp only
      split
      · exact .stop p
      · split
        · exact (behind.2.1.cons hp _).append (goesOn _ behind.2.1)
        · split
          · exact (behind.2.2.cons hp _).append (goesOn _ behind.2.2)
          · split
            · have inner := covers_continuation l.balance.opened ⟨ls, 0, l.endsWithOperation⟩
              exact ((inner.cons hp _).map _).append (goesOn _ inner)
            · exact behind.1.cons hp _

theorem covers_all (p : Place) :
    (∀ region, (body region p).Covers p) ∧ (branches p).Covers p ∧ (block p).Covers p := by
  -- bodies hold branches and blocks, which hold bodies of fewer or as many lines
  induction hn : p.lines.length using Nat.strongRecOn generalizing p with
  | ind n ih =>
      have shorter : ∀ q : Place, q.lines.length < p.lines.length → (∀ region,
          (body region q).Covers q) ∧ (branches q).Covers q ∧ (block q).Covers q :=
        fun q hq => ih _ (hn ▸ hq) q rfl
      have hbody : ∀ region, (body region p).Covers p := fun region =>
        covers_body fun q hq => ⟨(shorter q hq).1 region, (shorter q hq).2⟩
      exact ⟨hbody, covers_branches (hbody .branch) fun q hq => (shorter q hq).2.1,
        covers_block (hbody .block)⟩

/-- A body ends before a line that ends its region, or at the end of the text. -/
theorem endsAt_next_body (region : Region) (p : Place) :
    ∀ l ∈ (body region p).next.lines.head?, region.endsAt l = true := by
  induction hn : p.lines.length using Nat.strongRecOn generalizing p with
  | ind n ih =>
      cases hp : p.lines with
      | nil =>
          rw [body_nil region hp]
          simp [Stretch.stop, hp]
      | cons l ls =>
          have hlt : ls.length < n := by
            rw [← hn, hp]
            exact Nat.lt_succ_self _
          have goesOn : ∀ s : Stretch, s.Covers ⟨ls, 0, l.endsWithOperation⟩ →
              ∀ k ∈ (body region s.next).next.lines.head?, region.endsAt k = true :=
            fun s hs => ih _ (Nat.lt_of_le_of_lt hs.length_le hlt) s.next rfl
          have behind := covers_all ⟨ls, 0, l.endsWithOperation⟩
          rw [body_cons region hp]
          dsimp only
          split
          · rename_i hends
            simpa [Stretch.stop, hp] using hends
          · split
            · exact goesOn _ behind.2.1
            · split
              · exact goesOn _ behind.2.2
              · split
                · exact goesOn _ (covers_continuation _ _)
                · exact ih _ hlt _ rfl

/-- No line ends the body of the whole text. -/
theorem next_body_document (p : Place) : (body .document p).next.lines = [] := by
  cases h : (body .document p).next.lines with
  | nil => rfl
  | cons l ls => exact absurd (endsAt_next_body .document p l (by simp [h])) Bool.false_ne_true

theorem length_ofShapes (lines : List Shape) :
    (ofShapes lines).depths.length = lines.length := by
  have h := (covers_all ⟨lines, 0, false⟩).1 .document
  rw [Stretch.Covers, next_body_document] at h
  exact h

/-- The first line stands at the margin. -/
theorem head?_ofShapes (lines : List Shape) : ∀ d ∈ (ofShapes lines).depths.head?, d = ⟨0, 0⟩ := by
  intro d hd
  cases lines with
  | nil =>
      rw [ofShapes, body_nil .document rfl] at hd
      cases hd
  | cons l ls =>
      have hfirst : (ofShapes (l :: ls)).depths.head? = some ⟨0, 0⟩ := by
        rw [ofShapes, body_cons .document rfl]
        simp only [Region.endsAt, Bool.false_eq_true, if_false]
        split
        · rfl
        · split
          · rfl
          · split <;> rfl
      simpa [hfirst] using hd.symm

/-- The indentations that some lines of code get. -/
def indents (u : Units) (codes : List (List Char)) : List (List Char) :=
  (ofShapes (codes.map .ofCode)).depths.map (·.render u)

theorem length_indents (u : Units) (codes : List (List Char)) :
    (indents u codes).length = codes.length := by
  simp [indents, length_ofShapes]

/-- Units that are not empty can be counted. -/
theorem flatten_replicate_injective {unit : List Char} (h : unit ≠ []) :
    Function.Injective fun n => (List.replicate n unit).flatten := by
  intro n m heq
  have hlength := congrArg List.length heq
  simp only [List.length_flatten, List.map_replicate, List.sum_replicate_nat] at hlength
  exact Nat.eq_of_mul_eq_mul_right (List.length_pos_iff.2 h) hlength

end Indentation
end MiniScriptLayout
