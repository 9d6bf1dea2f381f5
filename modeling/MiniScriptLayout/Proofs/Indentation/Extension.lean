import MiniScriptLayout.Proofs.Indentation.Extent

/-!
Walks over a text that goes on. A walk over some lines is compared with the walks over these lines
and others behind them. What holds of such walks whenever it is kept by each step holds of all of
them.
-/

namespace MiniScriptLayout
namespace Indentation

/-- The place with more lines at the end of the text. -/
def Place.extend (p : Place) (rest : List Shape) : Place :=
  { p with lines := p.lines ++ rest }

theorem Place.lines_extend {p : Place} {l : Shape} {ls : List Shape} (hp : p.lines = l :: ls)
    (rest : List Shape) : (p.extend rest).lines = l :: (ls ++ rest) :=
  congrArg (· ++ rest) hp

namespace Stretch

/-- A stretch that may be joined with any count of closing brackets. -/
def join (excess : Nat → Nat → Nat) (s t : Stretch) : Stretch :=
  ⟨s.depths ++ t.depths, excess s.excess t.excess, t.next⟩

variable {s : Stretch} {t : List Shape → Stretch} {g : Place → Stretch}

/-- The stretch ends where it does whatever lines follow. -/
def Stops (s : Stretch) (t : List Shape → Stretch) : Prop :=
  ∀ rest, t rest = ⟨s.depths, s.excess, s.next.extend rest⟩

theorem Stops.cons (h : s.Stops t) (d : Depth) : (s.cons d).Stops fun rest => (t rest).cons d := by
  intro rest
  simp only [h rest]
  rfl

theorem Stops.map (h : s.Stops t) (f : Depth → Depth) :
    (s.map f).Stops fun rest => (t rest).map f := by
  intro rest
  simp only [h rest]
  rfl

theorem Stops.join (h : s.Stops t) (k : (g s.next).Stops fun rest => g (s.next.extend rest))
    (excess : Nat → Nat → Nat) :
    (s.join excess (g s.next)).Stops fun rest => (t rest).join excess (g (t rest).next) := by
  intro rest
  simp only [h rest, k rest]
  rfl

theorem Stops.lines {l : Shape} {ls : List Shape} (h : s.Stops t) (hs : s.next.lines = l :: ls)
    (rest : List Shape) : (t rest).next.lines = l :: (ls ++ rest) := by
  rw [h rest]
  exact Place.lines_extend hs rest

theorem Stops.close (h : s.Stops t) (l : Shape) (ls : List Shape) :
    (s.close l ls).Stops fun rest => (t rest).close l (ls ++ rest) := by
  intro rest
  simp only [h rest]
  rfl

/-- What follows a group of brackets in a line that leaves `left` brackets open before it. -/
def behindGroup (left : Int) (s : Stretch) : Stretch :=
  let still := max left 0 - s.excess
  if still ≤ 0 then ⟨s.depths, (-still).toNat, s.next⟩ else s.resume (continuation still s.next)

/-- At the end of the text nothing follows a group. -/
theorem behindGroup_of_nil (h : s.next.lines = []) (left : Int) :
    (s.behindGroup left).depths = s.depths ∧ (s.behindGroup left).next = s.next := by
  unfold behindGroup
  dsimp only
  split
  · exact ⟨rfl, rfl⟩
  · rw [continuation_nil _ h]
    exact ⟨List.append_nil _, rfl⟩

end Stretch

theorem Region.leave_of_nil (r : Region) {s : Stretch} (h : s.next.lines = []) :
    r.leave s = s.map r.enter := by
  cases r <;> simp [leave, h, enter, Stretch.map]

theorem branches_of_nil {p : Place} (hp : p.lines = []) : branches p = .stop p := by
  rw [branches_eq_leave, body_nil .branch hp, Region.leave_of_nil _ hp]
  rfl

/-- A body that ends where it does whatever lines follow ends before one of its lines. -/
theorem next_ne_nil_of_stops (region : Region) (p : Place)
    (h : (body region p).Stops fun rest => body region (p.extend rest)) :
    (body region p).next.lines ≠ [] := by
  intro hnil
  -- a line that ends no region would end this one
  have hnext : (body region (p.extend [{}])).next.lines = [{}] :=
    (congrArg (·.next.lines) (h [{}])).trans (congrArg (· ++ [({} : Shape)]) hnil)
  have hends := endsAt_next_body region (p.extend [{}]) {} (by simp [hnext])
  cases region <;> cases hends

/-- Relations between a walk and the walks over more lines that the steps of the walks keep: `C` for
walks over continued lines, and `W` for all others. -/
structure Compatible (C W : Stretch → (List Shape → Stretch) → Prop) : Prop where
  stopsContinuation {s : Stretch} {t : List Shape → Stretch} : s.Stops t → C s t
  consContinuation {s : Stretch} {t : List Shape → Stretch} (d : Depth) :
    C s t → C (s.cons d) fun rest => (t rest).cons d
  continued {s : Stretch} {t : List Shape → Stretch} (k : Nat) :
    C s t → C (s.map (·.continued k)) fun rest => (t rest).map (·.continued k)
  resume {s : Stretch} {t : List Shape → Stretch} {openers : Int} : s.Stops t →
    (C (continuation openers s.next) fun rest => continuation openers (s.next.extend rest)) →
    C (s.resume (continuation openers s.next)) fun rest =>
      (t rest).resume (continuation openers (t rest).next)
  group {s : Stretch} {t : List Shape → Stretch} (left : Int) (d : Depth) (k : Nat) :
    C s t → s.Stops t ∨
      C (((s.cons d).map (·.continued (1 + k))).behindGroup left) fun rest =>
        (((t rest).cons d).map (·.continued (1 + k))).behindGroup left
  endContinuation {openers : Int} {p : Place} : 0 ≤ openers → p.lines = [] →
    C (continuation openers p) fun rest => continuation openers (p.extend rest)
  stops {s : Stretch} {t : List Shape → Stretch} : s.Stops t → W s t
  cons {s : Stretch} {t : List Shape → Stretch} (d : Depth) :
    W s t → W (s.cons d) fun rest => (t rest).cons d
  append {s : Stretch} {t : List Shape → Stretch} {g : Place → Stretch} :
    (∀ q : Place, q.lines = [] → g q = .stop q) → W s t →
    (W (g s.next) fun rest => g (s.next.extend rest)) →
    W (s.append (g s.next)) fun rest => (t rest).append (g (t rest).next)
  statement {s : Stretch} {t : List Shape → Stretch} {region : Region} : C s t →
    (W (body region s.next) fun rest => body region (s.next.extend rest)) →
    W (s.append (body region s.next)) fun rest => (t rest).append (body region (t rest).next)
  endBody {region : Region} {p : Place} : p.lines = [] →
    W (body region p) fun rest => body region (p.extend rest)
  leave {s : Stretch} {t : List Shape → Stretch} (r : Region) :
    W s t → s.Stops t ∨ W (r.leave s) fun rest => r.leave (t rest)

namespace Compatible

variable {C W : Stretch → (List Shape → Stretch) → Prop} (h : Compatible C W)
include h

theorem holds_group {s : Stretch} {t : List Shape → Stretch} (hs : C s t)
    (ih : ∀ still, 0 ≤ still → C (continuation still s.next) fun rest =>
      continuation still (s.next.extend rest)) (left : Int) (d : Depth) (k : Nat) :
    C (((s.cons d).map (·.continued (1 + k))).behindGroup left) fun rest =>
      (((t rest).cons d).map (·.continued (1 + k))).behindGroup left := by
  rcases h.group left d k hs with hstops | hgroup
  · have nested := (hstops.cons d).map (·.continued (1 + k))
    have resumed := fun still hstill => h.resume nested (ih still hstill)
    simp only [Stretch.behindGroup, nested _] at resumed ⊢
    split
    · exact h.stopsContinuation fun rest => rfl
    · exact resumed _ (by omega)
  · exact hgroup

theorem holds_continuation {openers : Int} (ho : 0 ≤ openers) (p : Place) :
    C (continuation openers p) fun rest => continuation openers (p.extend rest) := by
  induction hn : p.lines.length using Nat.strongRecOn generalizing openers p with
  | ind n ih =>
      cases hp : p.lines with
      | nil => exact h.endContinuation ho hp
      | cons l ls =>
          have hlt : ls.length < n := by
            rw [← hn, hp]
            exact Nat.lt_succ_self _
          have goesOn : ∀ openers, 0 ≤ openers → ∀ q : Place, q.lines.length ≤ ls.length →
              C (continuation openers q) fun rest => continuation openers (q.extend rest) :=
            fun openers ho q hq => ih _ (Nat.lt_of_le_of_lt hq hlt) ho q rfl
          have behind := fun openers ho =>
            goesOn openers ho ⟨ls, 0, l.endsWithOperation⟩ (Nat.le_refl _)
          rw [continuation_cons openers hp]
          simp only [continuation_cons openers (Place.lines_extend hp _)]
          by_cases hcomplete : (!l.isIncomplete) = true
          · simp only [if_pos hcomplete]
            exact h.stopsContinuation fun rest => rfl
          · by_cases hopened : 0 < l.balance.opened
            · simp only [if_neg hcomplete, if_pos hopened]
              have covers := covers_continuation l.balance.opened ⟨ls, 0, l.endsWithOperation⟩
              exact h.holds_group (behind _ (by omega))
                (fun still hstill => goesOn still hstill _ covers.length_le) _ _ _
            · by_cases hleft : openers - l.balance.closed ≤ 0
              · simp only [if_neg hcomplete, if_neg hopened, if_pos hleft]
                exact h.stopsContinuation fun rest => rfl
              · simp only [if_neg hcomplete, if_neg hopened, if_neg hleft]
                exact h.consContinuation _ (behind _ (by omega))

theorem holds_leave {region : Region} {p : Place}
    (hbody : W (body region p) fun rest => body region (p.extend rest))
    (ih : ∀ q : Place, q.lines.length < p.lines.length →
      W (branches q) fun rest => branches (q.extend rest)) :
    W (region.leave (body region p)) fun rest => region.leave (body region (p.extend rest)) := by
  rcases h.leave region hbody with hstops | hleft
  · obtain ⟨l, ls, hnext⟩ := List.exists_cons_of_ne_nil (next_ne_nil_of_stops region p hstops)
    have closed := hstops.close l ls
    cases region with
    | document => exact h.stops hstops
    | branch =>
        simp only [Region.leave, hnext, hstops.lines hnext]
        by_cases helse : l.startsElse = true
        · simp only [if_pos helse]
          have hlt : ls.length < p.lines.length := by
            have := ((covers_all p).1 .branch).length_le
            rw [hnext] at this
            exact this
          exact h.append (fun q => branches_of_nil) (h.stops closed)
            (ih ⟨ls, 0, l.endsWithOperation⟩ hlt)
        · simp only [if_neg helse]
          exact h.stops closed
    | block =>
        simp only [Region.leave, hnext, hstops.lines hnext]
        exact h.stops closed
  · exact hleft

theorem holds_body {region : Region} {p : Place}
    (ih : ∀ q : Place, q.lines.length < p.lines.length →
      (W (body region q) fun rest => body region (q.extend rest)) ∧
        (W (branches q) fun rest => branches (q.extend rest)) ∧
        W (block q) fun rest => block (q.extend rest)) :
    W (body region p) fun rest => body region (p.extend rest) := by
  cases hp : p.lines with
  | nil => exact h.endBody hp
  | cons l ls =>
      have hlt : ls.length < p.lines.length := by
        rw [hp]
        exact Nat.lt_succ_self _
      have behind := ih ⟨ls, 0, l.endsWithOperation⟩ hlt
      have covers := covers_all ⟨ls, 0, l.endsWithOperation⟩
      have goesOn : ∀ q : Place, q.lines.length ≤ ls.length →
          W (body region q) fun rest => body region (q.extend rest) :=
        fun q hq => (ih q (Nat.lt_of_le_of_lt hq hlt)).1
      have hnil := fun q => body_nil (p := q) region
      rw [body_cons region hp]
      simp only [body_cons region (Place.lines_extend hp _)]
      by_cases hends : region.endsAt l = true
      · simp only [if_pos hends]
        exact h.stops fun rest => rfl
      · by_cases hbranch : l.opensBranch = true
        · simp only [if_neg hends, if_pos hbranch]
          exact h.append hnil (h.cons _ behind.2.1) (goesOn _ covers.2.1.length_le)
        · by_cases hblock : l.opensBlock = true
          · simp only [if_neg hends, if_neg hbranch, if_pos hblock]
            exact h.append hnil (h.cons _ behind.2.2) (goesOn _ covers.2.2.length_le)
          · by_cases hopen : l.endsOpen = true
            · simp only [if_neg hends, if_neg hbranch, if_neg hblock, if_pos hopen]
              have hopened : (0 : Int) ≤ l.balance.opened := by omega
              have inner := h.holds_continuation hopened ⟨ls, 0, l.endsWithOperation⟩
              exact h.statement (h.continued _ (h.consContinuation _ inner))
                (goesOn _ (covers_continuation _ _).length_le)
            · simp only [if_neg hends, if_neg hbranch, if_neg hblock, if_neg hopen]
              exact h.cons _ behind.1

theorem holds (p : Place) :
    (∀ region, W (body region p) fun rest => body region (p.extend rest)) ∧
      (W (branches p) fun rest => branches (p.extend rest)) ∧
      W (block p) fun rest => block (p.extend rest) := by
  -- a body holds shorter blocks, and what it leaves to its region has shorter branches behind it
  induction hn : p.lines.length using Nat.strongRecOn generalizing p with
  | ind n ih =>
      have shorter := fun (q : Place) (hq : q.lines.length < p.lines.length) =>
        ih _ (hn ▸ hq) q rfl
      have hbody : ∀ region, W (body region p) fun rest => body region (p.extend rest) :=
        fun region => h.holds_body fun q hq => ⟨(shorter q hq).1 region, (shorter q hq).2⟩
      have hleave := fun region => h.holds_leave (hbody region) fun q hq => (shorter q hq).2.1
      simp only [branches_eq_leave, block_eq_leave]
      exact ⟨hbody, hleave .branch, hleave .block⟩

end Compatible

end Indentation
end MiniScriptLayout
