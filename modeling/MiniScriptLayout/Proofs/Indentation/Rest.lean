import MiniScriptLayout.Proofs.Indentation.Extension

/-!
Lines without code. A line without code is a complete statement, so it changes nothing where a
statement may begin: there it has no continuation units, and the lines behind it are indented as if
it was not there. Everywhere else it ends a continuation, and the line behind it has fewer
continuation units than without it.
-/

namespace MiniScriptLayout
namespace Indentation

def Shape.empty : Shape := {}

namespace Stretch

/-- The second stretch has one more line, and fewer units at its end than the first. -/
def Loses (s s' : Stretch) : Prop :=
  s.next.lines = [] ∧ s'.next.lines = [] ∧ ∃ ds b c c', c' < c ∧
    s.depths = ds ++ [⟨b, c⟩] ∧ s'.depths = ds ++ [⟨b, c⟩, ⟨b, c'⟩]

namespace Loses

variable {s s' t t' : Stretch} {g : Place → Stretch}

theorem congr (h : s.Loses s') (hd : t.depths = s.depths) (hd' : t'.depths = s'.depths)
    (hn : t.next = s.next) (hn' : t'.next = s'.next) : t.Loses t' := by
  unfold Loses at h ⊢
  rwa [hd, hd', hn, hn']

theorem behind (h : s.Loses s') (es : List Depth) : (s.behind es).Loses (s'.behind es) := by
  obtain ⟨hn, hn', ds, b, c, c', hlt, hs, hs'⟩ := h
  exact ⟨hn, hn', es ++ ds, b, c, c', hlt, by simp [Stretch.behind, hs],
    by simp [Stretch.behind, hs']⟩

theorem map (h : s.Loses s') {f : Depth → Depth} {i j : Nat}
    (hf : ∀ b c, f ⟨b, c⟩ = ⟨b + i, c + j⟩) : (s.map f).Loses (s'.map f) := by
  obtain ⟨hn, hn', ds, b, c, c', hlt, hs, hs'⟩ := h
  exact ⟨hn, hn', ds.map f, b + i, c + j, c' + j, Nat.add_lt_add_right hlt j,
    by simp [Stretch.map, hs, hf], by simp [Stretch.map, hs', hf]⟩

theorem append (h : s.Loses s') (hnil : ∀ q : Place, q.lines = [] → g q = .stop q) :
    (s.append (g s.next)).Loses (s'.append (g s'.next)) := by
  rw [hnil _ h.1, hnil _ h.2.1]
  exact h.congr (List.append_nil _) (List.append_nil _) rfl rfl

end Loses

/-- What a line without code does to a walk over continued lines that begins before it. -/
inductive Ends (s : Stretch) (t : List Shape → Stretch) : Prop
  | stops : s.Stops t → Ends s t
  /-- The walk ends behind the line, which has some units. -/
  | ends (ds : List Depth) (c : Nat) : 0 < c →
      (∀ rest, t (.empty :: rest) = ⟨ds ++ [⟨0, c⟩], 0, ⟨rest, 0, false⟩⟩) → Ends s t
  | loses : (t [.empty]).Loses (t [.empty, .empty]) → Ends s t

/-- What a line without code does to any other walk that begins before it. -/
inductive Rests (s : Stretch) (t : List Shape → Stretch) : Prop
  | stops : s.Stops t → Rests s t
  /-- The line has no units, and the walk goes on as if it was not there. -/
  | rests (d : Depth) : s.next.lines = [] → d.continuations = 0 →
      (∀ rest, ∃ r : Stretch, t rest = r.behind s.depths ∧
        t (.empty :: rest) = r.behind (s.depths ++ [d])) → Rests s t
  | loses : (t [.empty]).Loses (t [.empty, .empty]) → Rests s t

variable {s : Stretch} {t : List Shape → Stretch} {g : Place → Stretch}

theorem Ends.cons (h : s.Ends t) (d : Depth) : (s.cons d).Ends fun rest => (t rest).cons d := by
  cases h with
  | stops h => exact .stops (h.cons d)
  | ends ds c hc h =>
      refine .ends (d :: ds) c hc fun rest => ?_
      simp only [h rest]
      rfl
  | loses h => exact .loses (h.behind [d])

theorem Ends.continued (h : s.Ends t) (k : Nat) :
    (s.map (·.continued k)).Ends fun rest => (t rest).map (·.continued k) := by
  cases h with
  | stops h => exact .stops (h.map _)
  | ends ds c hc h =>
      refine .ends (ds.map (·.continued k)) (c + k) (by omega) fun rest => ?_
      simp only [h rest]
      simp [map, Depth.continued]
  | loses h => exact .loses (h.map (i := 0) (j := k) fun b c => rfl)

theorem Ends.resume (h : s.Stops t) (k : (g s.next).Ends fun rest => g (s.next.extend rest)) :
    (s.resume (g s.next)).Ends fun rest => (t rest).resume (g (t rest).next) := by
  cases k with
  | stops k => exact .stops (h.join k fun _ excess => excess)
  | ends ds c hc k =>
      refine .ends (s.depths ++ ds) c hc fun rest => ?_
      simp only [h _, k rest]
      simp [Stretch.resume]
  | loses k =>
      refine .loses ?_
      simp only [h _]
      exact (k.behind s.depths).congr rfl rfl rfl rfl

/-- A line without code ends a continuation, with at least one unit. -/
theorem continuation_empty {openers : Int} (ho : 0 ≤ openers) (p : Place) (rest : List Shape)
    (hp : p.lines = .empty :: rest) :
    continuation openers p = ⟨[⟨0, p.carried + 1 + p.operatorUnits⟩], 0, ⟨rest, 0, false⟩⟩ := by
  rw [continuation_cons openers hp]
  simpa [Shape.empty, Shape.isIncomplete] using ho

/-- A line that ends a group with two units leaves one for the line behind it. -/
theorem Ends.behindGroup_of_ends (left : Int) {ds : List Depth} {c : Nat} (hc : 1 < c)
    (h : ∀ rest, t (.empty :: rest) = ⟨ds ++ [⟨0, c⟩], 0, ⟨rest, 0, false⟩⟩) :
    (s.behindGroup left).Ends fun rest => (t rest).behindGroup left := by
  by_cases hleft : max left 0 ≤ 0
  · have hzero : max left 0 = 0 := by omega
    refine .ends ds c (by omega) fun rest => ?_
    simp [h rest, Stretch.behindGroup, hzero]
  · have hnil : continuation (max left 0) ⟨[], 0, false⟩ = .stop ⟨[], 0, false⟩ :=
      continuation_nil _ rfl
    have hnonneg : 0 ≤ max left 0 := by omega
    have hempty := continuation_empty hnonneg ⟨[.empty], 0, false⟩ [] rfl
    refine .loses ⟨?_, ?_, ds, 0, c, 1, hc, ?_, ?_⟩ <;>
      simp [h, Stretch.behindGroup, hleft, Stretch.resume, hnil, hempty, Stretch.stop,
        Place.operatorUnits]

theorem Ends.group (h : s.Ends t) (left : Int) (d : Depth) (k : Nat) : s.Stops t ∨
    (((s.cons d).map (·.continued (1 + k))).behindGroup left).Ends fun rest =>
      (((t rest).cons d).map (·.continued (1 + k))).behindGroup left := by
  cases h with
  | stops h => exact .inl h
  | ends ds c hc h =>
      have hunits : 1 < c + (1 + k) := by omega
      have hline : ∀ rest, ((t (.empty :: rest)).cons d).map (·.continued (1 + k)) =
          ⟨(d :: ds).map (·.continued (1 + k)) ++ [⟨0, c + (1 + k)⟩], 0, ⟨rest, 0, false⟩⟩ := by
        intro rest
        rw [h rest]
        simp [Stretch.cons, Stretch.map, Depth.continued]
      exact .inr (behindGroup_of_ends left hunits hline)
  | loses h =>
      have nested := (h.behind [d]).map (f := (·.continued (1 + k))) (i := 0) fun b c => rfl
      obtain ⟨hdepths, hnext⟩ := behindGroup_of_nil nested.1 left
      obtain ⟨hdepths', hnext'⟩ := behindGroup_of_nil nested.2.1 left
      exact .inr (.loses (nested.congr hdepths hdepths' hnext hnext'))

theorem Rests.cons (h : s.Rests t) (d : Depth) : (s.cons d).Rests fun rest => (t rest).cons d := by
  cases h with
  | stops h => exact .stops (h.cons d)
  | rests e hnext he h =>
      refine .rests e hnext he fun rest => ?_
      obtain ⟨r, hr, hr'⟩ := h rest
      exact ⟨r, by rw [hr]; rfl, by rw [hr']; rfl⟩
  | loses h => exact .loses (h.behind [d])

theorem Rests.append (hnil : ∀ q : Place, q.lines = [] → g q = .stop q) (h : s.Rests t)
    (k : (g s.next).Rests fun rest => g (s.next.extend rest)) :
    (s.append (g s.next)).Rests fun rest => (t rest).append (g (t rest).next) := by
  cases h with
  | stops h =>
      cases k with
      | stops k => exact .stops (h.join k (· + ·))
      | rests d hnext hd k =>
          refine .rests d hnext hd fun rest => ?_
          obtain ⟨r, hr, hr'⟩ := k rest
          refine ⟨⟨r.depths, s.excess + r.excess, r.next⟩, ?_, ?_⟩
          · simp only [h rest, hr]
            simp [Stretch.append, Stretch.behind]
          · simp only [h (.empty :: rest), hr']
            simp [Stretch.append, Stretch.behind]
      | loses k =>
          refine .loses ?_
          simp only [h _]
          exact (k.behind s.depths).congr rfl rfl rfl rfl
  | rests d hnext hd h =>
      rw [hnil _ hnext]
      refine .rests d hnext hd fun rest => ?_
      obtain ⟨r, hr, hr'⟩ := h rest
      refine ⟨r.append (g r.next), ?_, ?_⟩
      · simp [hr, Stretch.append, Stretch.behind, stop]
      · simp [hr', Stretch.append, Stretch.behind, stop]
  | loses h => exact .loses (h.append hnil)

theorem Rests.leave (r : Region) (h : s.Rests t) :
    s.Stops t ∨ (r.leave s).Rests fun rest => r.leave (t rest) := by
  cases h with
  | stops h => exact .inl h
  | rests d hnext hd h =>
      have henter : (r.enter d).continuations = 0 := by cases r <;> exact hd
      rw [r.leave_of_nil hnext]
      refine .inr (.rests (r.enter d) hnext henter fun rest => ?_)
      obtain ⟨x, hx, hx'⟩ := h rest
      refine ⟨r.leave x, ?_, ?_⟩
      · simp only [hx, r.leave_behind, map]
      · simp only [hx', r.leave_behind, map, List.map_append, List.map_singleton]
  | loses h =>
      have hloses : ((t [.empty]).map r.enter).Loses ((t [.empty, .empty]).map r.enter) := by
        cases r with
        | document => exact h.map (i := 0) (j := 0) fun b c => rfl
        | branch | block => exact h.map (i := 1) (j := 0) fun b c => rfl
      refine .inr (.loses ?_)
      rwa [r.leave_of_nil h.1, r.leave_of_nil h.2.1]

end Stretch

theorem ends_continuation_nil {openers : Int} (ho : 0 ≤ openers) {p : Place} (hp : p.lines = []) :
    (continuation openers p).Ends fun rest => continuation openers (p.extend rest) := by
  rw [continuation_nil openers hp]
  refine .ends [] (p.carried + 1 + p.operatorUnits) (by omega) fun rest => ?_
  exact Stretch.continuation_empty ho (p.extend (.empty :: rest)) rest
    (congrArg (· ++ .empty :: rest) hp)

theorem body_empty (region : Region) {p : Place} {rest : List Shape}
    (hp : p.lines = .empty :: rest) :
    body region p = (body region ⟨rest, 0, false⟩).cons ⟨0, p.carried + p.operatorUnits⟩ := by
  have hends : region.endsAt .empty = false := by cases region <;> rfl
  rw [body_cons region hp]
  simp only [hends]
  rfl

theorem rests_body_nil (region : Region) {p : Place} (hp : p.lines = []) :
    (body region p).Rests fun rest => body region (p.extend rest) := by
  obtain ⟨lines, carried, after⟩ := p
  obtain rfl : lines = [] := hp
  have hlines : ∀ rest, (Place.extend ⟨[], carried, after⟩ rest).lines = rest := fun rest => rfl
  have hnil : body region ⟨[], 0, false⟩ = .stop ⟨[], 0, false⟩ := body_nil region rfl
  have hempty : ∀ rest, body region ⟨.empty :: rest, 0, false⟩ =
      (body region ⟨rest, 0, false⟩).cons ⟨0, 0⟩ := fun rest => body_empty region rfl
  -- the units of the place go to the line without code, and the line behind it loses them
  by_cases hfree : carried = 0 ∧ after = false
  · obtain ⟨rfl, rfl⟩ := hfree
    rw [hnil]
    exact .rests ⟨0, 0⟩ rfl rfl fun rest => ⟨body region ⟨rest, 0, false⟩, rfl, hempty rest⟩
  · have hunits : 0 < carried + Place.operatorUnits ⟨[], carried, after⟩ := by
      cases after
      · have : carried ≠ 0 := by simpa using hfree
        exact Nat.add_pos_left (Nat.pos_of_ne_zero this) _
      · exact Nat.add_pos_right _ Nat.one_pos
    refine .loses ⟨?_, ?_, [], 0, _, 0, hunits, ?_, ?_⟩ <;>
      rw [body_empty region (hlines _)] <;> simp [hnil, hempty, Stretch.cons, Stretch.stop] <;> rfl

theorem Stretch.Ends.append {s : Stretch} {t : List Shape → Stretch} {region : Region}
    (h : s.Ends t) (k : (body region s.next).Rests fun rest => body region (s.next.extend rest)) :
    (s.append (body region s.next)).Rests fun rest =>
      (t rest).append (body region (t rest).next) := by
  have hnil := fun q => body_nil (p := q) region
  cases h with
  | stops h => exact .append hnil (.stops h) k
  | ends ds c hc h =>
      -- the body begins a statement behind the line that ended the continuation
      have hempty : body region ⟨[.empty], 0, false⟩ =
          (body region ⟨[], 0, false⟩).cons ⟨0, 0⟩ := body_empty region rfl
      refine .loses ⟨?_, ?_, ds, 0, c, 0, hc, ?_, ?_⟩ <;>
        simp [h, Stretch.append, hnil, hempty, Stretch.cons, Stretch.stop]
  | loses h => exact .loses (h.append hnil)

/-- What the steps of the walks keep. -/
theorem Stretch.Rests.compatible : Compatible Ends Rests where
  stopsContinuation := .stops
  consContinuation d h := h.cons d
  continued k h := h.continued k
  resume h k := .resume h k
  group left d k h := h.group left d k
  endContinuation ho hp := ends_continuation_nil ho hp
  stops := .stops
  cons d h := h.cons d
  append hnil h k := h.append hnil k
  statement h k := h.append k
  endBody hp := rests_body_nil _ hp
  leave r h := h.leave r

section Document

variable (lines : List Shape)

/-- The lines leave no statement open: a line without code has no continuation units behind them. -/
def AtRest : Prop :=
  (ofShapes (lines ++ [.empty])).depths.getLast?.map Depth.continuations = some 0

instance : Decidable (AtRest lines) :=
  inferInstanceAs (Decidable (_ = _))

theorem rests_ofShapes : (ofShapes lines).Rests fun rest => ofShapes (lines ++ rest) :=
  (Stretch.Rests.compatible.holds ⟨lines, 0, false⟩).1 .document

theorem not_stops_ofShapes : ¬ (ofShapes lines).Stops fun rest => ofShapes (lines ++ rest) :=
  fun h => next_ne_nil_of_stops .document ⟨lines, 0, false⟩ h (next_body_document _)

variable {lines}

theorem Stretch.Loses.not_atRest
    (h : (ofShapes (lines ++ [.empty])).Loses (ofShapes (lines ++ [.empty, .empty]))) :
    ¬ AtRest lines := by
  obtain ⟨-, -, ds, b, c, c', hlt, hs, -⟩ := h
  rw [AtRest, hs, List.getLast?_append]
  simp only [List.getLast?_singleton, Option.some_or, Option.map_some, Option.some.injEq]
  omega

/-- Where no statement is open, a line without code changes the depth of no other line. -/
theorem AtRest.exists_insert (h : AtRest lines) :
    ∃ d : Depth, ∀ rest, ∃ ds,
      (ofShapes (lines ++ rest)).depths = (ofShapes lines).depths ++ ds ∧
      (ofShapes (lines ++ .empty :: rest)).depths = (ofShapes lines).depths ++ d :: ds := by
  cases rests_ofShapes lines with
  | stops hstops => exact absurd hstops (not_stops_ofShapes lines)
  | rests d _ _ hrests =>
      refine ⟨d, fun rest => ?_⟩
      obtain ⟨r, hr, hr'⟩ := hrests rest
      refine ⟨r.depths, ?_, ?_⟩
      · rw [show ofShapes (lines ++ rest) = _ from hr]
        rfl
      · rw [show ofShapes (lines ++ .empty :: rest) = _ from hr']
        simp [Stretch.behind]
  | loses hloses => exact absurd h hloses.not_atRest

/-- A line without code that is not at rest takes units from a line behind it. -/
theorem loses_of_not_atRest (h : ¬ AtRest lines) :
    (ofShapes (lines ++ [.empty])).Loses (ofShapes (lines ++ [.empty, .empty])) := by
  cases rests_ofShapes lines with
  | stops hstops => exact absurd hstops (not_stops_ofShapes lines)
  | rests d _ hd hrests =>
      obtain ⟨r, hr, hr'⟩ := hrests []
      have hnil : r.depths = [] := by
        have hdepths := congrArg Stretch.depths hr
        rw [List.append_nil] at hdepths
        exact List.self_eq_append_right.1 hdepths
      refine absurd ?_ h
      rw [AtRest, show ofShapes (lines ++ [.empty]) = _ from hr']
      simp [Stretch.behind, hnil, hd]
  | loses hloses => exact hloses

end Document

end Indentation
end MiniScriptLayout
