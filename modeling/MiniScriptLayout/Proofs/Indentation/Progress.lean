import MiniScriptLayout.Proofs.Indentation.Extent

/-!
The walks return. They are taken here by the indices of lines, with brackets counted in integers and
bodies that end at any words, and are cut off where they call each other too deep. Each one ends by
itself: with `n` lines ahead no more than `3 * n + 3` calls are open at once. It gets past the line
it is called at, stays within the lines, and reports no negative number of closing brackets. The
walks of the layout are these.
-/

namespace MiniScriptLayout
namespace Indentation

open Lexical (Balance Keyword startsWithWord)

/-- The walks, with what they are told. -/
inductive Walk where
  /-- The lines that continue a statement which left `openers` brackets open. -/
  | continuation (openers : Int)
  /-- One statement of a body, with its continuation or its block. -/
  | statement
  /-- The statements up to a line that starts with one of the words. -/
  | body (breakers : List (List Char))
  | branches
  | block
  deriving DecidableEq, Repr

/-- The line before which a walk ends, and the closing brackets that it reports. -/
structure Arrival where
  index : Nat
  excess : Int
  deriving DecidableEq, Repr

/-- A walk from one line on, by the indices of lines. There is no arrival if more than `calls` walks
would be open at once; nothing else keeps a walk from going on forever. -/
def walk? (codes : List (List Char)) (calls : Nat) (walk : Walk) (i : Nat) : Option Arrival :=
  match calls, walk with
  | 0, _ => none
  | calls + 1, .continuation openers =>
    match codes[i]? with
    | none => some ⟨i, 0⟩
    | some code =>
      let balance := Balance.ofCode code
      let left := openers - balance.closed
      if !Lexical.isIncomplete code then some ⟨i + 1, max (-left) 0⟩
      else if 0 < balance.opened then do
        let inner ← walk? codes calls (.continuation balance.opened) (i + 1)
        let still := max left 0 - inner.excess
        if still ≤ 0 then some ⟨inner.index, -still⟩
        else walk? codes calls (.continuation still) inner.index
      else if left ≤ 0 then some ⟨i, -left⟩
      else walk? codes calls (.continuation left) (i + 1)
  | calls + 1, .statement =>
    match codes[i]? with
    | none => some ⟨i, 0⟩
    | some code =>
      if Keyword.ifWord.starts code && Keyword.thenWord.ends code then
        walk? codes calls .branches (i + 1)
      else if Keyword.whileWord.starts code || Keyword.forWord.starts code ||
          Lexical.holdsFunction code then
        walk? codes calls .block (i + 1)
      else if Lexical.endsOpen code then
        walk? codes calls (.continuation (Balance.ofCode code).opened) (i + 1)
      else some ⟨i + 1, 0⟩
  | calls + 1, .body breakers =>
    match codes[i]? with
    | none => some ⟨i, 0⟩
    | some code =>
      if breakers.any (startsWithWord · code) then some ⟨i, 0⟩
      else do
        let first ← walk? codes calls .statement i
        let rest ← walk? codes calls (.body breakers) first.index
        some ⟨rest.index, first.excess + rest.excess⟩
  | calls + 1, .branches => do
    let body ← walk? codes calls (.body [Keyword.elseWord.spelling, Keyword.endWord.spelling]) i
    match codes[body.index]? with
    | none => some body
    | some closing =>
      if Keyword.elseWord.starts closing then do
        let rest ← walk? codes calls .branches (body.index + 1)
        some ⟨rest.index, body.excess + rest.excess⟩
      else some ⟨body.index + 1, body.excess⟩
  | calls + 1, .block => do
    let body ← walk? codes calls (.body [Keyword.endWord.spelling]) i
    some ⟨min (body.index + 1) codes.length, body.excess⟩

/-- How many walks are open at once, at most, in a walk with so many lines ahead. -/
def Walk.depth (lines : Nat) : Walk → Nat
  | continuation _ => lines + 1
  | statement => 3 * lines + 1
  | body _ => 3 * lines + 2
  | branches | block => 3 * lines + 3

theorem Walk.depth_le (walk : Walk) (lines : Nat) :
    0 < walk.depth lines ∧ walk.depth lines ≤ 3 * lines + 3 := by
  cases walk <;> simp only [depth] <;> omega

variable {codes : List (List Char)} {code : List Char} {i : Nat} {p : Place} {walk : Walk}

variable (codes walk i) in
/-- The walk from line `i` on ends by itself, in the same way however many calls are left. -/
def Arrives (arrival : Arrival) : Prop :=
  ∀ calls, walk.depth (codes.length - i) ≤ calls → walk? codes calls walk i = some arrival

theorem arrives_iff {arrival : Arrival} : Arrives codes i walk arrival ↔
    ∀ calls, walk.depth (codes.length - i) ≤ calls + 1 →
      walk? codes (calls + 1) walk i = some arrival := by
  constructor
  · exact fun h calls hcalls => h _ hcalls
  · rintro h (_ | calls) hcalls
    · exact absurd (walk.depth_le _).1 (Nat.not_lt.2 hcalls)
    · exact h calls hcalls

theorem Arrives.of_le {arrival : Arrival} (h : Arrives codes i walk arrival) {calls : Nat}
    (hcalls : 3 * (codes.length - i) + 3 ≤ calls) : walk? codes calls walk i = some arrival :=
  h calls (Nat.le_trans (walk.depth_le _).2 hcalls)

theorem drop_of_getElem? (h : codes[i]? = some code) :
    i < codes.length ∧ codes.drop i = code :: codes.drop (i + 1) := by
  obtain ⟨hi, rfl⟩ := List.getElem?_eq_some_iff.1 h
  exact ⟨hi, List.drop_eq_getElem_cons hi⟩

section Lines

variable (hp : p.lines = (codes.drop i).map Shape.ofCode)

include hp

theorem lines_eq_nil (hcode : codes[i]? = none) : p.lines = [] := by
  rw [hp, List.drop_of_length_le (List.getElem?_eq_none_iff.1 hcode), List.map_nil]

theorem lines_eq_cons (hcode : codes[i]? = some code) :
    p.lines = .ofCode code :: (codes.drop (i + 1)).map Shape.ofCode := by
  rw [hp, (drop_of_getElem? hcode).2, List.map_cons]

end Lines

variable (codes i) in
/-- The walk from line `i` on ends where the stretch ends and reports its closing brackets. -/
def Follows (walk : Walk) (s : Stretch) : Prop :=
  ∃ r, i ≤ r ∧ r ≤ codes.length ∧ s.next.lines = (codes.drop r).map Shape.ofCode ∧
    Arrives codes i walk ⟨r, s.excess⟩

theorem follows_stop (hi : i ≤ codes.length) (hp : p.lines = (codes.drop i).map Shape.ofCode)
    (h : Arrives codes i walk ⟨i, 0⟩) : Follows codes i walk (.stop p) :=
  ⟨i, Nat.le_refl i, hi, hp, h⟩

theorem follows_continuation (openers : Int) (hi : i ≤ codes.length)
    (hp : p.lines = (codes.drop i).map Shape.ofCode) :
    Follows codes i (.continuation openers) (continuation openers p) := by
  induction hn : codes.length - i using Nat.strongRecOn generalizing openers i p with
  | ind n ih =>
      cases hcode : codes[i]? with
      | none =>
          rw [continuation_nil openers (lines_eq_nil hp hcode)]
          exact follows_stop hi hp (arrives_iff.2 fun calls _ => by simp only [walk?, hcode])
      | some code =>
          have hlt := (drop_of_getElem? hcode).1
          have hincomplete : (Shape.ofCode code).isIncomplete = Lexical.isIncomplete code := rfl
          have hbalance : (Shape.ofCode code).balance = Balance.ofCode code := rfl
          -- walks from a later line follow by induction
          have later : ∀ {j : Nat} {q : Place} (openers : Int), i < j → j ≤ codes.length →
              q.lines = (codes.drop j).map Shape.ofCode →
                Follows codes j (.continuation openers) (continuation openers q) :=
            fun openers hij hj hq => ih _ (by omega) openers hj hq rfl
          rw [continuation_cons openers (lines_eq_cons hp hcode), Follows]
          simp only [arrives_iff, walk?, hcode, hincomplete, hbalance, Walk.depth]
          split
          · refine ⟨i + 1, Nat.le_succ i, hlt, rfl, fun calls _ => ?_⟩
            simp only [Option.some.injEq, Arrival.mk.injEq, true_and]
            omega
          · split
            · obtain ⟨j, hij, hj, hnext, hinner⟩ :=
                later (Balance.ofCode code).opened (Nat.lt_add_one i) hlt
                  (q := ⟨_, 0, (Shape.ofCode code).endsWithOperation⟩) rfl
              have hinner : ∀ calls, codes.length - i + 1 ≤ calls + 1 → _ :=
                fun calls hcalls => hinner calls (show _ + 1 ≤ _ by omega)
              split
              · refine ⟨j, by omega, hj, hnext, fun calls hcalls => ?_⟩
                simp only [hinner calls hcalls, Option.bind_eq_bind, Option.bind_some]
                rw [if_pos (by omega), Option.some.injEq, Arrival.mk.injEq]
                omega
              · obtain ⟨r, hjr, hr, hend, hrest⟩ := later _ (Nat.lt_of_succ_le hij) hj hnext
                refine ⟨r, by omega, hr, hend, fun calls hcalls => ?_⟩
                simp only [hinner calls hcalls, Option.bind_eq_bind, Option.bind_some]
                rw [if_neg (by omega)]
                exact hrest calls (show _ + 1 ≤ _ by omega)
            · split
              · refine ⟨i, Nat.le_refl i, hi, ?_, fun calls _ => ?_⟩
                · rw [(drop_of_getElem? hcode).2, List.map_cons]
                · simp only [Option.some.injEq, Arrival.mk.injEq, true_and]
                  omega
              · obtain ⟨r, hir, hr, hend, hrest⟩ := later _ (Nat.lt_add_one i) hlt
                  (q := ⟨_, 0, (Shape.ofCode code).endsWithOperation⟩) rfl
                exact ⟨r, by omega, hr, hend, fun calls hcalls =>
                  hrest calls (show _ + 1 ≤ _ by omega)⟩

/-- One statement of a body, from its first line on. -/
def statement (p : Place) (l : Shape) (ls : List Shape) : Stretch :=
  let behind : Place := ⟨ls, 0, l.endsWithOperation⟩
  if l.opensBranch then (branches behind).cons ⟨0, p.carried⟩
  else if l.opensBlock then (block behind).cons ⟨0, p.carried⟩
  else if l.endsOpen then
    ((continuation l.balance.opened behind).cons ⟨0, p.carried⟩).map (·.continued p.operatorUnits)
  else ⟨[⟨0, p.carried + p.operatorUnits⟩], 0, behind⟩

theorem body_eq_statement (region : Region) {l : Shape} {ls : List Shape} (hp : p.lines = l :: ls)
    (hends : region.endsAt l = false) :
    body region p = (statement p l ls).append (body region (statement p l ls).next) := by
  rw [body_cons region hp, statement]
  simp only [hends, Bool.false_eq_true, if_false]
  split
  · rfl
  · split
    · rfl
    · split
      · rfl
      · simp [Stretch.cons, Stretch.append]

/-- The words that end a body of the region. -/
def Region.breakers : Region → List (List Char)
  | document => []
  | branch => [Keyword.elseWord.spelling, Keyword.endWord.spelling]
  | block => [Keyword.endWord.spelling]

theorem endsAt_ofCode (region : Region) (code : List Char) :
    region.endsAt (.ofCode code) = region.breakers.any (startsWithWord · code) := by
  cases region <;>
    simp [Region.endsAt, Region.breakers, Shape.ofCode, Keyword.starts]

/-- A statement ends behind its first line. -/
theorem follows_statement (hcode : codes[i]? = some code)
    (ih : ∀ q : Place, q.lines = (codes.drop (i + 1)).map Shape.ofCode →
      Follows codes (i + 1) .branches (branches q) ∧ Follows codes (i + 1) .block (block q)) :
    ∃ r, i < r ∧ r ≤ codes.length ∧
      (statement p (.ofCode code) ((codes.drop (i + 1)).map Shape.ofCode)).next.lines =
        (codes.drop r).map Shape.ofCode ∧
      Arrives codes i .statement
        ⟨r, (statement p (.ofCode code) ((codes.drop (i + 1)).map Shape.ofCode)).excess⟩ := by
  have hlt := (drop_of_getElem? hcode).1
  let behind : Place :=
    ⟨(codes.drop (i + 1)).map Shape.ofCode, 0, (Shape.ofCode code).endsWithOperation⟩
  have hbehind := ih behind rfl
  have hbranch : (Shape.ofCode code).opensBranch =
    (Keyword.ifWord.starts code && Keyword.thenWord.ends code) := rfl
  have hblock : (Shape.ofCode code).opensBlock = (Keyword.whileWord.starts code ||
    Keyword.forWord.starts code || Lexical.holdsFunction code) := rfl
  have hopen : (Shape.ofCode code).endsOpen = Lexical.endsOpen code := rfl
  have hcalled : ∀ {walk : Walk} {s : Stretch}, Follows codes (i + 1) walk s →
      ∃ r, i < r ∧ r ≤ codes.length ∧ s.next.lines = (codes.drop r).map Shape.ofCode ∧
        ∀ calls, Walk.statement.depth (codes.length - i) ≤ calls + 1 →
          walk? codes calls walk (i + 1) = some ⟨r, s.excess⟩ := by
    rintro walk s ⟨r, hir, hr, hnext, hwalk⟩
    refine ⟨r, hir, hr, hnext, fun calls hcalls => hwalk.of_le ?_⟩
    simp only [Walk.depth] at hcalls
    omega
  simp only [arrives_iff, walk?, hcode, statement, hbranch, hblock, hopen]
  split
  · exact hcalled hbehind.1
  · split
    · exact hcalled hbehind.2
    · split
      · exact hcalled (follows_continuation _ hlt rfl)
      · exact ⟨i + 1, Nat.le_refl _, hlt, rfl, fun _ _ => rfl⟩

/-- Where the walk over a body goes on behind a statement. -/
theorem arrives_body_of_statement {breakers : List (List Char)} {first rest : Arrival}
    (hcode : codes[i]? = some code) (hends : breakers.any (startsWithWord · code) = false)
    (hindex : i < first.index)
    (hfirst : Arrives codes i .statement first)
    (hrest : Arrives codes first.index (.body breakers) rest) :
    Arrives codes i (.body breakers) ⟨rest.index, first.excess + rest.excess⟩ := by
  have hlt := (drop_of_getElem? hcode).1
  refine arrives_iff.2 fun calls hcalls => ?_
  simp only [Walk.depth] at hcalls
  simp only [walk?, hcode, hends, Bool.false_eq_true, if_false, Option.bind_eq_bind,
    hfirst calls (show _ + 1 ≤ _ by omega), hrest calls (show _ + 2 ≤ _ by omega),
    Option.bind_some]

theorem arrives_body_of_ends {breakers : List (List Char)}
    (h : ∀ code ∈ codes[i]?, breakers.any (startsWithWord · code) = true) :
    Arrives codes i (.body breakers) ⟨i, 0⟩ := by
  refine arrives_iff.2 fun calls _ => ?_
  cases hcode : codes[i]? with
  | none => simp only [walk?, hcode]
  | some code => simp only [walk?, hcode, h code hcode, if_true]

theorem follows_branches (hbody : Follows codes i (.body Region.branch.breakers) (body .branch p))
    (ih : ∀ {j : Nat} {q : Place}, i < j → j ≤ codes.length →
      q.lines = (codes.drop j).map Shape.ofCode → Follows codes j .branches (branches q)) :
    Follows codes i .branches (branches p) := by
  obtain ⟨r, hir, hr, hnext, hwalk⟩ := hbody
  have hwalk : ∀ calls, 3 * (codes.length - i) + 3 ≤ calls + 1 →
      walk? codes calls (.body [Keyword.elseWord.spelling, Keyword.endWord.spelling]) i = _ :=
    fun calls hcalls => hwalk calls (Nat.le_of_succ_le_succ hcalls)
  cases hcode : codes[r]? with
  | none =>
      rw [branches_nil (lines_eq_nil hnext hcode)]
      refine ⟨r, hir, hr, hnext, arrives_iff.2 fun calls hcalls => ?_⟩
      simp only [walk?, hwalk calls hcalls, Option.bind_eq_bind, Option.bind_some, hcode]
      rfl
  | some closing =>
      have hlt := (drop_of_getElem? hcode).1
      have helse : (Shape.ofCode closing).startsElse = Keyword.elseWord.starts closing := rfl
      rw [branches_cons (lines_eq_cons hnext hcode)]
      simp only [helse]
      split
      · rename_i hstarts
        obtain ⟨s, hrs, hs, hend, hrest⟩ := ih (Nat.lt_succ_of_le hir) hlt
          (q := ⟨_, 0, (Shape.ofCode closing).endsWithOperation⟩) rfl
        refine ⟨s, by omega, hs, hend, arrives_iff.2 fun calls hcalls => ?_⟩
        simp only [walk?, hwalk calls hcalls, Option.bind_eq_bind, Option.bind_some, hcode,
          hstarts, if_true]
        simp only [Walk.depth] at hcalls
        rw [hrest.of_le (by omega)]
        simp [Stretch.append, Stretch.close, Stretch.map]
      · rename_i hstarts
        refine ⟨r + 1, by omega, hlt, rfl, arrives_iff.2 fun calls hcalls => ?_⟩
        simp only [walk?, hwalk calls hcalls, Option.bind_eq_bind, Option.bind_some, hcode,
          hstarts]
        rfl

theorem follows_block (hbody : Follows codes i (.body Region.block.breakers) (body .block p)) :
    Follows codes i .block (block p) := by
  obtain ⟨r, hir, hr, hnext, hwalk⟩ := hbody
  have hblock : Arrives codes i .block ⟨min (r + 1) codes.length, (body .block p).excess⟩ := by
    refine arrives_iff.2 fun calls hcalls => ?_
    have hbody := hwalk calls (Nat.le_of_succ_le_succ hcalls)
    rw [Region.breakers] at hbody
    simp only [walk?, hbody, Option.bind_eq_bind, Option.bind_some]
  cases hcode : codes[r]? with
  | none =>
      rw [block_nil (lines_eq_nil hnext hcode)]
      have hlast := List.getElem?_eq_none_iff.1 hcode
      rw [Nat.min_eq_right (Nat.le_succ_of_le hlast), ← Nat.le_antisymm hr hlast] at hblock
      exact ⟨r, hir, hr, hnext, hblock⟩
  | some closing =>
      have hlt := (drop_of_getElem? hcode).1
      rw [block_cons (lines_eq_cons hnext hcode)]
      rw [Nat.min_eq_left hlt] at hblock
      exact ⟨r + 1, by omega, hlt, rfl, hblock⟩

/-- The walks of the layout, taken by indices. -/
theorem follows_all (hi : i ≤ codes.length) (hp : p.lines = (codes.drop i).map Shape.ofCode) :
    (∀ region : Region, Follows codes i (.body region.breakers) (body region p)) ∧
      Follows codes i .branches (branches p) ∧ Follows codes i .block (block p) := by
  induction hn : codes.length - i using Nat.strongRecOn generalizing i p with
  | ind n ih =>
      have later : ∀ {j : Nat} {q : Place}, i < j → j ≤ codes.length →
          q.lines = (codes.drop j).map Shape.ofCode →
            (∀ region : Region, Follows codes j (.body region.breakers) (body region q)) ∧
              Follows codes j .branches (branches q) ∧ Follows codes j .block (block q) :=
        fun hij hj hq => ih _ (by omega) hj hq rfl
      have hbody : ∀ region : Region, Follows codes i (.body region.breakers) (body region p) := by
        intro region
        cases hcode : codes[i]? with
        | none =>
            rw [body_nil region (lines_eq_nil hp hcode)]
            exact follows_stop hi hp (arrives_body_of_ends (by simp [hcode]))
        | some code =>
            have hlt := (drop_of_getElem? hcode).1
            have hline := lines_eq_cons hp hcode
            cases hends : region.endsAt (.ofCode code) with
            | true =>
                rw [body_cons region hline]
                simp only [hends, if_true]
                rw [endsAt_ofCode] at hends
                exact follows_stop hi hp (arrives_body_of_ends (by simpa [hcode] using hends))
            | false =>
                obtain ⟨j, hij, hj, hnext, hfirst⟩ := follows_statement (p := p) hcode
                  fun q hq => (later (Nat.lt_add_one i) hlt hq).2
                obtain ⟨r, hjr, hr, hend, hrest⟩ := (later hij hj hnext).1 region
                rw [body_eq_statement region hline hends]
                rw [endsAt_ofCode] at hends
                refine ⟨r, by omega, hr, hend, ?_⟩
                have hwalk := arrives_body_of_statement hcode hends hij hfirst hrest
                rwa [← Int.natCast_add] at hwalk
      exact ⟨hbody, follows_branches (hbody .branch) fun hij hj hq => (later hij hj hq).2.1,
        follows_block (hbody .block)⟩

/-- A body ends before a line that starts with one of its words, or at the end of the text. -/
theorem exists_arrives_body (breakers : List (List Char)) (hi : i ≤ codes.length) :
    ∃ (r excess : Nat), Arrives codes i (.body breakers) ⟨r, excess⟩ ∧ i ≤ r ∧
      r ≤ codes.length ∧ ∀ code ∈ codes[r]?, breakers.any (startsWithWord · code) = true := by
  induction hn : codes.length - i using Nat.strongRecOn generalizing i with
  | ind n ih =>
      by_cases hends : ∀ code ∈ codes[i]?, breakers.any (startsWithWord · code) = true
      · exact ⟨i, 0, arrives_body_of_ends hends, Nat.le_refl i, hi, hends⟩
      · obtain ⟨code, hcode, hgoes⟩ : ∃ code, codes[i]? = some code ∧
            breakers.any (startsWithWord · code) = false := by simpa using hends
        obtain ⟨hlt, -⟩ := drop_of_getElem? hcode
        obtain ⟨j, hij, hj, -, hfirst⟩ :=
          follows_statement (p := ⟨(codes.drop i).map Shape.ofCode, 0, false⟩) hcode
            fun q hq => (follows_all hlt hq).2
        obtain ⟨r, excess, hrest, hjr, hr, hend⟩ := ih _ (by omega) hj rfl
        have hwalk := arrives_body_of_statement hcode hgoes hij hfirst hrest
        exact ⟨r, _, hwalk, by omega, hr, hend⟩

variable (codes i) in
/-- The walk from line `i` on comes to an end, with no more walks open at once than three for each
line ahead and three more, and to no line before. -/
def Returns (walk : Walk) : Prop :=
  ∃ r excess, (∀ calls, 3 * (codes.length - i) + 3 ≤ calls →
      walk? codes calls walk i = some ⟨r, excess⟩) ∧
    i ≤ r ∧ r ≤ codes.length ∧ 0 ≤ excess

theorem Follows.returns {s : Stretch} (h : Follows codes i walk s) : Returns codes i walk := by
  obtain ⟨r, hir, hr, -, hwalk⟩ := h
  exact ⟨r, s.excess, fun calls hcalls => hwalk.of_le hcalls, hir, hr, Int.natCast_nonneg _⟩

/-- Every walk returns, with no more calls than its lines account for: what a line opens ends behind
that line, and a body at one of its words or at the end. So the walk over all lines comes to their
end. The layout takes these walks. -/
theorem walk?_returns (codes : List (List Char)) :
    (∀ i < codes.length,
      (∀ openers, Returns codes (i + 1) (.continuation openers)) ∧
      Returns codes (i + 1) .branches ∧ Returns codes (i + 1) .block ∧
      ∀ breakers, ∃ r excess,
        (∀ calls, 3 * (codes.length - i) + 3 ≤ calls →
          walk? codes calls (.body breakers) i = some ⟨r, excess⟩) ∧
        i ≤ r ∧ r ≤ codes.length ∧ 0 ≤ excess ∧
        (r = codes.length ∨
          ∃ code, codes[r]? = some code ∧ ∃ word ∈ breakers, startsWithWord word code = true)) ∧
    (∀ calls, 3 * codes.length + 3 ≤ calls →
      walk? codes calls (.body []) 0 =
        some ⟨codes.length, (ofShapes (codes.map .ofCode)).excess⟩) ∧
    ∀ i ≤ codes.length, ∀ carried after,
      let p : Place := ⟨(codes.drop i).map .ofCode, carried, after⟩
      (∀ openers, Follows codes i (.continuation openers) (continuation openers p)) ∧
      (∀ region : Region, Follows codes i (.body region.breakers) (body region p)) ∧
      Follows codes i .branches (branches p) ∧ Follows codes i .block (block p) := by
  refine ⟨?_, ?_, ?_⟩
  · intro i hi
    have behind := follows_all (p := ⟨(codes.drop (i + 1)).map .ofCode, 0, false⟩) hi rfl
    refine ⟨fun openers => ?_, behind.2.1.returns, behind.2.2.returns, fun breakers => ?_⟩
    · exact (follows_continuation (p := ⟨_, 0, false⟩) openers hi rfl).returns
    · obtain ⟨r, excess, hwalk, hir, hr, hend⟩ := exists_arrives_body breakers (Nat.le_of_lt hi)
      refine ⟨r, excess, fun calls => hwalk.of_le, hir, hr, Int.natCast_nonneg _, ?_⟩
      cases hcode : codes[r]? with
      | none => exact .inl (Nat.le_antisymm hr (List.getElem?_eq_none_iff.1 hcode))
      | some code => exact .inr ⟨code, rfl, List.any_eq_true.1 (hend code hcode)⟩
  · obtain ⟨r, -, hr, hnext, hwalk⟩ :=
      (follows_all (p := ⟨codes.map .ofCode, 0, false⟩) (Nat.zero_le codes.length) rfl).1 .document
    have hlast : codes.length ≤ r := by
      rw [next_body_document, eq_comm, List.map_eq_nil_iff, List.drop_eq_nil_iff] at hnext
      exact hnext
    rw [Nat.le_antisymm hr hlast] at hwalk
    exact fun calls => hwalk.of_le
  · intro i hi carried after p
    exact ⟨fun openers => follows_continuation openers hi rfl, follows_all hi rfl⟩

/-- A closer too many is reported, and the walk ends before the line that has it. -/
theorem walk?_returns_unbalanced :
    let codes := [['f', '('], [']', ')', ','], ['[']]
    Returns codes 1 (.continuation 1) ∧ walk? codes 9 (.continuation 1) 1 = some ⟨1, 1⟩ ∧
      Follows codes 1 (.continuation 1)
        (continuation 1 ⟨(codes.drop 1).map .ofCode, 0, false⟩) := by
  intro codes
  obtain ⟨hreturns, -, hfollows⟩ := walk?_returns codes
  exact ⟨(hreturns 0 (by decide)).1 1, rfl, (hfollows 1 (by decide) 0 false).1 1⟩

end Indentation
end MiniScriptLayout
