import Mathlib.Data.List.Basic
import MiniScriptLayout.Proofs.Indentation.Forest
import MiniScriptLayout.Proofs.Lexical.Balance

/-!
Bracket groups over many lines. Up to the first line that closes a group inside of another one, a
line has one continuation unit for each group around it. That line ends all groups at once, and the
lines behind it are indented as if it began a statement.
-/

namespace MiniScriptLayout
namespace Indentation

open Lexical

/-- The line opens no block. -/
structure OpensNoBlock (code : List Char) : Prop where
  branch : ¬ IsBranchHead code
  loop : Keyword.whileWord.starts code = false ∧ Keyword.forWord.starts code = false
  function : holdsFunction code = false

/-- The line leaves one bracket open, its last character. -/
structure IsOpener (code : List Char) : Prop where
  block : OpensNoBlock code
  balance : Balance.ofCode code = ⟨1, 0⟩
  last : code.getLast?.any isOpener = true

/-- The line has no brackets and ends in a comma. -/
structure IsItem (code : List Char) : Prop where
  block : OpensNoBlock code
  plain : ∀ c ∈ code, isBracket c = false
  last : code.getLast? = some ','

instance (code : List Char) : Decidable (OpensNoBlock code) :=
  decidable_of_iff (¬ IsBranchHead code ∧
      (Keyword.whileWord.starts code = false ∧ Keyword.forWord.starts code = false) ∧
      holdsFunction code = false)
    ⟨fun ⟨branch, loop, function⟩ => ⟨branch, loop, function⟩,
      fun h => ⟨h.branch, h.loop, h.function⟩⟩

instance (code : List Char) : Decidable (IsOpener code) :=
  decidable_of_iff (OpensNoBlock code ∧ Balance.ofCode code = ⟨1, 0⟩ ∧
      code.getLast?.any isOpener = true)
    ⟨fun ⟨block, balance, last⟩ => ⟨block, balance, last⟩,
      fun h => ⟨h.block, h.balance, h.last⟩⟩

instance (code : List Char) : Decidable (IsItem code) :=
  decidable_of_iff (OpensNoBlock code ∧ (code.all fun c => !isBracket c) = true ∧
      code.getLast? = some ',')
    ⟨fun ⟨block, plain, last⟩ => ⟨block, by simpa using plain, last⟩,
      fun h => ⟨h.block, by simpa using h.plain, h.last⟩⟩

/-- What stands between the brackets of a statement: lines that end in a comma, and groups with
brackets of their own, which close on a line with a comma behind the bracket. -/
inductive Items : Type
  | nil
  | item (code : { code : List Char // IsItem code }) (rest : Items)
  | group (opener : { code : List Char // IsOpener code }) (inner : Items)
      (bracket : { c : Char // isCloser c = true }) (rest : Items)

/-- A statement that begins with an open bracket and ends in a line with a bracket alone. -/
structure Bracketed : Type where
  opener : { code : List Char // IsOpener code }
  items : Items
  bracket : { c : Char // isCloser c = true }

namespace Items

def lines : Items → List (List Char)
  | nil => []
  | item code rest => code.val :: rest.lines
  | group opener inner bracket rest =>
    opener.val :: (inner.lines ++ [bracket.val, ','] :: rest.lines)

/-- The numbers of groups around the lines in `d` groups. The lines of the brackets of a group stand
outside of it. -/
def nesting (d : Nat) : Items → List Nat
  | nil => []
  | item _ rest => d :: rest.nesting d
  | group _ inner _ rest => d :: (inner.nesting (d + 1) ++ d :: rest.nesting d)

/-- The continuation units that the lines get at level `k`. -/
def units (k : Nat) : Items → List Nat
  | nil => []
  | item _ rest => k :: rest.units k
  | group _ inner _ rest => k :: (inner.units (k + 1) ++ 0 :: rest.units 1)

def IsFlat : Items → Prop
  | nil => True
  | item _ rest => rest.IsFlat
  | group _ _ _ _ => False

theorem length_units (items : Items) (k d : Nat) :
    (items.units k).length = (items.nesting d).length := by
  induction items generalizing k d with
  | nil => rfl
  | item code rest ih => simp [units, nesting, ih k d]
  | group opener inner bracket rest ihinner ih =>
      simp [units, nesting, ihinner (k + 1) (d + 1), ih 1 d]

/-- Only the line that closes a group tells units and groups apart. -/
theorem units_eq_nesting_iff (items : Items) (k : Nat) :
    items.units (k + 1) = items.nesting (k + 1) ↔ items.IsFlat := by
  induction items with
  | nil => simp [units, nesting, IsFlat]
  | item code rest ih => simpa [units, nesting, IsFlat] using ih
  | group opener inner bracket rest _ _ =>
      simp only [units, nesting, IsFlat, List.cons.injEq, true_and, iff_false]
      intro h
      have hclose := (List.append_inj h (inner.length_units _ _)).2
      simp at hclose

end Items

namespace Bracketed

def lines (s : Bracketed) : List (List Char) :=
  s.opener.val :: (s.items.lines ++ [[s.bracket.val]])

def nesting (s : Bracketed) : List Nat :=
  0 :: (s.items.nesting 1 ++ [0])

def units (s : Bracketed) : List Nat :=
  0 :: (s.items.units 1 ++ [0])

end Bracketed

section Walk

variable {l : Shape} {ls : List Shape}

/-- The line goes on behind a comma or a bracket, and it opens no block. -/
structure Shape.GoesOn (l : Shape) : Prop where
  branch : l.opensBranch = false
  block : l.opensBlock = false
  operation : l.endsWithOperation = false
  endsOpen : l.endsOpen = true

theorem Shape.GoesOn.isIncomplete (h : l.GoesOn) : l.isIncomplete = true := by
  simp [Shape.isIncomplete, h.endsOpen]

/-- The depths of a stretch and of all lines behind it. -/
def Stretch.finish (s : Stretch) : List Depth :=
  s.depths ++ (body .document s.next).depths

/-- The depths of the lines behind a comma that no open bracket of its line stands before. -/
def pastComma (ls : List Shape) : List Depth :=
  (continuation 0 ⟨ls, 0, false⟩).finish

/-- The depths of the lines behind an open bracket at level `k`. -/
def pastOpener (k : Nat) (ls : List Shape) : List Depth :=
  ((continuation 1 ⟨ls, 0, false⟩).map (·.continued k)).finish

theorem pastOpener_zero (ls : List Shape) :
    pastOpener 0 ls = (continuation 1 ⟨ls, 0, false⟩).finish := by
  simp [pastOpener, Stretch.map, Depth.continued]

/-- The lines behind an open bracket end before a line that ends the brackets around it, too. -/
def EndsAll (ls : List Shape) : Prop :=
  (continuation 1 ⟨ls, 0, false⟩).excess = 0 ∧
    continuation 1 (continuation 1 ⟨ls, 0, false⟩).next =
      .stop (continuation 1 ⟨ls, 0, false⟩).next

theorem body_goesOn (h : l.GoesOn) (carried : Nat) :
    (body .document ⟨l :: ls, carried, false⟩).depths =
      ⟨0, carried⟩ :: (continuation l.balance.opened ⟨ls, 0, false⟩).finish := by
  rw [body_cons .document rfl]
  simp [Region.endsAt, h.branch, h.block, h.operation, h.endsOpen, Place.operatorUnits,
    Stretch.cons, Stretch.map, Stretch.append, Stretch.finish, Depth.continued]

section Item

variable (h : l.GoesOn) (hb : l.balance = ⟨0, 0⟩) (hc : l.startsWithCloser = false)
include h hb

theorem continuation_item : continuation 1 ⟨l :: ls, 0, false⟩ =
    (continuation 1 ⟨ls, 0, false⟩).cons ⟨0, 1⟩ := by
  rw [continuation_cons 1 rfl]
  simp [h.isIncomplete, h.operation, hb, Place.operatorUnits]

theorem pastOpener_item (k : Nat) :
    pastOpener k (l :: ls) = ⟨0, k + 1⟩ :: pastOpener k ls := by
  rw [pastOpener, continuation_item h hb, Nat.add_comm]
  rfl

theorem endsAll_item (hls : EndsAll ls) : EndsAll (l :: ls) := by
  rwa [EndsAll, continuation_item h hb]

include hc

/-- The item is indented as if it continued the line with the comma, and it ends this line. -/
theorem pastComma_item : pastComma (l :: ls) = ⟨0, 1⟩ :: pastComma ls := by
  have hstop : continuation 0 ⟨l :: ls, 0, false⟩ = ⟨[], 0, ⟨l :: ls, 1, false⟩⟩ := by
    rw [continuation_cons 0 rfl]
    simp [h.isIncomplete, hb, hc]
  rw [pastComma, hstop, Stretch.finish, body_goesOn h, hb]
  rfl

end Item

section Closer

variable (h : l.GoesOn) (hb : l.balance = ⟨0, 1⟩) (hc : l.startsWithCloser = true)
include h hb hc

theorem continuation_closer {openers : Int} (ho : openers ≤ 1) :
    continuation openers ⟨l :: ls, 0, false⟩ =
      ⟨[], (1 - openers).toNat, ⟨l :: ls, 0, false⟩⟩ := by
  have hleft : openers - 1 ≤ 0 := by omega
  rw [continuation_cons openers rfl]
  simp [h.isIncomplete, hb, hc, hleft, Int.neg_sub]

theorem pastComma_closer : pastComma (l :: ls) = ⟨0, 0⟩ :: pastComma ls := by
  rw [pastComma, continuation_closer h hb hc (by decide), Stretch.finish, body_goesOn h, hb]
  rfl

theorem pastOpener_closer (k : Nat) : pastOpener k (l :: ls) = ⟨0, 0⟩ :: pastComma ls := by
  rw [pastOpener, continuation_closer h hb hc (Int.le_refl 1), Stretch.finish, Stretch.map,
    body_goesOn h, hb]
  rfl

theorem endsAll_closer : EndsAll (l :: ls) := by
  rw [EndsAll, continuation_closer h hb hc (Int.le_refl 1)]
  exact ⟨rfl, continuation_closer h hb hc (Int.le_refl 1)⟩

end Closer

section Opener

variable (h : l.GoesOn) (hb : l.balance = ⟨1, 0⟩)
include h hb

theorem continuation_opener (hls : EndsAll ls) : continuation 1 ⟨l :: ls, 0, false⟩ =
    ((continuation 1 ⟨ls, 0, false⟩).map (·.continued 1)).cons ⟨0, 1⟩ := by
  obtain ⟨hexcess, hstop⟩ := hls
  have hone : max (1 : Int) 0 = 1 := rfl
  rw [continuation_cons 1 rfl]
  simp [h.isIncomplete, h.operation, hb, hexcess, hone, hstop, Place.operatorUnits,
    Stretch.resume, Stretch.stop, Stretch.map, Stretch.cons, Depth.continued]

theorem pastOpener_opener (hls : EndsAll ls) (k : Nat) :
    pastOpener k (l :: ls) = ⟨0, k + 1⟩ :: pastOpener (k + 1) ls := by
  rw [pastOpener, continuation_opener h hb hls]
  simp [pastOpener, Stretch.finish, Stretch.map, Stretch.cons, Depth.continued, Nat.add_comm,
    Nat.add_left_comm]

theorem endsAll_opener (hls : EndsAll ls) : EndsAll (l :: ls) := by
  rw [EndsAll, continuation_opener h hb hls]
  exact hls

theorem pastComma_opener : pastComma (l :: ls) = ⟨0, 1⟩ :: pastOpener 1 ls := by
  rw [pastComma, continuation_cons 0 rfl]
  simp [h.isIncomplete, h.operation, hb, Place.operatorUnits, pastOpener, Stretch.finish,
    Stretch.map, Stretch.cons, Depth.continued]

end Opener

end Walk

section Codes

variable {code : List Char}

theorem lastChar?_of_getLast? {c : Char} (h : code.getLast? = some c) (hc : c ≠ '\n') :
    lastChar? code = some c := by
  rw [← List.head?_reverse] at h
  cases hr : code.reverse with
  | nil =>
      rw [hr] at h
      cases h
  | cons c' r =>
      rw [hr] at h
      cases h
      simp [lastChar?, hr, hc]

theorem OpensNoBlock.goesOn (h : OpensNoBlock code) {c : Char} (hlast : code.getLast? = some c)
    (hc : c = ',' ∨ isOpener c = true) : (Shape.ofCode code).GoesOn := by
  have hfeed : c ≠ '\n' := by
    rintro rfl
    revert hc
    decide
  have hopen : endsOpen code = true := by
    rw [endsOpen, lastChar?_of_getLast? hlast hfeed]
    rcases hc with rfl | hc
    · rfl
    · simp [hc]
  refine ⟨not_opensBranch.1 h.branch, ?_, ?_, hopen⟩
  · simp [Shape.ofCode, h.loop, h.function]
  · rw [← Bool.not_eq_true]
    intro hoperation
    rw [endsOpen_of_endsWithOperation hoperation] at hopen
    cases hopen

theorem IsOpener.goesOn (h : IsOpener code) : (Shape.ofCode code).GoesOn := by
  obtain ⟨c, hlast, hc⟩ := Option.any_eq_true _ _ |>.1 h.last
  exact h.block.goesOn hlast (.inr hc)

theorem IsItem.goesOn (h : IsItem code) : (Shape.ofCode code).GoesOn :=
  h.block.goesOn h.last (.inl rfl)

theorem IsItem.startsWithCloser (h : IsItem code) : startsWithCloser code = false := by
  cases code with
  | nil => rfl
  | cons c r => exact (Bool.or_eq_false_iff.1 (h.plain c List.mem_cons_self)).2

/-- A bracket with a comma goes on, and a bracket alone does not. -/
theorem shape_closer {c : Char} (h : isCloser c = true) :
    Shape.ofCode [c, ','] = { endsOpen := true, startsWithCloser := true, balance := ⟨0, 1⟩ } ∧
      Shape.ofCode [c] = { startsWithCloser := true, balance := ⟨0, 1⟩ } := by
  simp only [isCloser, Bool.or_eq_true, decide_eq_true_eq] at h
  rcases h with (rfl | rfl) | rfl <;> decide

end Codes

section Statements

variable (ls : List Shape)

theorem endsAll_items (items : Items) {c : Char} (hc : isCloser c = true) :
    EndsAll (items.lines.map .ofCode ++ .ofCode [c, ','] :: ls) := by
  have endsAll : ∀ {c : Char}, isCloser c = true → ∀ ls, EndsAll (.ofCode [c, ','] :: ls) := by
    intro c hc ls
    rw [(shape_closer hc).1]
    exact endsAll_closer ⟨rfl, rfl, rfl, rfl⟩ rfl rfl
  induction items generalizing c ls with
  | nil => exact endsAll hc ls
  | item code rest ih =>
      exact endsAll_item code.property.goesOn (Balance.ofCode_plain code.property.plain) (ih ls hc)
  | group opener inner bracket rest ihinner _ =>
      -- the inner group ends at its own bracket, and the lines around it end with it
      simp only [Items.lines, List.map_append, List.map_cons, List.cons_append, List.append_assoc]
      exact endsAll_opener opener.property.goesOn opener.property.balance
        (ihinner _ bracket.property)

def ofLevels (levels : List Nat) : List Depth :=
  levels.map (⟨0, ·⟩)

theorem past_closer {c : Char} (hc : isCloser c = true) :
    pastComma (.ofCode [c, ','] :: ls) = ⟨0, 0⟩ :: pastComma ls ∧
      ∀ k, pastOpener k (.ofCode [c, ','] :: ls) = ⟨0, 0⟩ :: pastComma ls := by
  rw [(shape_closer hc).1]
  exact ⟨pastComma_closer ⟨rfl, rfl, rfl, rfl⟩ rfl rfl,
    pastOpener_closer ⟨rfl, rfl, rfl, rfl⟩ rfl rfl⟩

/-- Items behind a comma stand at the first level, and items behind a bracket at the level of the
bracket, up to the first line that closes a group. -/
theorem past_items (items : Items) :
    (∀ ls, pastComma (items.lines.map .ofCode ++ ls) =
        ofLevels (items.units 1) ++ pastComma ls) ∧
      ∀ (k : Nat) (c : Char) (ls), isCloser c = true →
        pastOpener k (items.lines.map .ofCode ++ .ofCode [c, ','] :: ls) =
          ofLevels (items.units (k + 1)) ++ ⟨0, 0⟩ :: pastComma ls := by
  induction items with
  | nil => exact ⟨fun ls => rfl, fun k c ls hc => (past_closer ls hc).2 k⟩
  | item code rest ih =>
      have hcode := code.property
      have hb := Balance.ofCode_plain hcode.plain
      refine ⟨fun ls => ?_, fun k c ls hc => ?_⟩
      · exact (pastComma_item hcode.goesOn hb hcode.startsWithCloser).trans
          (congrArg _ (ih.1 ls))
      · exact (pastOpener_item hcode.goesOn hb k).trans (congrArg _ (ih.2 k c ls hc))
  | group opener inner bracket rest ihinner ih =>
      have hopener := opener.property
      have hbracket := bracket.property
      simp only [Items.lines, Items.units, List.map_append, List.map_cons, List.cons_append,
        List.append_assoc, ofLevels] at ihinner ih ⊢
      refine ⟨fun ls => ?_, fun k c ls hc => ?_⟩
      · rw [pastComma_opener hopener.goesOn hopener.balance, ihinner.2 1 _ _ hbracket, ih.1]
      · rw [pastOpener_opener hopener.goesOn hopener.balance (endsAll_items _ inner hbracket) k,
          ihinner.2 (k + 1) _ _ hbracket, ih.1, (past_closer ls hc).1]

theorem finish_end {c : Char} (hc : isCloser c = true) (openers : Int) :
    (continuation openers ⟨[.ofCode [c]], 0, false⟩).finish = [⟨0, 0⟩] := by
  have hnil : (body .document ⟨[], 0, false⟩).depths = [] := by
    rw [body_nil .document rfl]
    rfl
  rw [(shape_closer hc).2, continuation_cons openers rfl]
  simp [Shape.isIncomplete, Place.operatorUnits, Stretch.finish, hnil]

theorem pastOpener_items_end (items : Items) {c : Char} (hc : isCloser c = true) :
    pastOpener 0 (items.lines.map .ofCode ++ [.ofCode [c]]) =
      ofLevels (items.units 1) ++ [⟨0, 0⟩] := by
  induction items with
  | nil => exact (pastOpener_zero _).trans (finish_end hc 1)
  | item code rest ih =>
      have hcode := code.property
      exact (pastOpener_item hcode.goesOn (Balance.ofCode_plain hcode.plain) 0).trans (congrArg _ ih)
  | group opener inner bracket rest _ _ =>
      have hopener := opener.property
      have hbracket := bracket.property
      simp only [Items.lines, Items.units, List.map_append, List.map_cons, List.cons_append,
        List.append_assoc, ofLevels]
      rw [pastOpener_opener hopener.goesOn hopener.balance (endsAll_items _ inner hbracket) 0,
        (past_items inner).2 _ _ _ hbracket, (past_items rest).1, pastComma, finish_end hc 0]
      simp [ofLevels]

theorem indents_bracketed (u : Units) (s : Bracketed) :
    indents u s.lines = s.units.map fun k => (List.replicate k u.continuation).flatten := by
  have hopener := s.opener.property
  have hdepths : (ofShapes (s.lines.map .ofCode)).depths = ofLevels s.units := by
    have hone : ((Shape.ofCode s.opener.val).balance.opened : Int) = 1 := by
      rw [show (Shape.ofCode s.opener.val).balance = ⟨1, 0⟩ from hopener.balance]
      rfl
    rw [ofShapes, Bracketed.lines, List.map_cons, body_goesOn hopener.goesOn, hone,
      ← pastOpener_zero, List.map_append]
    exact (congrArg _ (pastOpener_items_end s.items s.bracket.property)).trans
      (by simp [Bracketed.units, ofLevels])
  rw [indents, hdepths, ofLevels, List.map_map]
  simp [Function.comp_def, Depth.render]

end Statements

theorem Bracketed.units_eq_nesting_iff (s : Bracketed) : s.units = s.nesting ↔ s.items.IsFlat := by
  simp only [units, nesting, List.cons.injEq, true_and, List.append_cancel_right_eq]
  exact s.items.units_eq_nesting_iff 0

/-- Each line has one continuation unit for each group around it exactly if no group stands inside
of another, or if units are empty. -/
theorem indents_bracketed_iff (u : Units) (s : Bracketed) :
    indents u s.lines = (s.nesting.map fun d => (List.replicate d u.continuation).flatten) ↔
      s.items.IsFlat ∨ u.continuation = [] := by
  rw [indents_bracketed]
  by_cases hu : u.continuation = []
  · have hlength : s.units.length = s.nesting.length := by
      simp [Bracketed.units, Bracketed.nesting, s.items.length_units 1 1]
    simp [hu, List.map_const', hlength]
  · have hinj := flatten_replicate_injective hu
    rw [(List.map_injective_iff.2 hinj).eq_iff, s.units_eq_nesting_iff]
    simp [hu]

/-- The line that closes the inner group stands in the outer group, and it is not indented. -/
theorem indents_nested_brackets :
    let inner : Items := .item ⟨['1', ','], by decide⟩ .nil
    let s : Bracketed := ⟨⟨['x', ' ', '=', ' ', '['], by decide⟩,
      .group ⟨['['], by decide⟩ inner ⟨']', rfl⟩ .nil, ⟨']', rfl⟩⟩
    indents ⟨[' ', ' '], [' ', ' ']⟩ s.lines ≠
      s.nesting.map fun d => (List.replicate d [' ', ' ']).flatten := by
  intro inner s
  rw [indents_bracketed]
  decide

end Indentation
end MiniScriptLayout
