import MiniScriptLayout.Lexical.Balance
import MiniScriptLayout.Proofs.Parentheses.Balanced

/-!
The balance of a text made of two. Closers of the second text pair with the openers that the first
one leaves, so the balances of the parts say what is left of the whole. Nothing is left exactly if
the brackets are balanced, whatever their kinds.
-/

namespace MiniScriptLayout
namespace Lexical

open Parentheses (Balanced Closes)

theorem not_isOpener_of_isCloser {c : Char} (h : isCloser c = true) : isOpener c = false := by
  simp only [isCloser, Bool.or_eq_true, decide_eq_true_eq] at h
  rcases h with (rfl | rfl) | rfl <;> rfl

/-- The brackets of a text, their kinds ignored: all are written as parentheses. -/
def brackets (code : List Char) : List Char :=
  (code.filter isBracket).map fun c => if isOpener c then '(' else ')'

section Brackets

variable {c : Char} (code : List Char)

theorem brackets_opener (h : isOpener c = true) : brackets (c :: code) = '(' :: brackets code := by
  simp [brackets, isBracket, h]

theorem brackets_closer (h : isCloser c = true) : brackets (c :: code) = ')' :: brackets code := by
  simp [brackets, isBracket, h, not_isOpener_of_isCloser h]

theorem brackets_plain (h : isBracket c = false) : brackets (c :: code) = brackets code := by
  simp [brackets, h]

/-- A character is an opener, a closer or no bracket. -/
theorem bracket_cases (c : Char) :
    isOpener c = true ∨ isCloser c = true ∨ isBracket c = false := by
  cases ho : isOpener c <;> cases hc : isCloser c <;> simp [isBracket, ho, hc]

theorem mem_brackets (h : c ∈ brackets code) : c = '(' ∨ c = ')' := by
  obtain ⟨d, -, rfl⟩ := List.mem_map.1 h
  split
  · exact .inl rfl
  · exact .inr rfl

end Brackets

namespace Balance

variable {c : Char} {a b : Balance} {u v : List Char}

theorem step_opener (h : isOpener c = true) (b : Balance) : b.step c = ⟨b.opened + 1, b.closed⟩ := by
  have hc : isCloser c = false := by
    cases hc : isCloser c with
    | false => rfl
    | true => rw [not_isOpener_of_isCloser hc] at h; cases h
  simp [step, h, hc]

theorem step_closer (h : isCloser c = true) (b : Balance) :
    b.step c = if 0 < b.opened then ⟨b.opened - 1, b.closed⟩ else ⟨b.opened, b.closed + 1⟩ := by
  simp [step, h]

theorem step_plain (h : isBracket c = false) (b : Balance) : b.step c = b := by
  rw [isBracket, Bool.or_eq_false_iff] at h
  simp [step, h.1, h.2]

/-- The closers of the second text pair with openers that the first one leaves. -/
def append (a b : Balance) : Balance :=
  ⟨b.opened + (a.opened - b.closed), a.closed + (b.closed - a.opened)⟩

theorem append_zero (a : Balance) : a.append ⟨0, 0⟩ = a := by
  simp [append]

theorem step_append (a b : Balance) (c : Char) : (a.append b).step c = a.append (b.step c) := by
  obtain h | h | h := bracket_cases c
  · rw [step_opener h, step_opener h, append, append, mk.injEq]
    dsimp only
    omega
  · -- the closer pairs in the second text, else in the first one, else nowhere
    rw [step_closer h, step_closer h]
    by_cases hb : 0 < b.opened
    · have hab : 0 < (a.append b).opened := Nat.add_pos_left hb _
      rw [if_pos hb, if_pos hab, append, append, mk.injEq]
      dsimp only
      omega
    · by_cases ha : b.closed < a.opened
      · have hab : 0 < (a.append b).opened := Nat.add_pos_right _ (Nat.sub_pos_of_lt ha)
        rw [if_neg hb, if_pos hab, append, append, mk.injEq]
        dsimp only
        omega
      · have hab : ¬ 0 < (a.append b).opened := by
          rw [append]
          dsimp only
          omega
        rw [if_neg hb, if_neg hab, append, append, mk.injEq]
        dsimp only
        omega
  · rw [step_plain h, step_plain h]

theorem foldl_step_append (a b : Balance) (s : List Char) :
    s.foldl step (a.append b) = a.append (s.foldl step b) := by
  induction s generalizing b with
  | nil => rfl
  | cons c s ih => rw [List.foldl_cons, List.foldl_cons, step_append, ih]

theorem foldl_step_plain (h : ∀ c ∈ u, isBracket c = false) (b : Balance) : u.foldl step b = b := by
  induction u with
  | nil => rfl
  | cons c u ih =>
      rw [List.forall_mem_cons] at h
      rw [List.foldl_cons, step_plain h.1, ih h.2]

theorem ofCode_plain (h : ∀ c ∈ u, isBracket c = false) : ofCode u = ⟨0, 0⟩ :=
  foldl_step_plain h _

/-- The balance of a text made of two. -/
theorem ofCode_append (u v : List Char) : ofCode (u ++ v) = (ofCode u).append (ofCode v) := by
  rw [ofCode, List.foldl_append]
  change v.foldl step (ofCode u) = _
  rw [← append_zero (ofCode u), foldl_step_append, append_zero]
  rfl

/-- An opener goes with the next bracket, if that is a closer. -/
theorem ofCode_pair {o : Char} (ho : isOpener o = true) (hc : isCloser c = true)
    (hu : ∀ d ∈ u, isBracket d = false) (v : List Char) :
    ofCode (o :: (u ++ c :: v)) = ofCode (u ++ v) := by
  have hpaired : step (step ⟨0, 0⟩ o) c = ⟨0, 0⟩ := by
    rw [step_opener ho, step_closer hc]
    rfl
  simp only [ofCode, List.foldl_cons, List.foldl_append, foldl_step_plain hu, hpaired]

/-- Only the brackets count, and not their kinds. -/
theorem ofCode_brackets (code : List Char) : ofCode (brackets code) = ofCode code := by
  suffices run : ∀ b : Balance, (brackets code).foldl step b = code.foldl step b from run ⟨0, 0⟩
  induction code with
  | nil => exact fun _ => rfl
  | cons c code ih =>
      intro b
      rw [List.foldl_cons]
      obtain h | h | h := bracket_cases c
      · rw [brackets_opener code h, List.foldl_cons, ih, step_opener h, step_opener rfl]
      · rw [brackets_closer code h, List.foldl_cons, ih, step_closer h, step_closer rfl]
      · rw [brackets_plain code h, ih, step_plain h]

/-- A text after which nothing is left closes what was open before it, and nothing else. -/
theorem closes_of_foldl_step {code : List Char} (h : code.foldl step b = ⟨0, 0⟩) :
    b.closed = 0 ∧ Closes '(' ')' b.opened (brackets code) := by
  induction code generalizing b with
  | nil =>
      cases h
      exact ⟨rfl, .nil⟩
  | cons c code ih =>
      rw [List.foldl_cons] at h
      have ih := ih h
      obtain hc | hc | hc := bracket_cases c
      · rw [step_opener hc] at ih
        rw [brackets_opener code hc]
        exact ⟨ih.1, ih.2.opener_cons⟩
      · rw [step_closer hc] at ih
        rw [brackets_closer code hc]
        by_cases hb : 0 < b.opened
        · rw [if_pos hb] at ih
          rw [← Nat.sub_add_cancel hb]
          exact ⟨ih.1, ih.2.closer_cons⟩
        · rw [if_neg hb] at ih
          exact absurd ih.1 (Nat.succ_ne_zero _)
      · rw [step_plain hc] at ih
        rw [brackets_plain code hc]
        exact ih

theorem ofCode_of_balanced {s : List Char} (h : Balanced '(' ')' s)
    (hs : ∀ c ∈ s, c = '(' ∨ c = ')') : ofCode s = ⟨0, 0⟩ := by
  induction h with
  | nil => rfl
  | char ho hc _ _ =>
      rw [List.forall_mem_cons] at hs
      exact absurd hs.1 (not_or.2 ⟨ho, hc⟩)
  | @group s t _ _ ihs iht =>
      rw [List.forall_mem_cons, List.forall_mem_append, List.forall_mem_cons] at hs
      have hwhole : '(' :: (s ++ ')' :: t) = ['('] ++ (s ++ ([')'] ++ t)) := rfl
      rw [hwhole, ofCode_append, ofCode_append, ofCode_append, ihs hs.2.1, iht hs.2.2.2]
      rfl

/-- Nothing is left of a text exactly if its brackets are balanced. -/
theorem ofCode_eq_zero_iff (code : List Char) :
    ofCode code = ⟨0, 0⟩ ↔ Balanced '(' ')' (brackets code) := by
  constructor
  · exact fun h => (closes_of_foldl_step h).2
  · intro h
    rw [← ofCode_brackets]
    exact ofCode_of_balanced h fun c hc => mem_brackets code hc

/-- The balances of two texts give that of the whole. So nothing is left of a text exactly if its
brackets are balanced, and an opener with the closer next to it does not count. -/
theorem ofCode_homomorphic :
    (∀ u v, ((ofCode (u ++ v)).opened : Int) =
        (ofCode v).opened + max ((ofCode u).opened - (ofCode v).closed : Int) 0 ∧
      ((ofCode (u ++ v)).closed : Int) =
        (ofCode u).closed + max ((ofCode v).closed - (ofCode u).opened : Int) 0) ∧
    (∀ code, ofCode code = ⟨0, 0⟩ ↔ Balanced '(' ')' (brackets code)) ∧
    ∀ u w v o c, isOpener o = true → isCloser c = true → (∀ d ∈ w, isBracket d = false) →
      ofCode (u ++ o :: (w ++ c :: v)) = ofCode (u ++ (w ++ v)) := by
  refine ⟨?_, ofCode_eq_zero_iff, ?_⟩
  · intro u v
    rw [ofCode_append, append]
    dsimp only
    omega
  · intro u w v o c ho hc hw
    rw [ofCode_append, ofCode_pair ho hc hw, ← ofCode_append]

/-- A bracket and a parenthesis go with each other in a text that leaves one closer and one opener.
-/
theorem ofCode_homomorphic_kinds :
    ofCode ['f', ')', '[', 'a', ')', '\x7b'] = ofCode ['f', ')', 'a', '\x7b'] ∧
      ofCode ['f', ')', '[', 'a', ')', '\x7b'] = ⟨1, 1⟩ :=
  ⟨ofCode_homomorphic.2.2 ['f', ')'] ['a'] ['\x7b'] '[' ')' rfl rfl
    (List.forall_mem_singleton.2 rfl), rfl⟩

end Balance
end Lexical
end MiniScriptLayout
