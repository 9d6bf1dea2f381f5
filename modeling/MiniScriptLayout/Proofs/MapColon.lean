import MiniScriptLayout.MapColon
import MiniScriptLayout.Proofs.Token.View

/-!
Colons of maps, line by line. The walk over a text carries its open brackets from line to line; in
each line it only changes the spaces around colons, so it keeps the tokens of every view in which
colons are not glued, and it leaves indentation and comments as they are.
-/

namespace MiniScriptLayout
namespace MapColon

/-- The open brackets at a place of a text, and where the place stands in its line. -/
structure State where
  brackets : List Char
  context : Context
  deriving DecidableEq, Repr

namespace State

def step (st : State) (c : Char) : State :=
  if isSpace c then st
  else if c = ':' ∧ st.brackets.head? = some '\x7b' then ⟨st.brackets, .afterColon⟩
  else if c = '\n' then ⟨st.brackets, .lineStart⟩
  else ⟨pushBracket c st.brackets, .inLine⟩

def after (st : State) (s : List Char) : State :=
  s.foldl step st

/-- Writes the colons of maps in a text that begins in this state. -/
def space (st : State) (s : List Char) : List Char :=
  spaceFrom st.brackets st.context s

end State

variable {st : State} {c : Char} {s t : List Char}

theorem isBlank_of_isSpace (h : isSpace c = true) : Text.isBlank c = true := by
  simp only [isSpace, Bool.or_eq_true, decide_eq_true_eq] at h
  rcases h with rfl | rfl <;> rfl

theorem not_isSpace_of_not_isBlank (h : Text.isBlank c = false) : isSpace c = false := by
  cases hs : isSpace c with
  | false => rfl
  | true =>
      rw [isBlank_of_isSpace hs] at h
      cases h

/-- The text begins with no colon, also behind spaces. -/
def Uncolon (s : List Char) : Prop :=
  (s.dropWhile isSpace).head? ≠ some ':'

theorem colon_ahead_append (ht : Uncolon t) (s : List Char) :
    ((s ++ t).dropWhile isSpace).head? = some ':' ↔ (s.dropWhile isSpace).head? = some ':' := by
  rw [List.dropWhile_append]
  split
  · rename_i hs
    rw [List.isEmpty_iff] at hs
    rw [hs]
    simpa [Uncolon] using ht
  · rename_i hs
    cases hd : s.dropWhile isSpace with
    | nil => simp [hd] at hs
    | cons d s => simp

theorem space_append (ht : Uncolon t) (st : State) (s : List Char) :
    st.space (s ++ t) = st.space s ++ (st.after s).space t := by
  induction s generalizing st with
  | nil => simp [State.space, State.after, spaceFrom]
  | cons c s ih =>
      obtain ⟨brackets, context⟩ := st
      have goesOn : ∀ brackets context, spaceFrom brackets context (s ++ t) =
          spaceFrom brackets context s ++ (State.after ⟨brackets, context⟩ s).space t :=
        fun brackets context => ih ⟨brackets, context⟩
      -- only a space looks ahead, and never past the end of the first text
      simp only [State.space, State.after, List.cons_append, List.foldl_cons, spaceFrom,
        State.step, colon_ahead_append ht s]
      split
      · cases context with
        | lineStart => simp only [goesOn, List.cons_append]; rfl
        | inLine =>
            dsimp only
            split <;> simp only [goesOn, List.cons_append] <;> rfl
        | afterColon => exact goesOn _ _
      · split
        · simp only [goesOn, List.cons_append]; rfl
        · split
          · simp only [goesOn, List.cons_append]; rfl
          · split <;> simp only [goesOn, List.cons_append] <;> rfl

/-- One step of the walk keeps the character, drops a space at a colon or puts one behind it. -/
theorem space_cons (st : State) (c : Char) (s : List Char) :
    st.space (c :: s) = c :: (st.step c).space s ∨
    isSpace c = true ∧ st.space (c :: s) = st.space s ∧
      (st.context = .afterColon ∨ (s.dropWhile isSpace).head? = some ':') ∨
    isSpace c = false ∧ st.context = .afterColon ∧
      st.space (c :: s) = ' ' :: c :: (st.step c).space s := by
  obtain ⟨brackets, context⟩ := st
  simp only [State.space, spaceFrom, State.step]
  split
  · rename_i hspace
    cases context with
    | lineStart => exact .inl rfl
    | inLine =>
        dsimp only
        split
        · rename_i hahead
          exact .inr (.inl ⟨hspace, rfl, .inr hahead.2⟩)
        · exact .inl rfl
    | afterColon => exact .inr (.inl ⟨hspace, rfl, .inl rfl⟩)
  · rename_i hspace
    split
    · exact .inl rfl
    · split
      · exact .inl rfl
      · split
        · rename_i hcontext
          exact .inr (.inr ⟨by simpa using hspace, hcontext, rfl⟩)
        · exact .inl rfl

theorem space_cons_of_not_isSpace (hs : isSpace c = false) (hcontext : st.context ≠ .afterColon)
    (s : List Char) : st.space (c :: s) = c :: (st.step c).space s := by
  rcases space_cons st c s with h | ⟨hspace, -⟩ | ⟨-, hafter, -⟩
  · exact h
  · rw [hs] at hspace
    cases hspace
  · exact absurd hafter hcontext

theorem space_line_feed (st : State) (s : List Char) :
    st.space ('\n' :: s) = '\n' :: (⟨st.brackets, .lineStart⟩ : State).space s := by
  simp [State.space, spaceFrom, isSpace]

/-- Spaces at the start of a line stay. -/
theorem space_indented {gap : List Char} (hgap : ∀ c ∈ gap, isSpace c = true)
    (brackets s : List Char) : (⟨brackets, .lineStart⟩ : State).space (gap ++ s) =
      gap ++ (⟨brackets, .lineStart⟩ : State).space s := by
  induction gap with
  | nil => rfl
  | cons c gap ih =>
      rw [List.forall_mem_cons] at hgap
      have ih := ih hgap.2
      simp only [State.space] at ih ⊢
      simp only [List.cons_append, spaceFrom, hgap.1, if_true, ih]

/-- Behind something other than a colon, text without colons and spaces stays. -/
theorem space_plain (hs : ∀ c ∈ s, isSpace c = false ∧ c ≠ ':')
    (hcontext : st.context ≠ .afterColon) : st.space s = s := by
  induction s generalizing st with
  | nil => rfl
  | cons c s ih =>
      rw [List.forall_mem_cons] at hs
      rw [space_cons_of_not_isSpace hs.1.1 hcontext, ih hs.2]
      simp only [State.step, hs.1, Bool.false_eq_true, if_false, false_and]
      split <;> simp

/-- A space and what follows it stay if neither is a colon's. -/
theorem space_spaced (hc : isSpace c = false) (hcolon : c ≠ ':')
    (hs : ∀ d ∈ s, isSpace d = false ∧ d ≠ ':') (hline : c ≠ '\n') (st : State) :
    st.space (' ' :: c :: s) = ' ' :: c :: s := by
  obtain ⟨brackets, context⟩ := st
  have hspace : isSpace ' ' = true := rfl
  have behind : (⟨pushBracket c brackets, .inLine⟩ : State).space s = s :=
    space_plain hs (by simp)
  cases context with
  | lineStart =>
      simp only [State.space, spaceFrom, hspace, hc, hcolon, hline, if_true, Bool.false_eq_true,
        if_false, false_and, reduceCtorEq] at behind ⊢
      rw [behind]
  | inLine =>
      simp only [State.space, spaceFrom, hspace, hc, hcolon, hline, if_true, Bool.false_eq_true,
        if_false, false_and, reduceCtorEq, List.dropWhile_cons, List.head?_cons,
        Option.some.injEq, and_false] at behind ⊢
      rw [behind]
  | afterColon =>
      simp only [State.space, spaceFrom, hspace, hc, hcolon, hline, if_true, Bool.false_eq_true,
        if_false, false_and] at behind ⊢
      rw [behind]

/-- The walk adds no character but spaces. -/
theorem mem_space (h : c ∈ st.space s) : c ∈ s ∨ c = ' ' := by
  induction s generalizing st with
  | nil => simp [State.space, spaceFrom] at h
  | cons d s ih =>
      rcases space_cons st d s with heq | ⟨-, heq, -⟩ | ⟨-, -, heq⟩ <;> rw [heq] at h
      · rcases List.mem_cons.1 h with rfl | h
        · exact .inl List.mem_cons_self
        · exact (ih h).imp_left (List.mem_cons_of_mem d)
      · exact (ih h).imp_left (List.mem_cons_of_mem d)
      · rcases List.mem_cons.1 h with rfl | h
        · exact .inr rfl
        · rcases List.mem_cons.1 h with rfl | h
          · exact .inl List.mem_cons_self
          · exact (ih h).imp_left (List.mem_cons_of_mem d)

/-- The first character of a line stays if it is no space. -/
theorem head?_space (hs : s.head? = some c) (hc : isSpace c = false) (brackets : List Char) :
    ((⟨brackets, .lineStart⟩ : State).space s).head? = some c := by
  cases s with
  | nil => cases hs
  | cons d s =>
      rw [List.head?_cons, Option.some.injEq] at hs
      rw [hs, space_cons_of_not_isSpace hc (by simp)]
      rfl

/-- The last character stays if it is no space. -/
theorem getLast?_space (hs : s.getLast? = some c) (hc : isSpace c = false) :
    (st.space s).getLast? = some c := by
  induction s generalizing st with
  | nil => simp at hs
  | cons d s ih =>
      cases s with
      | nil =>
          simp only [List.getLast?_singleton, Option.some.injEq] at hs
          subst hs
          rcases space_cons st d [] with heq | ⟨hspace, -⟩ | ⟨-, -, heq⟩
          · rw [heq]
            rfl
          · simp [hc] at hspace
          · rw [heq]
            rfl
      | cons e s =>
          rw [List.getLast?_cons_cons] at hs
          rcases space_cons st d (e :: s) with heq | ⟨-, heq, -⟩ | ⟨-, -, heq⟩
          · simp [heq, List.getLast?_cons, ih hs]
          · rw [heq]
            exact ih hs
          · simp [heq, List.getLast?_cons, ih hs]

variable {v : View}

theorem continues_of_colon_ahead (hv : v.glued ':' = false)
    (h : (s.dropWhile isSpace).head? = some ':') : v.continues s = false := by
  cases s with
  | nil => rfl
  | cons c s =>
      cases hc : isSpace c with
      | true => exact View.continues_blank (isBlank_of_isSpace hc) s
      | false =>
          rw [List.dropWhile_cons_of_neg (by simp [hc]), List.head?_cons, Option.some.injEq] at h
          rw [h]
          exact hv

/-- Where no colon stands before the text, what a token before it sees stays the same, too. -/
theorem same_space (hv : v.glued ':' = false) (st : State) (s : List Char) :
    v.tokens (st.space s) = v.tokens s ∧
      (st.context ≠ .afterColon → v.Same (st.space s) s) := by
  induction s generalizing st with
  | nil => exact ⟨rfl, fun _ => .refl []⟩
  | cons c s ih =>
      have kept : v.Same (c :: (st.step c).space s) (c :: s) := by
        cases hc : v.glued c with
        | false => exact View.Same.cons_loose hc (ih (st.step c)).1
        | true =>
            refine ((ih (st.step c)).2 ?_).cons c
            have hspace : isSpace c = false := by
              cases hs : isSpace c with
              | false => rfl
              | true => rw [v.glued_blank c (isBlank_of_isSpace hs)] at hc; cases hc
            have hcolon : c ≠ ':' := by
              rintro rfl
              rw [hv] at hc
              cases hc
            simp only [State.step, hspace, hcolon, false_and, Bool.false_eq_true, if_false]
            split <;> simp
      rcases space_cons st c s with heq | ⟨hspace, heq, hahead⟩ | ⟨-, hafter, heq⟩ <;> rw [heq]
      · exact ⟨kept.1, fun _ => kept⟩
      · have hblank := isBlank_of_isSpace hspace
        have htokens : v.tokens (st.space s) = v.tokens (c :: s) :=
          (ih st).1.trans (View.tokens_blank hblank s).symm
        refine ⟨htokens, fun hcontext => ⟨htokens, ?_⟩⟩
        rw [((ih st).2 hcontext).2, View.continues_blank hblank,
          continues_of_colon_ahead hv (hahead.resolve_left hcontext)]
      · exact ⟨(View.tokens_blank rfl _).trans kept.1, fun hcontext => absurd hafter hcontext⟩

theorem tokens_space (hv : v.glued ':' = false) (st : State) (s : List Char) :
    v.tokens (st.space s) = v.tokens s :=
  (same_space hv st s).1

/-- Writes the colons of maps line by line, with the brackets that are open before each line. -/
def spaceLines (brackets : List Char) : List (List Char) → List (List Char)
  | [] => []
  | l :: ls =>
    let start : State := ⟨brackets, .lineStart⟩
    start.space l :: spaceLines (start.after l).brackets ls

theorem length_spaceLines (brackets : List Char) (ls : List (List Char)) :
    (spaceLines brackets ls).length = ls.length := by
  induction ls generalizing brackets with
  | nil => rfl
  | cons l ls ih => simp [spaceLines, ih]

theorem space_unlines (brackets : List Char) (ls : List (List Char)) :
    (⟨brackets, .lineStart⟩ : State).space (Text.unlines ls) =
      Text.unlines (spaceLines brackets ls) := by
  induction ls generalizing brackets with
  | nil => rfl
  | cons l ls ih =>
      cases ls with
      | nil => rfl
      | cons m ls =>
          have hfeed : Uncolon ('\n' :: Text.unlines (m :: ls)) := by simp [Uncolon, isSpace]
          rw [Text.unlines_cons l (List.cons_ne_nil m ls), space_append hfeed, space_line_feed, ih]
          exact (Text.unlines_cons _ (List.cons_ne_nil _ _)).symm

theorem after_append (st : State) (s t : List Char) : st.after (s ++ t) = (st.after s).after t :=
  List.foldl_append

theorem after_spaces {gap : List Char} (hgap : ∀ c ∈ gap, isSpace c = true) (st : State) :
    st.after gap = st := by
  induction gap with
  | nil => rfl
  | cons c gap ih =>
      rw [List.forall_mem_cons] at hgap
      rw [State.after, List.foldl_cons, State.step, if_pos hgap.1]
      exact ih hgap.2

/-- Only brackets change which brackets are open. -/
theorem brackets_after (hs : ∀ c ∈ s, Lexical.isBracket c = false) (st : State) :
    (st.after s).brackets = st.brackets := by
  induction s generalizing st with
  | nil => rfl
  | cons c s ih =>
      rw [List.forall_mem_cons] at hs
      have hstep : (st.step c).brackets = st.brackets := by
        have hc := hs.1
        simp only [Lexical.isBracket, Bool.or_eq_false_iff] at hc
        simp only [State.step, pushBracket, hc.1, hc.2, Bool.false_eq_true, if_false]
        split_ifs <;> rfl
      rw [State.after, List.foldl_cons]
      exact (ih hs.2 (st.step c)).trans hstep

end MapColon
end MiniScriptLayout
