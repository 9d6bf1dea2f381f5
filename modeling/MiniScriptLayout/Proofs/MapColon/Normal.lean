import Mathlib.Data.List.Induction
import MiniScriptLayout.Proofs.MapColon
import MiniScriptLayout.Proofs.Text.Places

/-!
The normal form of colons of maps. The walk is inverted once: a space is dropped or kept, and any
other character is written with or without a space before it. So the walk leaves alone what it has
written, it changes nothing but the spaces beside colons of maps, and these stand as they should.
-/

namespace MiniScriptLayout
namespace MapColon

variable {st : State} {c : Char} {s t : List Char}

namespace State

/-- The innermost open bracket is a brace. -/
def InMap (st : State) : Prop :=
  st.brackets.head? = some '\x7b'

/-- A space before this text is dropped: it stands behind a colon of a map or before one. -/
def Drops (st : State) (s : List Char) : Prop :=
  st.context = .afterColon ∨ st.context = .inLine ∧ st.InMap ∧ ¬ Uncolon s

/-- The character is written behind a colon of a map with a space between them. -/
def Parts (st : State) (c : Char) : Prop :=
  st.context = .afterColon ∧ ¬ (c = ':' ∧ st.InMap) ∧ c ≠ '\n'

end State

section Steps

theorem not_uncolon_iff : ¬ Uncolon s ↔ (s.dropWhile isSpace).head? = some ':' := by
  rw [Uncolon, Ne, not_not]

theorem uncolon_space_cons (hc : isSpace c = true) : Uncolon (c :: s) ↔ Uncolon s := by
  rw [Uncolon, Uncolon, List.dropWhile_cons_of_pos hc]

theorem uncolon_cons (hc : isSpace c = false) : Uncolon (c :: s) ↔ c ≠ ':' := by
  rw [Uncolon, List.dropWhile_cons_of_neg (by simp [hc]), List.head?_cons, Ne, Option.some.injEq]

theorem step_space (hc : isSpace c = true) (st : State) : st.step c = st := by
  rw [State.step, if_pos hc]

theorem space_dropped (hc : isSpace c = true) (h : st.Drops s) :
    st.space (c :: s) = st.space s := by
  obtain ⟨brackets, context⟩ := st
  rcases h with rfl | ⟨rfl, hmap, hcolon⟩
  · simp only [State.space, spaceFrom, hc, if_true]
  · rw [not_uncolon_iff] at hcolon
    simp only [State.InMap] at hmap
    simp only [State.space, spaceFrom, hc, hmap, hcolon, and_self, if_true]

theorem space_kept (hc : isSpace c = true) (h : ¬ st.Drops s) :
    st.space (c :: s) = c :: st.space s := by
  obtain ⟨brackets, context⟩ := st
  simp only [State.Drops, not_or, not_uncolon_iff, State.InMap] at h
  cases context with
  | lineStart => simp only [State.space, spaceFrom, hc, if_true]
  | inLine =>
      have hkeep : ¬ (brackets.head? = some '\x7b' ∧ (s.dropWhile isSpace).head? = some ':') :=
        fun hdrop => h.2 ⟨rfl, hdrop⟩
      simp only [State.space, spaceFrom, hc, hkeep, if_true, if_false]
  | afterColon => exact absurd rfl h.1

theorem space_parted (hc : isSpace c = false) (h : st.Parts c) :
    st.space (c :: s) = ' ' :: c :: (st.step c).space s := by
  obtain ⟨brackets, context⟩ := st
  obtain ⟨rfl, hcolon, hfeed⟩ := h
  simp only [State.InMap] at hcolon
  simp only [State.space, State.step, spaceFrom, hc, hcolon, hfeed, if_true, if_false,
    Bool.false_eq_true]

theorem space_written (hc : isSpace c = false) (h : ¬ st.Parts c) :
    st.space (c :: s) = c :: (st.step c).space s := by
  obtain ⟨brackets, context⟩ := st
  simp only [State.Parts, State.InMap] at h
  simp only [State.space, State.step, spaceFrom, hc, Bool.false_eq_true, if_false]
  split
  · rfl
  · split
    · rfl
    · split
      · rename_i hcolon hfeed hafter
        exact absurd ⟨hafter, hcolon, hfeed⟩ h
      · rfl

end Steps

section Idempotence

/-- The walk keeps the first character that is no space. -/
theorem uncolon_space (st : State) (s : List Char) : Uncolon (st.space s) ↔ Uncolon s := by
  induction s generalizing st with
  | nil => rfl
  | cons c s ih =>
      cases hc : isSpace c with
      | true =>
          by_cases hdrop : st.Drops s
          · rw [space_dropped hc hdrop, ih, uncolon_space_cons hc]
          · rw [space_kept hc hdrop, uncolon_space_cons hc, ih, uncolon_space_cons hc]
      | false =>
          by_cases hpart : st.Parts c
          · rw [space_parted hc hpart, uncolon_space_cons rfl, uncolon_cons hc, uncolon_cons hc]
          · rw [space_written hc hpart, uncolon_cons hc, uncolon_cons hc]

theorem drops_space (st : State) (s : List Char) : st.Drops (st.space s) ↔ st.Drops s := by
  rw [State.Drops, State.Drops, uncolon_space]

theorem space_space (st : State) (s : List Char) : st.space (st.space s) = st.space s := by
  induction s generalizing st with
  | nil => rfl
  | cons c s ih =>
      cases hc : isSpace c with
      | true =>
          by_cases hdrop : st.Drops s
          · rw [space_dropped hc hdrop, ih]
          · rw [space_kept hc hdrop, space_kept hc (mt (drops_space st s).1 hdrop), ih]
      | false =>
          by_cases hpart : st.Parts c
          · rw [space_parted hc hpart, space_dropped rfl (.inl hpart.1), space_parted hc hpart, ih]
          · rw [space_written hc hpart, space_written hc hpart, ih]

end Idempotence

section Agreement

/-- Two texts behind the given open brackets that differ only in the spaces right before and right
behind the colons of maps. -/
inductive Agree : List Char → List Char → List Char → Prop
  | nil (brackets : List Char) : Agree brackets [] []
  | char {brackets s t : List Char} (c : Char) (h : Agree (pushBracket c brackets) s t) :
      Agree brackets (c :: s) (c :: t)
  | colon {brackets s t before before' behind behind' : List Char}
      (hmap : brackets.head? = some '\x7b')
      (hspace : ∀ c ∈ before ++ behind, isSpace c = true)
      (hspace' : ∀ c ∈ before' ++ behind', isSpace c = true) (h : Agree brackets s t) :
      Agree brackets (before ++ ':' :: (behind ++ s)) (before' ++ ':' :: (behind' ++ t))

theorem pushBracket_of_isSpace (hc : isSpace c = true) (brackets : List Char) :
    pushBracket c brackets = brackets := by
  simp only [isSpace, Bool.or_eq_true, decide_eq_true_eq] at hc
  rcases hc with rfl | rfl <;> rfl

theorem brackets_step (st : State) (c : Char) :
    (st.step c).brackets = pushBracket c st.brackets := by
  rw [State.step]
  split
  · rename_i hc
    exact (pushBracket_of_isSpace hc st.brackets).symm
  · split
    · rename_i hcolon
      rw [hcolon.1]
      rfl
    · split
      · rename_i hfeed
        rw [hfeed]
        rfl
      · rfl

theorem not_parts (h : st.context ≠ .afterColon) (c : Char) : ¬ st.Parts c :=
  fun hpart => h hpart.1

theorem step_colon (hmap : st.InMap) : st.step ':' = ⟨st.brackets, .afterColon⟩ := by
  have hcolon : isSpace ':' = false := rfl
  rw [State.step, if_neg (by simp [hcolon]), if_pos ⟨rfl, hmap⟩]

theorem context_step (hc : isSpace c = false) (hcolon : ¬ (c = ':' ∧ st.InMap)) :
    (st.step c).context ≠ .afterColon := by
  simp only [State.InMap] at hcolon
  simp only [State.step, hc, hcolon, Bool.false_eq_true, if_false]
  split <;> simp

/-- Behind a colon of a map the walk goes on as anywhere in a line, but for the spaces there. -/
theorem exists_behind (brackets s : List Char) : ∃ gap gap' r, s = gap ++ r ∧
    (∀ c ∈ gap, isSpace c = true) ∧ (∀ c ∈ gap', isSpace c = true) ∧
      (⟨brackets, .afterColon⟩ : State).space s =
        gap' ++ (⟨brackets, .inLine⟩ : State).space r := by
  induction s with
  | nil => exact ⟨[], [], [], rfl, by simp, by simp, rfl⟩
  | cons c s ih =>
      cases hc : isSpace c with
      | true =>
          obtain ⟨gap, gap', r, rfl, hgap, hgap', heq⟩ := ih
          refine ⟨c :: gap, gap', r, rfl, List.forall_mem_cons.2 ⟨hc, hgap⟩, hgap', ?_⟩
          rw [space_dropped hc (.inl rfl), heq]
      | false =>
          have hwritten : (⟨brackets, .inLine⟩ : State).space (c :: s) =
              c :: ((⟨brackets, .afterColon⟩ : State).step c).space s := by
            rw [space_written hc (not_parts (by simp) c)]
            simp only [State.step, hc, Bool.false_eq_true, if_false]
          by_cases hpart : (⟨brackets, .afterColon⟩ : State).Parts c
          · refine ⟨[], [' '], c :: s, rfl, by simp, List.forall_mem_singleton.2 rfl, ?_⟩
            rw [space_parted hc hpart, hwritten]
            rfl
          · refine ⟨[], [], c :: s, rfl, by simp, by simp, ?_⟩
            rw [space_written hc hpart, hwritten]
            rfl

/-- Before a colon of a map all spaces of the line are dropped. -/
theorem space_before_colon (hline : st.context = .inLine) (hmap : st.InMap) {gap : List Char}
    (hgap : ∀ c ∈ gap, isSpace c = true) (r : List Char) :
    st.space (gap ++ ':' :: r) = ':' :: (⟨st.brackets, .afterColon⟩ : State).space r := by
  induction gap with
  | nil =>
      have hcontext : st.context ≠ .afterColon := by simp [hline]
      rw [List.nil_append, space_written rfl (not_parts hcontext ':'), step_colon hmap]
  | cons c gap ih =>
      rw [List.forall_mem_cons] at hgap
      have hcolon : ¬ Uncolon (gap ++ ':' :: r) := by
        rw [not_uncolon_iff, List.dropWhile_append_of_pos hgap.2]
        rfl
      rw [List.cons_append, space_dropped hgap.1 (.inr ⟨hline, hmap, hcolon⟩), ih hgap.2]

theorem exists_gap_colon (h : ¬ Uncolon s) :
    ∃ gap r, s = gap ++ ':' :: r ∧ ∀ c ∈ gap, isSpace c = true := by
  rw [not_uncolon_iff] at h
  obtain ⟨r, hr⟩ := List.head?_eq_some_iff.1 h
  refine ⟨s.takeWhile isSpace, r, ?_, fun c hc => List.mem_takeWhile_imp hc⟩
  rw [← hr, List.takeWhile_append_dropWhile]

theorem agree_colon (hmap : st.InMap) (gap gap' : List Char) (hgap : ∀ c ∈ gap, isSpace c = true)
    (hgap' : ∀ c ∈ gap', isSpace c = true) (s : List Char)
    (h : ∀ r, r.length ≤ s.length →
      Agree st.brackets r ((⟨st.brackets, .inLine⟩ : State).space r)) :
    Agree st.brackets (gap ++ ':' :: s)
      (gap' ++ ':' :: (⟨st.brackets, .afterColon⟩ : State).space s) := by
  obtain ⟨behind, behind', r, rfl, hbehind, hbehind', heq⟩ := exists_behind st.brackets s
  rw [heq]
  exact .colon hmap (List.forall_mem_append.2 ⟨hgap, hbehind⟩)
    (List.forall_mem_append.2 ⟨hgap', hbehind'⟩) (h r (by simp))

/-- The walk agrees with the text. The induction jumps over the spaces beside colons of maps. -/
theorem agree_space (st : State) (hcontext : st.context ≠ .afterColon) (s : List Char) :
    Agree st.brackets s (st.space s) := by
  match s with
  | [] => exact .nil _
  | c :: r =>
    have hinLine : ∀ t : List Char, t.length ≤ r.length →
        Agree st.brackets t ((⟨st.brackets, .inLine⟩ : State).space t) :=
      fun t ht => agree_space ⟨st.brackets, .inLine⟩ (by simp) t
    cases hc : isSpace c with
    | true =>
        by_cases hdrop : st.Drops r
        · obtain ⟨hline, hmap, hcolon⟩ := hdrop.resolve_left hcontext
          obtain ⟨gap, t, rfl, hgap⟩ := exists_gap_colon hcolon
          rw [space_dropped hc hdrop, space_before_colon hline hmap hgap]
          refine agree_colon hmap (c :: gap) [] ?_ (by simp) t fun u hu => ?_
          · exact List.forall_mem_cons.2 ⟨hc, hgap⟩
          · refine hinLine u (Nat.le_trans hu ?_)
            simp only [List.length_append, List.length_cons]
            omega
        · rw [space_kept hc hdrop]
          refine .char c ?_
          rw [pushBracket_of_isSpace hc]
          exact agree_space st hcontext r
    | false =>
        rw [space_written hc (not_parts hcontext c)]
        by_cases hcolon : c = ':' ∧ st.InMap
        · obtain ⟨rfl, hmap⟩ := hcolon
          rw [step_colon hmap]
          exact agree_colon hmap [] [] (by simp) (by simp) r hinLine
        · refine .char c ?_
          rw [← brackets_step]
          exact agree_space (st.step c) (context_step hc hcolon) r
termination_by s.length

end Agreement

section Shape

/-- The brackets that are open behind a text, innermost first. Any closer closes the innermost. -/
def openBrackets (s : List Char) : List Char :=
  s.foldl (fun brackets c => pushBracket c brackets) []

/-- No space stands right before the place, unless only spaces stand before it in its line. -/
def Uncrowded (before : List Char) : Prop :=
  (∀ c ∈ before.getLast?, isSpace c = false) ∨
    ∃ x gap, before = x ++ gap ∧ (∀ c ∈ gap, isSpace c = true) ∧ ∀ c ∈ x.getLast?, c = '\n'

/-- The text goes on with its end, a line feed, another colon, or one space and a character. -/
def Followed (after : List Char) : Prop :=
  after = [] ∨ after.head? = some '\n' ∨ after.head? = some ':' ∨
    ∃ c r, after = ' ' :: c :: r ∧ isSpace c = false ∧ c ≠ '\n'

/-- At this place a colon of a map would be written as it should be. -/
def Formed (before after : List Char) : Prop :=
  (openBrackets before).head? = some '\x7b' → Uncrowded before ∧ Followed after

/-- Before anything is read. -/
def State.start : State :=
  ⟨[], .lineStart⟩

theorem brackets_after_start (s : List Char) : (State.start.after s).brackets = openBrackets s := by
  have hfold : ∀ (s : List Char) (st : State), (st.after s).brackets =
      s.foldl (fun brackets c => pushBracket c brackets) st.brackets := by
    intro s
    induction s with
    | nil => exact fun _ => rfl
    | cons c s ih =>
        intro st
        rw [State.after, List.foldl_cons, List.foldl_cons, ← brackets_step]
        exact ih (st.step c)
  exact hfold s State.start

theorem after_concat (st : State) (s : List Char) (c : Char) :
    st.after (s ++ [c]) = (st.after s).step c :=
  after_append st s [c]

theorem exists_indentation {before : List Char}
    (h : (State.start.after before).context = .lineStart) :
    ∃ x gap, before = x ++ gap ∧ (∀ c ∈ gap, isSpace c = true) ∧ ∀ c ∈ x.getLast?, c = '\n' := by
  induction before using List.reverseRecOn with
  | nil => exact ⟨[], [], rfl, by simp, by simp⟩
  | append_singleton before c ih =>
      rw [after_concat] at h
      cases hc : isSpace c with
      | true =>
          rw [step_space hc] at h
          obtain ⟨x, gap, rfl, hgap, hx⟩ := ih h
          refine ⟨x, gap ++ [c], List.append_assoc x gap [c], ?_, hx⟩
          exact List.forall_mem_append.2 ⟨hgap, List.forall_mem_singleton.2 hc⟩
      | false =>
          simp only [State.step, hc, Bool.false_eq_true, if_false] at h
          split at h
          · cases h
          · split at h
            · rename_i hfeed
              exact ⟨before ++ [c], [], by simp, by simp, by simp [hfeed]⟩
            · cases h

theorem followed_space (brackets s : List Char) :
    Followed ((⟨brackets, .afterColon⟩ : State).space s) := by
  induction s with
  | nil => exact .inl rfl
  | cons c s ih =>
      cases hc : isSpace c with
      | true =>
          rw [space_dropped hc (.inl rfl)]
          exact ih
      | false =>
          by_cases hpart : (⟨brackets, .afterColon⟩ : State).Parts c
          · rw [space_parted hc hpart]
            exact .inr (.inr (.inr ⟨c, _, rfl, hc, hpart.2.2⟩))
          · rw [space_written hc hpart]
            by_cases hfeed : c = '\n'
            · exact .inr (.inl (by rw [hfeed]; rfl))
            · have hcolon : c = ':' := by
                by_contra hne
                exact hpart ⟨rfl, fun h => hne h.1, hfeed⟩
              exact .inr (.inr (.inl (by rw [hcolon]; rfl)))

theorem drops_cons (hc : isSpace c = true) : st.Drops (c :: s) ↔ st.Drops s := by
  rw [State.Drops, State.Drops, uncolon_space_cons hc]

theorem uncrowded_before_colon {before : List Char} (hmap : (State.start.after before).InMap)
    (hlast : ∀ d ∈ before.getLast?, isSpace d = true →
      ¬ (State.start.after before).Drops (':' :: s)) : Uncrowded before := by
  by_cases hspace : ∃ d ∈ before.getLast?, isSpace d = true
  · obtain ⟨d, hd, hspace⟩ := hspace
    have hkept := hlast d hd hspace
    refine .inr (exists_indentation ?_)
    cases hcontext : (State.start.after before).context with
    | lineStart => rfl
    | inLine => exact absurd (.inr ⟨hcontext, hmap, fun h => h rfl⟩) hkept
    | afterColon => exact absurd (.inl hcontext) hkept
  · exact .inl fun d hd => Bool.eq_false_iff.2 fun h => hspace ⟨d, hd, h⟩

/-- The walk forms every colon of a map. What it has written ends in a space only if the space is to
stay before what comes. -/
theorem atEach_space (before s : List Char)
    (hlast : ∀ d ∈ before.getLast?, isSpace d = true → ¬ (State.start.after before).Drops s) :
    Text.AtEach ':' Formed before ((State.start.after before).space s) := by
  induction s generalizing before with
  | nil => exact Text.atEach_nil
  | cons c s ih =>
      have hnext : ∀ x : List Char, isSpace c = false → ∀ d ∈ (x ++ [c]).getLast?,
          isSpace d = true → ¬ (State.start.after (x ++ [c])).Drops s := by
        intro x hc d hd hspace
        rw [List.getLast?_concat, Option.mem_some_iff] at hd
        rw [← hd, hc] at hspace
        cases hspace
      cases hc : isSpace c with
      | true =>
          have hne : c ≠ ':' := by
            rintro rfl
            cases hc
          by_cases hdrop : (State.start.after before).Drops s
          · rw [space_dropped hc hdrop]
            refine ih before fun d hd hspace => ?_
            exact absurd ((drops_cons hc).2 hdrop) (hlast d hd hspace)
          · have hstate : State.start.after (before ++ [c]) = State.start.after before := by
              rw [after_concat, step_space hc]
            rw [space_kept hc hdrop, Text.atEach_cons_of_ne hne, ← hstate]
            exact ih _ fun _ _ _ => by rwa [hstate]
      | false =>
          by_cases hpart : (State.start.after before).Parts c
          · have hstate : State.start.after (before ++ [' ']) = State.start.after before := by
              rw [after_concat, step_space rfl]
            rw [space_parted hc hpart, Text.atEach_cons_of_ne (by decide), Text.atEach_cons,
              ← hstate, ← after_concat]
            refine ⟨fun hcolon hmap => ?_, ih _ (hnext _ hc)⟩
            rw [← brackets_after_start, hstate] at hmap
            exact absurd ⟨hcolon, hmap⟩ hpart.2.1
          · rw [space_written hc hpart, Text.atEach_cons]
            refine ⟨?_, ?_⟩
            · rintro rfl hmap
              rw [← brackets_after_start] at hmap
              rw [step_colon hmap]
              exact ⟨uncrowded_before_colon hmap hlast, followed_space _ s⟩
            · rw [← after_concat]
              exact ih _ (hnext _ hc)

end Shape

/-- Spacing the colons of maps a second time changes nothing, and a first time nothing but the
spaces beside them; then each has a space neither before it, but for an indentation, nor more than
one behind it. -/
theorem space_normal (s : List Char) :
    space (space s) = space s ∧ Agree [] s (space s) ∧
      ∀ before after, space s = before ++ ':' :: after →
        (openBrackets before).head? = some '\x7b' → Uncrowded before ∧ Followed after := by
  refine ⟨space_space State.start s, agree_space State.start (by simp [State.start]) s, ?_⟩
  intro before after hsplit
  exact atEach_space [] s (by simp) before after hsplit

/-- The colon of a slice in a map keeps its spaces. -/
theorem space_normal_slice :
    space "\x7ba [1 : 2] :: b\x7d".toList = "\x7ba [1 : 2]:: b\x7d".toList ∧
      Uncrowded "\x7ba [1 : 2]:".toList ∧ Followed " b\x7d".toList := by
  have hspace : space "\x7ba [1 : 2] :: b\x7d".toList = "\x7ba [1 : 2]:: b\x7d".toList := by
    decide
  exact ⟨hspace, (space_normal _).2.2 "\x7ba [1 : 2]:".toList _ hspace (by decide)⟩

end MapColon
end MiniScriptLayout
