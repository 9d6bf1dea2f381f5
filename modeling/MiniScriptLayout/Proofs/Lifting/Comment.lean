import MiniScriptLayout.CodeLine
import MiniScriptLayout.Lifting.Comment
import MiniScriptLayout.Proofs.Lifting.Marker
import MiniScriptLayout.Proofs.Token.Apart

/-!
Where a comment begins. A line is cut at its first `//`: the code before it holds no pair of slashes
and does not end in a slash. Breaking a line into code and comment cuts it at the same place, and
markers of comments are found nowhere else.
-/

namespace MiniScriptLayout
namespace Text

/-- The code of a comment: a `//` right behind it is the first one. -/
def OpensComment (code : List Char) : Prop :=
  SlashesApart (code ++ ['/'])

theorem OpensComment.slashesApart {code : List Char} (h : OpensComment code) :
    SlashesApart code :=
  SlashesApart.left h

theorem opensComment_nil : OpensComment [] :=
  List.isChain_singleton '/'

theorem SlashesApart.opensComment {code : List Char} (h : SlashesApart code)
    (hlast : code.getLast? ≠ some '/') : OpensComment code :=
  h.append (List.isChain_singleton '/') (.inl hlast)

end Text

namespace Comment

open Text

theorem cut_of_slashesApart {s : List Char} (h : SlashesApart s) : cut s = (s, none) := by
  fun_induction cut s with
  | case1 => rfl
  | case2 c => rfl
  | case3 c d r hc =>
      obtain ⟨rfl, rfl⟩ := hc
      exact absurd ⟨r, rfl⟩ h.not_pair
  | case4 c d r _ code body heq ih =>
      have ih := ih h.tail
      rw [heq] at ih
      cases ih
      rfl

theorem cut_append {code : List Char} (h : OpensComment code) (rest : List Char) :
    cut (code ++ '/' :: '/' :: rest) = (code, some rest) := by
  induction code with
  | nil => simp [cut]
  | cons c code ih =>
      have ih := ih h.tail
      cases code with
      | nil =>
          have hc : c ≠ '/' := by
            rintro rfl
            exact absurd ⟨[], rfl⟩ h.not_pair
          simp only [List.nil_append] at ih
          simp [cut, hc]
      | cons d code =>
          have hcd : ¬ (c = '/' ∧ d = '/') := by
            rintro ⟨rfl, rfl⟩
            exact absurd ⟨code ++ ['/'], rfl⟩ h.not_pair
          simp only [List.cons_append] at ih ⊢
          rw [cut, if_neg hcd, ih]

theorem cut_eq_none {s code : List Char} (h : cut s = (code, none)) :
    code = s ∧ SlashesApart s := by
  fun_induction cut s generalizing code with
  | case1 =>
      cases h
      exact ⟨rfl, List.isChain_nil⟩
  | case2 c =>
      cases h
      exact ⟨rfl, List.isChain_singleton c⟩
  | case3 c d r _ => cases h
  | case4 c d r hcd code' body heq ih =>
      cases h
      obtain ⟨rfl, hr⟩ := ih heq
      refine ⟨rfl, ?_⟩
      rw [SlashesApart, apart_cons]
      refine ⟨?_, hr⟩
      simpa using hcd

theorem cut_eq_some {s code rest : List Char} (h : cut s = (code, some rest)) :
    s = code ++ '/' :: '/' :: rest ∧ OpensComment code := by
  fun_induction cut s generalizing code with
  | case1 => cases h
  | case2 c => cases h
  | case3 c d r hcd =>
      cases h
      exact ⟨by rw [hcd.1, hcd.2]; rfl, opensComment_nil⟩
  | case4 c d r hcd code' body heq ih =>
      cases h
      obtain ⟨hs, hopen⟩ := ih heq
      refine ⟨by rw [hs]; rfl, ?_⟩
      rw [OpensComment, List.cons_append, SlashesApart, apart_cons]
      refine ⟨?_, hopen⟩
      intro e he hc
      have hd : e = d := by
        cases code' with
        | nil =>
            simp only [List.nil_append, List.cons.injEq] at hs
            simp only [List.nil_append, List.head?_cons, Option.mem_some_iff] at he
            rw [← he, hs.1]
        | cons f t =>
            simp only [List.cons_append, List.cons.injEq] at hs
            simp only [List.cons_append, List.head?_cons, Option.mem_some_iff] at he
            rw [← he, hs.1]
      simp only [decide_eq_true_eq, decide_eq_false_iff_not] at hc ⊢
      rintro rfl
      exact hcd ⟨hc, hd.symm⟩

/-- Blanks at the start belong to the code. -/
theorem cut_blanks_append {gap : List Char} (hb : ∀ c ∈ gap, isBlank c = true) (s : List Char) :
    cut (gap ++ s) = (gap ++ (cut s).1, (cut s).2) := by
  induction gap with
  | nil => rfl
  | cons c gap ih =>
      have hc : c ≠ '/' := ne_slash_of_isBlank (hb c (by simp))
      have ih := ih fun d hd => hb d (by simp [hd])
      rw [List.cons_append]
      cases hr : gap ++ s with
      | nil =>
          rw [List.append_eq_nil_iff] at hr
          rw [hr.1, hr.2]
          rfl
      | cons d r =>
          rw [hr] at ih
          simp only [cut, hc, false_and, if_false, ih, List.cons_append]

theorem cut_append_cons {front : List Char} {c : Char} (h : SlashesApart front) (hc : c ≠ '/')
    (s : List Char) : cut (front ++ c :: s) = (front ++ c :: (cut s).1, (cut s).2) := by
  cases hcut : cut s with
  | mk code body =>
      cases body with
      | none =>
          obtain ⟨rfl, hs⟩ := cut_eq_none hcut
          exact cut_of_slashesApart ((SlashesApart.append_cons_iff hc).2 ⟨h, hs⟩)
      | some rest =>
          obtain ⟨rfl, hopen⟩ := cut_eq_some hcut
          have : OpensComment (front ++ c :: code) := by
            rw [OpensComment, List.append_assoc, List.cons_append]
            exact (SlashesApart.append_cons_iff hc).2 ⟨h, hopen⟩
          simpa using cut_append this rest

/-- The line has no comment that is lifted: it has no `//`, or the first one stands behind code and
before nothing but blanks. -/
def Uncommented (line : List Char) : Prop :=
  ∀ code rest, OpensComment code → line = code ++ '/' :: '/' :: rest →
    (∀ c ∈ rest, isBlank c = true) ∧ ¬ ∀ c ∈ code, isBlank c = true

theorem ofLine?_cases (line : List Char) :
    ofLine? line = none ∧ Uncommented line ∨
      ∃ code rest, line = code ++ '/' :: '/' :: rest ∧ OpensComment code ∧
        ((∀ c ∈ rest, isBlank c = true) → ∀ c ∈ code, isBlank c = true) ∧
        ofLine? line = some (code, trimRight rest) := by
  unfold ofLine?
  cases hcut : cut line with
  | mk code body =>
      cases body with
      | none =>
          refine .inl ⟨rfl, fun code rest hopen hline => ?_⟩
          rw [hline, cut_append hopen] at hcut
          cases hcut
      | some rest =>
          obtain ⟨hline, hopen⟩ := cut_eq_some hcut
          have hbare : ((trimRight rest).isEmpty && !code.all isBlank) = true ↔
              (∀ c ∈ rest, isBlank c = true) ∧ ¬ ∀ c ∈ code, isBlank c = true := by
            rw [Bool.and_eq_true, List.isEmpty_iff, trimRight_eq_nil, Bool.not_eq_true',
              ← Bool.not_eq_true, List.all_eq_true]
          dsimp only
          split
          · rename_i h
            refine .inl ⟨rfl, fun code' rest' hopen' hline' => ?_⟩
            rw [hline', cut_append hopen', Prod.mk.injEq, Option.some.injEq] at hcut
            rw [hcut.1, hcut.2]
            exact hbare.1 h
          · rename_i h
            rw [hbare, not_and_not_right] at h
            exact .inr ⟨code, rest, hline, hopen, h, rfl⟩

end Comment

namespace CodeLine

open Text Comment

/-- The code of a line is blank only before its comment or its end. -/
theorem cut_of_all_isBlank {s : List Char} (h : ∀ c ∈ (cut s).1, isBlank c = true) :
    trimLeft s = [] ∨ ∃ rest, trimLeft s = '/' :: '/' :: rest := by
  cases hs : cut s with
  | mk code body =>
      rw [hs] at h
      cases body with
      | none =>
          rw [(cut_eq_none hs).1] at h
          exact .inl (trimLeft_eq_nil.2 h)
      | some rest =>
          right
          refine ⟨rest, ?_⟩
          rw [(cut_eq_some hs).1, trimLeft_blanks_append h]
          rfl

/-- A line whose code goes on behind a character. -/
theorem cut_cons_of_not_opened {c : Char} {r : List Char}
    (h : ¬ ∃ rest, trimLeft (c :: r) = '/' :: '/' :: rest) :
    cut (c :: r) = (c :: (cut r).1, (cut r).2) := by
  cases r with
  | nil => rfl
  | cons d r =>
      have hcd : ¬ (c = '/' ∧ d = '/') := by
        rintro ⟨rfl, rfl⟩
        exact h ⟨r, rfl⟩
      rw [cut, if_neg hcd]

theorem cut?_eq {s : List Char} (h : '\n' ∉ s) :
    cut? s = some ⟨trimRight (cut s).1, trimRight ((cut s).2.getD [])⟩ := by
  induction s with
  | nil =>
      rw [cut?]
      rfl
  | cons c r ih =>
      rw [List.mem_cons, not_or] at h
      have ih := ih h.2
      obtain ⟨gap, hb, hs⟩ := exists_blanks_trimLeft (c :: r)
      unfold cut?
      split
      · rename_i ht
        rw [ht, List.append_nil] at hs
        have hcut : cut (c :: r) = (gap, none) := by
          rw [hs, ← List.append_nil gap, cut_blanks_append hb, List.append_nil]
          simp [cut]
        rw [hcut, trimRight_eq_nil.2 hb]
        rfl
      · rename_i rest ht
        rw [ht] at hs
        have hcut : cut (c :: r) = (gap, some rest) := by
          rw [hs, cut_blanks_append hb]
          simp [cut]
        have hline : (trimRight rest).contains '\n' = false := by
          have hrest : '\n' ∉ rest := by
            intro hmem
            have : '\n' ∈ c :: r := by simp [hs, hmem]
            simp only [List.mem_cons] at this
            exact this.elim h.1 h.2
          simpa using fun hmem => hrest ((trimRight_sublist rest).subset hmem)
        simp only [hline, Bool.false_eq_true, if_false]
        rw [hcut, trimRight_eq_nil.2 hb]
        rfl
      · rename_i hnil hpair
        have hopened : ¬ ∃ rest, trimLeft (c :: r) = '/' :: '/' :: rest := by
          rintro ⟨rest, hrest⟩
          exact hpair rest hrest
        have hcut := cut_cons_of_not_opened hopened
        have hlonger : trimRight (cut (c :: r)).1 ≠ [] := by
          intro hblank
          rcases cut_of_all_isBlank (trimRight_eq_nil.1 hblank) with h | ⟨rest, h⟩
          · exact hnil h
          · exact hpair rest h
        rw [hcut] at hlonger ⊢
        rw [cut?.longer, if_neg (Ne.symm h.1), ih, Option.map_some, trimRight_cons hlonger]

/-- A line without line feeds breaks where a comment of it is cut off. -/
theorem ofText_eq {s : List Char} (h : '\n' ∉ s) :
    ofText s = ⟨trim (cut s).1, trimRight ((cut s).2.getD [])⟩ := by
  obtain ⟨gap, hb, hs⟩ := exists_blanks_trimLeft s
  have hleft : '\n' ∉ trimLeft s := by
    rw [hs] at h
    exact fun hmem => h (List.mem_append_right gap hmem)
  have hcut : cut s = (gap ++ (cut (trimLeft s)).1, (cut (trimLeft s)).2) := by
    conv => lhs; rw [hs]
    exact cut_blanks_append hb _
  have hhead : trimLeft (cut (trimLeft s)).1 = (cut (trimLeft s)).1 := by
    apply trimLeft_eq_self
    intro c hc
    apply head?_trimLeft s c
    cases ht : cut (trimLeft s) with
    | mk code body =>
        rw [ht] at hc
        cases body with
        | none => rwa [(cut_eq_none ht).1] at hc
        | some rest =>
            rw [(cut_eq_some ht).1, Option.mem_def, List.head?_append]
            simp [Option.mem_def.1 hc]
  rw [ofText, cut?_eq hleft, hcut, Option.getD_some, trim, trimLeft_blanks_append hb, hhead]

end CodeLine
end MiniScriptLayout
