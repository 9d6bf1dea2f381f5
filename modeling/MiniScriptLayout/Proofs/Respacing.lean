import Mathlib.Logic.Relation
import MiniScriptLayout.Options
import MiniScriptLayout.Proofs.Rows.Entry

/-!
Two texts that differ in their spacing alone are laid out alike. Blanks may come and go at the start
and at the end of a line; inside a line, where some blanks stand, others may stand as well. Literals
and the bodies of comments keep their blanks.
-/

namespace MiniScriptLayout

namespace Text

/-- A text goes on in the line that it ends in. -/
theorem lines_append (s t : List Char) :
    ∃ first rest, lines t = first :: rest ∧ ∀ gap, '\n' ∉ gap →
      lines (s ++ (gap ++ t)) =
        (lines s).dropLast ++ ((lines s).getLast (lines_ne_nil s) ++ (gap ++ first)) :: rest := by
  obtain ⟨first, rest, hlines⟩ := List.exists_cons_of_ne_nil (lines_ne_nil t)
  refine ⟨first, rest, hlines, fun gap hgap => ?_⟩
  have hlast : '\n' ∉ (lines s).getLast (lines_ne_nil s) :=
    not_mem_lines s _ (List.getLast_mem _)
  have hsplit := List.dropLast_append_getLast (lines_ne_nil s)
  generalize (lines s).getLast (lines_ne_nil s) = last at hlast hsplit
  have hline : lines (last ++ (gap ++ t)) = (last ++ (gap ++ first)) :: rest :=
    split_append hlast (split_append hgap hlines)
  have hs : s = unlines ((lines s).dropLast ++ [last]) := by rw [hsplit, unlines_lines]
  by_cases hnil : (lines s).dropLast = []
  · rw [hnil] at hs
    rw [hnil, hs]
    exact hline
  · have hinit : ∀ l ∈ (lines s).dropLast, '\n' ∉ l := fun l hl =>
      not_mem_lines s l (List.dropLast_subset _ hl)
    rw [unlines_append hnil (by simp)] at hs
    have hfront : s ++ (gap ++ t) =
        unlines (lines s).dropLast ++ '\n' :: (last ++ (gap ++ t)) := by
      conv => lhs; rw [hs]
      simp [unlines, join]
    rw [hfront, lines_line, lines_unlines hnil hinit, hline]

end Text

open Text

namespace Layout

/-- A text is laid out by its literals and the gists of its lines. -/
theorem layOut_congr {text text' : List Char}
    (htable : (Literal.lift text).table = (Literal.lift text').table)
    (h : (Text.lines (Literal.lift text).text).map Comment.gist =
      (Text.lines (Literal.lift text').text).map Comment.gist) (u : Indentation.Units) :
    layOut u text = layOut u text' := by
  refine layOut_entries htable (congrArg Entry.trimAll ?_) u
  have hentries := congrArg (List.flatMap Entry.entries) h
  rwa [List.flatMap_map, List.flatMap_map] at hentries

end Layout

/-- No literal is open behind the text. -/
def Literal.Ended (before : List Char) : Prop :=
  ∀ l ∈ (lift before).table, Closed l

/-- The line that a text ends in, with its literals lifted. -/
def lineSoFar (before : List Char) : List Char :=
  (lines (Literal.lift before).text).getLast (lines_ne_nil _)

/-- One gap of a text is replaced by another. Gaps are blanks of one line, as spaces and tabs are.
At the start and at the end of a line they may be empty; elsewhere no comment is open before them.
-/
inductive Respaced : List Char → List Char → Prop
  | start {before gap gap' after : List Char} :
      Literal.Ended before → (∀ c ∈ before.getLast?, c = '\n') →
      (∀ c ∈ gap, isInlineBlank c = true) → (∀ c ∈ gap', isInlineBlank c = true) →
      Respaced (before ++ (gap ++ after)) (before ++ (gap' ++ after))
  | stop {before gap gap' after : List Char} :
      Literal.Ended before → (∀ c ∈ after.head?, c = '\n') →
      (∀ c ∈ gap, isInlineBlank c = true) → (∀ c ∈ gap', isInlineBlank c = true) →
      Respaced (before ++ (gap ++ after)) (before ++ (gap' ++ after))
  | inside {before gap gap' after : List Char} :
      Literal.Ended before → (Comment.cut (lineSoFar before)).2 = none → gap ≠ [] → gap' ≠ [] →
      (∀ c ∈ gap, isInlineBlank c = true) → (∀ c ∈ gap', isInlineBlank c = true) →
      Respaced (before ++ (gap ++ after)) (before ++ (gap' ++ after))

variable {before gap gap' after text text' : List Char}

namespace Respaced

/-- Literals are lifted on both sides of a gap. -/
theorem lift_gap (h : Literal.Ended before) (hgap : ∀ c ∈ gap, isInlineBlank c = true)
    (hquotes : before.getLast? = some '"' → (gap ++ after).head? ≠ some '"') :
    Literal.lift (before ++ (gap ++ after)) =
      ⟨(Literal.lift before).text ++
          (gap ++ (Literal.liftFrom (Literal.lift before).table.length after).text),
        (Literal.lift before).table ++
          (Literal.liftFrom (Literal.lift before).table.length after).table⟩ := by
  have hlift := Literal.liftFrom_append h hquotes
  rw [Literal.liftFrom_plain_append _ (not_mem_gap hgap rfl), Nat.zero_add] at hlift
  exact hlift

/-- It is enough to look at the line of the gap. -/
theorem layOut_gap (h : Literal.Ended before)
    (hgap : ∀ c ∈ gap, isInlineBlank c = true) (hgap' : ∀ c ∈ gap', isInlineBlank c = true)
    (hquotes : before.getLast? = some '"' → (gap ++ after).head? ≠ some '"')
    (hquotes' : before.getLast? = some '"' → (gap' ++ after).head? ≠ some '"')
    (hline : ∀ first ∈
        (lines (Literal.liftFrom (Literal.lift before).table.length after).text).head?,
      Comment.gist (lineSoFar before ++ (gap ++ first)) =
        Comment.gist (lineSoFar before ++ (gap' ++ first))) (u : Indentation.Units) :
    layOut u (before ++ (gap ++ after)) = layOut u (before ++ (gap' ++ after)) := by
  have hlift := lift_gap h hgap hquotes
  have hlift' := lift_gap h hgap' hquotes'
  refine Layout.layOut_congr (by rw [hlift, hlift']) ?_ u
  obtain ⟨first, rest, hlines, hseam⟩ := lines_append (Literal.lift before).text
    (Literal.liftFrom (Literal.lift before).table.length after).text
  rw [hlift, hlift', hseam gap (not_mem_gap hgap rfl), hseam gap' (not_mem_gap hgap' rfl),
    List.map_append, List.map_append, List.map_cons, List.map_cons]
  rw [hlines] at hline
  have hgist := hline first rfl
  rw [lineSoFar] at hgist
  rw [hgist]

theorem lineSoFar_start (h : Literal.Ended before) (hstart : ∀ c ∈ before.getLast?, c = '\n') :
    lineSoFar before = [] := by
  have hlast := Literal.getLast?_liftFrom_of_closed h
  cases hbefore : before.getLast? with
  | none =>
      rw [List.getLast?_eq_none_iff] at hbefore
      subst hbefore
      simp [lineSoFar, Literal.lift, Literal.liftFrom, lines, split]
  | some c =>
      obtain rfl := hstart c hbefore
      rw [hbefore] at hlast
      obtain ⟨front, hfront⟩ := List.getLast?_eq_some_iff.1 hlast
      have hlines := lines_line front []
      rw [← hfront] at hlines
      have hnil : lines [] = [[]] := rfl
      rw [hnil] at hlines
      unfold lineSoFar
      simp only [Literal.lift, hlines, List.getLast_concat]

theorem head?_lines_stop (n : Nat) (hstop : ∀ c ∈ after.head?, c = '\n') :
    (lines (Literal.liftFrom n after).text).head? = some [] := by
  cases after with
  | nil => simp [Literal.liftFrom, lines, split]
  | cons c after =>
      obtain rfl := hstop c rfl
      rw [Literal.liftFrom_char n (by decide)]
      simp [lines, split]

/-- Code ends at a gap. -/
theorem gist_gap {line : List Char} (hline : (Comment.cut line).2 = none) (hne : gap ≠ [])
    (hgap : ∀ c ∈ gap, isInlineBlank c = true) (first : List Char) :
    Comment.gist (line ++ (gap ++ first)) =
      (View.pieces.tokens line ++ (Comment.gist first).1, (Comment.gist first).2) := by
  have hapart : SlashesApart line := (Comment.cut_eq_none (Prod.ext rfl hline)).2
  have hblank := isBlank_gap hgap
  cases gap with
  | nil => exact absurd rfl hne
  | cons c gap =>
      rw [List.forall_mem_cons] at hblank
      have hcut := Comment.cut_append_cons hapart (ne_slash_of_isBlank hblank.1) (gap ++ first)
      rw [Comment.gist_eq, Comment.gist_eq, List.cons_append, hcut,
        Comment.cut_blanks_append hblank.2, View.tokens_append (View.continues_blank hblank.1 _),
        View.tokens_blank hblank.1, View.tokens_blanks_append hblank.2]

theorem layOut_eq (h : Respaced text text') (u : Indentation.Units) :
    layOut u text = layOut u text' := by
  have hblank : ∀ {gap : List Char}, (∀ c ∈ gap, isInlineBlank c = true) → ∀ s : List Char,
      (gap ++ s).head? = some '"' → gap = [] ∧ s.head? = some '"' := by
    intro gap hgap s hhead
    cases gap with
    | nil => exact ⟨rfl, hhead⟩
    | cons c gap =>
        have hc := hgap c List.mem_cons_self
        rw [show c = '"' by simpa using hhead] at hc
        exact absurd hc (by decide)
  cases h with
  | @start before gap gap' after hended hstart hgap hgap' =>
      have hquotes : before.getLast? ≠ some '"' := fun hlast =>
        absurd (hstart '"' hlast) (by decide)
      refine layOut_gap hended hgap hgap' (fun h => absurd h hquotes) (fun h => absurd h hquotes)
        (fun first _ => ?_) u
      rw [lineSoFar_start hended hstart, List.nil_append, List.nil_append, Comment.gist,
        Comment.gist, Comment.parts_blanks_append (isBlank_gap hgap),
        Comment.parts_blanks_append (isBlank_gap hgap')]
  | @stop before gap gap' after hended hstop hgap hgap' =>
      have hquotes : after.head? ≠ some '"' := fun hhead =>
        absurd (hstop '"' hhead) (by decide)
      refine layOut_gap hended hgap hgap' (fun _ h => hquotes (hblank hgap after h).2)
        (fun _ h => hquotes (hblank hgap' after h).2) (fun first hfirst => ?_) u
      rw [head?_lines_stop _ hstop, Option.mem_some_iff] at hfirst
      rw [← hfirst, List.append_nil, List.append_nil, Comment.gist, Comment.gist,
        Comment.parts_append_blanks _ (isBlank_gap hgap),
        Comment.parts_append_blanks _ (isBlank_gap hgap')]
  | @inside before gap gap' after hended hcode hne hne' hgap hgap' =>
      refine layOut_gap hended hgap hgap' (fun _ h => hne (hblank hgap after h).1)
        (fun _ h => hne' (hblank hgap' after h).1) (fun first _ => ?_) u
      rw [gist_gap hcode hne hgap, gist_gap hcode hne' hgap']

end Respaced

/-- The blanks at the ends of lines and the number and kind of those inside them do not matter,
whatever the units of indentation are. -/
theorem layOut_respaced (h : Relation.ReflTransGen Respaced text text') (u : Indentation.Units) :
    layOut u text = layOut u text' := by
  induction h with
  | refl => rfl
  | tail _ hstep ih => exact ih.trans (hstep.layOut_eq u)

/-- Blanks go from both ends of a line, and fewer stand before a literal. -/
theorem layOut_respaced_print :
    Relation.ReflTransGen Respaced "\tp  \"a  b\" // c \n".toList "p \"a  b\" // c\n".toList ∧
      layOut Options.standard.units "\tp  \"a  b\" // c \n".toList =
        layOut Options.standard.units "p \"a  b\" // c\n".toList := by
  have hempty : Literal.Ended [] := by simp [Literal.Ended, Literal.lift, Literal.liftFrom]
  have hstart : Respaced "\tp  \"a  b\" // c \n".toList "p  \"a  b\" // c \n".toList :=
    @Respaced.start [] ['\t'] [] "p  \"a  b\" // c \n".toList hempty (by simp)
      (List.forall_mem_singleton.2 rfl) (by simp)
  have hcode : Literal.Ended ['p'] ∧ (Comment.cut (lineSoFar ['p'])).2 = none := by
    constructor
    · simp [Literal.Ended, Literal.lift, Literal.liftFrom]
    · simp [lineSoFar, Literal.lift, Literal.liftFrom, lines, split, consPiece, Comment.cut]
  have hinside : Respaced "p  \"a  b\" // c \n".toList "p \"a  b\" // c \n".toList :=
    @Respaced.inside ['p'] [' ', ' '] [' '] "\"a  b\" // c \n".toList hcode.1 hcode.2 (by simp)
      (by simp) (List.forall_mem_cons.2 ⟨rfl, List.forall_mem_singleton.2 rfl⟩)
      (List.forall_mem_singleton.2 rfl)
  have hended : Literal.Ended "p \"a  b\" // c".toList := by
    have htable : (Literal.lift "p \"a  b\" // c".toList).table =
        [['"', 'a', ' ', ' ', 'b', '"']] := by
      simp [Literal.lift, Literal.liftFrom, Literal.close]
    rw [Literal.Ended, htable, List.forall_mem_singleton]
    exact Literal.closed_cons_close (s := ['a', ' ', ' ', 'b', '"', ' ']) (by decide)
  have hstop : Respaced "p \"a  b\" // c \n".toList "p \"a  b\" // c\n".toList :=
    @Respaced.stop "p \"a  b\" // c".toList [' '] [] ['\n'] hended (by simp)
      (List.forall_mem_singleton.2 rfl) (by simp)
  have hsteps := ((Relation.ReflTransGen.single hstart).tail hinside).tail hstop
  exact ⟨hsteps, layOut_respaced hsteps _⟩

end MiniScriptLayout
