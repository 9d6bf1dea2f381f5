import MiniScriptLayout.Proofs.Rows.Lay
import MiniScriptLayout.Proofs.Settled
import MiniScriptLayout.Proofs.Vanishing

/-!
Blanks at the edges of a layout. A line never ends in a blank, and the first one is not indented, so
that the text begins or ends in a blank only where a line of it is blank. The lines are those of the
trimmed text, and a line at an end is blank exactly if normalising leaves nothing of its statement.
-/

namespace MiniScriptLayout

open Text

namespace Layout

variable {u : Indentation.Units} {text : List Char} {rows : List Row}

/-- The rows of a layout are trimmed, with comments and all. -/
theorem trimmed_text (hu : u.Spaces) (h : Row.Holds text rows) :
    Trimmed (((ofText text).place u rows).map Row.text) where
  line l hl := by
    obtain ⟨r, hr, rfl⟩ := List.mem_map.1 hl
    exact (Row.clean_laid (laysOut hu h.sound h.split) r hr).not_mem_text
  first l hl := by
    rw [List.head?_map, Option.mem_def, Option.map_eq_some_iff] at hl
    obtain ⟨r, hr, rfl⟩ := hl
    rw [Row.head?_text r 0]
    refine (trimmed_place hu h).first _ ?_
    cases hplace : (ofText text).place u rows with
    | nil => rw [hplace] at hr; cases hr
    | cons q rows =>
        rw [hplace, List.head?_cons, Option.some.injEq] at hr
        rw [Row.write, hr]
        rfl
  last l hl := by
    obtain ⟨r, hr, rfl⟩ := List.mem_map.1 hl
    rw [← Row.trimRight_laid (laysOut hu h.sound h.split) r hr]
    exact getLast?_trimRight r.text

end Layout

/-- No line of a layout ends in a blank, whatever its block and its comment are. -/
theorem getLast?_lines_layOut (o : Options) {text : List Char}
    (hclosed : ∀ l ∈ (Literal.lift text).table, Literal.Closed l)
    (hline : ∀ l ∈ (Literal.lift text).table, '\n' ∉ l) :
    ∀ line ∈ lines (layOut o.units text), ∀ c ∈ line.getLast?, isBlank c = false := by
  obtain ⟨rows, h⟩ := Row.exists_holds text
  have hl := Layout.laysOut o.spaces_units h.sound h.split
  have htrimmed := Layout.trimmed_text o.spaces_units h
  have hmarked := h.marked_laid hl
  have hrows := hmarked.exists_of_mem
  rw [h.layOut_eq o.spaces_units, ← Row.place_eq h.sound h.split,
    hmarked.restore_unlines (Nat.le_refl _), lines_unlines]
  · intro line hmem c hc
    obtain ⟨l, hl, rfl⟩ := List.mem_map.1 hmem
    obtain ⟨j, k, hk, hlmarked⟩ := hrows l hl
    rw [hlmarked.getLast?_restore hk hclosed] at hc
    exact htrimmed.last l hl c hc
  · simpa using h.laid_ne_nil hl
  · intro line hmem hfeed
    obtain ⟨l, hl, rfl⟩ := List.mem_map.1 hmem
    obtain ⟨j, k, hk, hlmarked⟩ := hrows l hl
    rcases hlmarked.mem_restore hk hfeed with hfeed | ⟨literal, hliteral, hfeed⟩
    · exact htrimmed.line l hl hfeed
    · exact hline literal hliteral hfeed

/-- The second line is blank, and the third one is a literal in a block. -/
theorem getLast?_lines_layOut_literal :
    let text : List Char := ['w', 'h', 'i', 'l', 'e', ' ', 'a', '\n', ' ', '\n', '"', ' ', '"', ' ']
    ((∀ l ∈ (Literal.lift text).table, Literal.Closed l) ∧
        ∀ l ∈ (Literal.lift text).table, '\n' ∉ l) ∧
      ∀ line ∈ lines (layOut Options.standard.units text),
        ∀ c ∈ line.getLast?, isBlank c = false := by
  intro text
  have htable : (Literal.lift text).table = [['"', ' ', '"']] := by
    simp [text, Literal.lift, Literal.liftFrom, Literal.close]
  have hclosed : ∀ l ∈ (Literal.lift text).table, Literal.Closed l := by
    rw [htable, List.forall_mem_singleton]
    exact Literal.closed_cons_close (s := [' ', '"', ' ']) (by decide)
  have hline : ∀ l ∈ (Literal.lift text).table, '\n' ∉ l := by
    rw [htable, List.forall_mem_singleton]
    decide
  exact ⟨⟨hclosed, hline⟩, getLast?_lines_layOut .standard hclosed hline⟩

namespace Layout

/-- A layout has blanks at its ends exactly if blank lines are there. -/
theorem trim_layOut_iff_noneAtEnds (hu : u.Spaces) (text : List Char)
    (hclosed : ∀ l ∈ (Literal.lift text).table, Literal.Closed l) :
    trim (layOut u text) = layOut u text ↔ NoneAtEnds ⟨[], []⟩ (ofText text).lines := by
  obtain ⟨rows, h⟩ := Row.exists_holds text
  have hmarked := h.marked_laid (laysOut hu h.sound h.split)
  rw [noneAtEnds_iff h, noneAtEnds_congr (Row.forall₂_text 0 _),
    ← (trimmed_text hu h).trim_unlines_iff, trim_eq_self_iff, trim_eq_self_iff,
    h.layOut_eq hu, ← Row.place_eq h.sound h.split,
    hmarked.head?_restore (Nat.le_refl _) hclosed,
    hmarked.getLast?_restore (Nat.le_refl _) hclosed]

end Layout

/-- Nothing is left of a statement but an empty line; `continued` says that it goes on with the
statement before it. -/
def Statement.Vanishes (continued : Bool) (statement : List Char) : Prop :=
  let line := CodeLine.ofText statement
  line.comment = [] ∧ (line.code = [] ∨ continued = false ∧ Text.squeeze line.code = ['(', ')'])

theorem CodeLine.normalize_ofText_iff {statement : List Char} (h : '\n' ∉ statement)
    (continued : Bool) :
    (CodeLine.ofText statement).normalize continued = ⟨[], []⟩ ↔
      Statement.Vanishes continued statement := by
  have hline := CodeLine.ofText_eq h
  have hcode : trim (ofText statement).code = (ofText statement).code := by
    rw [hline]
    exact trim_trim _
  have hcomment : trim (ofText statement).comment = [] ↔ (ofText statement).comment = [] := by
    rw [hline, trim_eq_nil, ← trimRight_eq_nil, trimRight_trimRight]
  rw [Statement.Vanishes, ← normalize_eq_nil_iff hcode, ← hcomment, CodeLine.mk.injEq]
  exact and_comm

/-- Lines leave a statement incomplete, which may be the one that they continue. -/
def CodeLine.leaveOpen (continued : Bool) (lines : List CodeLine) : Bool :=
  (lines.getLast?.map fun line => Lexical.isIncomplete line.code).getD continued

theorem CodeLine.ofLines_concat (continued : Bool) (ls : List (List Char)) (l : List Char) :
    ofLines continued (ls ++ [l]) = ofLines continued ls ++
      [(ofText l).normalize (leaveOpen continued (ofLines continued ls))] := by
  induction ls generalizing continued with
  | nil => rfl
  | cons k ls ih =>
      rw [List.cons_append, ofLines, ih, ofLines, List.cons_append]
      cases hls : ofLines (Lexical.isIncomplete ((ofText k).normalize continued).code) ls with
      | nil => rfl
      | cons line lines => simp [leaveOpen, List.getLast?_cons]

namespace Layout

/-- Of several statements neither the first nor the last vanishes. -/
def EndsStay (text : List Char) : Prop :=
  let statements := Statement.split (ofText text).comments.text
  1 < statements.length →
    (∀ statement ∈ statements.head?, ¬ Statement.Vanishes false statement) ∧
      ∀ statement ∈ statements.getLast?,
        ¬ Statement.Vanishes (CodeLine.leaveOpen false (ofText text).lines.dropLast) statement

theorem noneAtEnds_lines_iff (text : List Char) :
    NoneAtEnds ⟨[], []⟩ (ofText text).lines ↔ EndsStay text := by
  have hlines : (ofText text).lines =
      CodeLine.ofLines false (Statement.split (ofText text).comments.text) := rfl
  have hline : ∀ s ∈ Statement.split (ofText text).comments.text, '\n' ∉ s := not_mem_lines _
  rw [NoneAtEnds, EndsStay, hlines, length_ofLines]
  refine imp_congr_right fun _ => and_congr ?_ ?_
  · cases hs : Statement.split (ofText text).comments.text with
    | nil => simp [CodeLine.ofLines]
    | cons s statements =>
        rw [hs] at hline
        simp [CodeLine.ofLines, CodeLine.normalize_ofText_iff (hline s List.mem_cons_self)]
  · rcases (Statement.split (ofText text).comments.text).eq_nil_or_concat with hs | ⟨init, s, hs⟩
    · simp [hs, CodeLine.ofLines]
    · rw [List.concat_eq_append] at hs
      rw [hs] at hline ⊢
      simp [CodeLine.ofLines_concat, CodeLine.normalize_ofText_iff (hline s (by simp))]

end Layout

/-- A layout neither begins nor ends in a blank exactly if no statement at an end of the text
vanishes. The final line break is then the one that the options ask for. -/
theorem trim_layOut_iff (o : Options) {text : List Char}
    (hclosed : ∀ l ∈ (Literal.lift text).table, Literal.Closed l) :
    (trim (layOut o.units text) = layOut o.units text ↔ Layout.EndsStay text) ∧
      (Layout.EndsStay text → ((o.format text).text.getLast? = some '\n' ↔
        o.finalNewline = true ∧ layOut o.units text ≠ [])) := by
  have hiff := (Layout.trim_layOut_iff_noneAtEnds o.spaces_units text hclosed).trans
    (Layout.noneAtEnds_lines_iff text)
  refine ⟨hiff, fun hstay => ?_⟩
  have hlast : (layOut o.units text).getLast? ≠ some '\n' := by
    intro heq
    have := (trim_eq_self_iff.1 (hiff.2 hstay)).2 '\n' heq
    cases this
  simp only [Options.format, Options.finish, Bool.and_eq_true, Bool.not_eq_true',
    List.isEmpty_eq_false_iff]
  split
  · rename_i h
    simpa using h
  · rename_i h
    exact iff_of_false hlast h

/-- No statement at an end vanishes: the first one is a call with an argument, and the last one has
a comment. -/
theorem trim_layOut_call :
    let text : List Char := ['f', '(', '"', 'a', '"', ')', '\n', '(', ')', '/', '/', 'b']
    (∀ l ∈ (Literal.lift text).table, Literal.Closed l) ∧
      (trim (layOut Options.standard.units text) = layOut Options.standard.units text ↔
        Layout.EndsStay text) ∧
      (Layout.EndsStay text →
        ((Options.standard.format text).text.getLast? = some '\n' ↔
          Options.standard.finalNewline = true ∧ layOut Options.standard.units text ≠ [])) := by
  intro text
  have htable : (Literal.lift text).table = [['"', 'a', '"']] := by
    simp [text, Literal.lift, Literal.liftFrom, Literal.close]
  have hclosed : ∀ l ∈ (Literal.lift text).table, Literal.Closed l := by
    rw [htable, List.forall_mem_singleton]
    exact Literal.closed_cons_close (s := ['a', '"', ')']) (by decide)
  exact ⟨hclosed, trim_layOut_iff .standard hclosed⟩

/-- A pair of parentheses in the last line leaves the line break before it. -/
theorem layOut_empty_parentheses :
    let text := "a\n()".toList
    (∀ l ∈ (Literal.lift text).table, Literal.Closed l) ∧
      (layOut Options.standard.units text).getLast? = some '\n' := by
  intro text
  have htable : (Literal.lift text).table = [] := by cbv
  refine ⟨?_, by cbv⟩
  rw [htable]
  exact List.forall_mem_nil _

end MiniScriptLayout
