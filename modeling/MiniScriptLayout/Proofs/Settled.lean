import Mathlib
import MiniScriptLayout.Proofs.Preservation
import MiniScriptLayout.Proofs.Rows.Again

/-!
When laying out a layout changes nothing. Literals and comments are put back as they were, so that
all depends on the lines: none may be blank at an end of the text, and normalising their codes again
must give the same codes with the same indentations. Not every layout is settled; normalising takes
away only the inner one of two commas before closing brackets.
-/

namespace MiniScriptLayout

open Text

theorem Comment.restore_map_rendered (table : List (List Char)) (s : List Char) :
    restore (table.map rendered) s = restore table s := by
  have hrender : render ∘ rendered = render := funext render_rendered
  rw [restore, restore, List.map_map, hrender]

namespace Layout

variable {u : Indentation.Units} {text : List Char} {rows : List Row}

/-- What the codes of a layout give when they are read as lines. -/
def again (l : Layout) : Layout :=
  let lines := CodeLine.ofLines false l.codes
  { l with
    lines := lines
    indentation := Indentation.ofShapes (lines.map fun line => .ofCode line.code) }

/-- The lines of a layout stay as they are when they are laid out again. -/
structure Settled (u : Indentation.Units) (l : Layout) : Prop where
  ends : NoneAtEnds ⟨[], []⟩ l.lines
  codes : l.again.codes = l.codes
  indents : Row.AgreeAt l.lines (l.indents u) (l.again.indents u)

instance (u : Indentation.Units) (l : Layout) : Decidable (l.Settled u) :=
  decidable_of_iff (NoneAtEnds ⟨[], []⟩ l.lines ∧ l.again.codes = l.codes ∧
      Row.AgreeAt l.lines (l.indents u) (l.again.indents u))
    ⟨fun h => ⟨h.1, h.2.1, h.2.2⟩, fun h => ⟨h.ends, h.codes, h.indents⟩⟩

section Rows

variable (hs : ∀ r ∈ rows, r.Sound)
  (hsplit : Statement.split (ofText text).comments.text = Row.write 0 rows)

include hsplit

theorem codes_eq : (ofText text).codes = Row.codes [] false 0 rows := by
  rw [codes, lines_eq hsplit, Row.codes]

theorem length_codes : (ofText text).codes.length = rows.length := by
  rw [codes_eq hsplit, Row.length_codes]

include hs

theorem trim_codes : ∀ code ∈ (ofText text).codes, trim code = code := by
  rw [codes_eq hsplit]
  exact Row.trim_codes hs [] false

/-- Two texts with the same comments have equal layouts exactly if their codes are equal, and the
indentations of all lines that are not blank. -/
theorem place_inj (hu : u.Spaces) {text' : List Char} {rows' : List Row}
    (hs' : ∀ r ∈ rows', r.Sound)
    (hsplit' : Statement.split (ofText text').comments.text = Row.write 0 rows')
    (hbody : rows'.map Row.body = rows.map Row.body) :
    (ofText text').place u rows' = (ofText text).place u rows ↔
      (ofText text').codes = (ofText text).codes ∧
        Row.AgreeAt (ofText text).lines ((ofText text).indents u) ((ofText text').indents u) := by
  have hlength : rows'.length = rows.length := by
    simpa using congrArg List.length hbody
  rw [place, place, hbody, lines_eq hsplit, codes_eq hsplit]
  exact Row.placeAll_inj hs (trim_codes hs' hsplit') (isSpace_indents hu _) (isSpace_indents hu _)
    (length_indents hsplit u) ((length_indents hsplit' u).trans hlength)
    ((length_codes hsplit').trans hlength)

end Rows

variable (hu : u.Spaces) (h : Row.Holds text rows)
include h

/-- Blank lines stand at the ends of a text exactly if they do in its layout. -/
theorem noneAtEnds_iff :
    NoneAtEnds ⟨[], []⟩ (ofText text).lines ↔
      NoneAtEnds [] (Row.write 0 ((ofText text).place u rows)) := by
  have hlength := length_indents h.split u
  have hblank := Row.forall₂_blank (n := 0) h.sound [] false hlength
  rw [← lines_eq h.split, ← codes_eq h.split, ← place] at hblank
  exact noneAtEnds_congr hblank

include hu

theorem trimmed_place : Trimmed (Row.write 0 ((ofText text).place u rows)) := by
  refine Row.trimmed_write (laysOut hu h.sound h.split) ?_
  refine Row.head?_placeAll (trim_codes h.sound h.split) fun indent hindent => ?_
  rw [indents, List.head?_map, Option.mem_def, Option.map_eq_some_iff] at hindent
  obtain ⟨d, hd, rfl⟩ := hindent
  rw [Indentation.head?_ofShapes _ d hd]
  rfl

/-- Reading the rows of a layout gives the codes and indentations that reading its codes gives. -/
theorem again_eq {text' : List Char}
    (hsplit : Statement.split (ofText text').comments.text =
      Row.write 0 ((ofText text).place u rows)) :
    (ofText text').codes = (ofText text).again.codes ∧
      (ofText text').indents u = (ofText text).again.indents u := by
  have hclean := Row.clean_laid (laysOut hu h.sound h.split)
  have hlength := length_codes h.split
  have hcodes : ((ofText text).place u rows).map (fun r => trim r.code) = (ofText text).codes :=
    Row.map_trim_placeAll (trim_codes h.sound h.split) (isSpace_indents hu _)
      ((length_indents h.split u).trans hlength.symm) (by simp [hlength])
  have hlines : (ofText text').lines.map (·.code) = (ofText text).again.lines.map (·.code) := by
    rw [lines_eq hsplit, Row.code_ofLines_write hclean, hcodes]
    rfl
  refine ⟨congrArg (MapColon.spaceLines []) hlines, ?_⟩
  have := congrArg
    (fun cs => (Indentation.ofShapes (cs.map .ofCode)).depths.map (·.render u)) hlines
  rw [List.map_map, List.map_map] at this
  exact this

/-- Where no blank line is at an end, the code of a layout stays exactly if its codes and
indentations do. -/
theorem code_layOut_iff (hends : trim ((ofText text).code u) = (ofText text).code u) :
    (ofText (layOut u text)).code u = (ofText text).code u ↔
      (ofText text).again.codes = (ofText text).codes ∧
        Row.AgreeAt (ofText text).lines ((ofText text).indents u)
          ((ofText text).again.indents u) := by
  have hl := laysOut hu h.sound h.split
  have hne := h.laid_ne_nil hl
  have hbody := Row.map_body_laid hl
  have hs : ∀ r ∈ (ofText text).place u rows, r.Sound :=
    fun r hr => (Row.clean_laid hl r hr).sound
  have hcode := code_eq hu h.sound h.split
  -- the statements of the layout are its rows, so both codes put the same comments into place
  have hsplit : Statement.split (ofText (layOut u text)).comments.text =
      Row.write 0 ((ofText text).place u rows) := by
    rw [comments_ofText_layOut hu, hcode, Row.split_laid h hl, ← hcode, hends, hcode,
      Row.lines_unlines_write hne hs]
  have hl' := laysOut hu hs hsplit
  have hs' : ∀ r ∈ (ofText (layOut u text)).place u ((ofText text).place u rows), r.Sound :=
    fun r hr => (Row.clean_laid hl' r hr).sound
  have hbody' := Row.map_body_laid hl'
  have hne' : (ofText (layOut u text)).place u ((ofText text).place u rows) ≠ [] := by
    intro hnil
    rw [hnil] at hl'
    exact hne (List.forall₂_nil_right_iff.1 hl')
  obtain ⟨hcodes, hindents⟩ := again_eq hu h hsplit
  rw [code_eq hu hs hsplit, hcode, Row.unlines_write_inj hne' hs' hs hbody',
    place_inj h.sound h.split hu hs hsplit hbody, hcodes, hindents]

/-- A blank line at an end is no statement, so that the code gets shorter. -/
theorem length_lines_trim (heq : (ofText (layOut u text)).code u = (ofText text).code u) :
    (Text.lines (trim ((ofText text).code u))).length =
      (Row.write 0 ((ofText text).place u rows)).length := by
  have hl := laysOut hu h.sound h.split
  obtain ⟨rows', h'⟩ := Row.exists_holds (layOut u text)
  have hl' := laysOut hu h'.sound h'.split
  have hstatements : rows'.length = (Text.lines (trim ((ofText text).code u))).length := by
    rw [code_eq hu h.sound h.split, ← Row.split_laid h hl, ← code_eq hu h.sound h.split,
      ← Row.length_write (n := 0), ← h'.split]
    exact congrArg (fun s => (Statement.split s).length)
      (congrArg Lifted.text (comments_ofText_layOut hu text))
  have hlines := congrArg Text.lines heq
  rw [code_eq hu h.sound h.split, code_eq hu h'.sound h'.split,
    Row.lines_unlines_write (h.laid_ne_nil hl) fun r hr => (Row.clean_laid hl r hr).sound,
    Row.lines_unlines_write (h'.laid_ne_nil hl') fun r hr => (Row.clean_laid hl' r hr).sound]
    at hlines
  rw [← hlines, Row.length_write, ← hl'.length_eq, hstatements]

omit h

theorem code_layOut_eq_iff (text : List Char) :
    (ofText (layOut u text)).code u = (ofText text).code u ↔ (ofText text).Settled u := by
  obtain ⟨rows, h⟩ := Row.exists_holds text
  have hcode := code_eq hu h.sound h.split
  have htrimmed := trimmed_place hu h
  constructor
  · intro heq
    -- a blank line at an end would be lost, and the code of the layout would have fewer lines
    have hends := noneAtEnds_of_length_lines_trim
      (mt Row.write_eq_nil.1 (h.laid_ne_nil (laysOut hu h.sound h.split))) htrimmed.line
      (hcode ▸ length_lines_trim hu h heq)
    have htrim := htrimmed.trim_unlines hends
    rw [← hcode] at htrim
    obtain ⟨hcodes, hindents⟩ := (code_layOut_iff hu h htrim).1 heq
    exact ⟨(noneAtEnds_iff h).2 hends, hcodes, hindents⟩
  · rintro ⟨hends, hcodes, hindents⟩
    have htrim := htrimmed.trim_unlines ((noneAtEnds_iff h).1 hends)
    rw [← hcode] at htrim
    exact (code_layOut_iff hu h htrim).2 ⟨hcodes, hindents⟩

/-- A layout stays as it is exactly if its code does. -/
theorem layOut_eq_iff (text : List Char) :
    layOut u (layOut u text) = layOut u text ↔
      (ofText (layOut u text)).code u = (ofText text).code u := by
  constructor
  · intro heq
    have h := congrArg Lifted.text (comments_ofText_layOut hu (layOut u text))
    rw [heq, comments_ofText_layOut hu text] at h
    exact h.symm
  · intro heq
    obtain ⟨rows, -, -, hread⟩ := Row.exists_reread hu text
    have htable : (ofText (layOut u text)).literals.table = (ofText text).literals.table :=
      (congrArg Lifted.table hread :)
    rw [layOut, render, htable, comments_ofText_layOut hu text, heq,
      Comment.restore_map_rendered]
    rfl

end Layout

/-- Laying out a layout changes nothing exactly if its lines are settled. -/
theorem layOut_layOut_iff (o : Options) (text : List Char) :
    layOut o.units (layOut o.units text) = layOut o.units text ↔
      (Layout.ofText text).Settled o.units := by
  rw [Layout.layOut_eq_iff o.spaces_units, Layout.code_layOut_eq_iff o.spaces_units]

/-- Of two commas that stand before closing brackets next to each other, only the first is dropped:
the match for it takes the bracket that the second one would have to follow. -/
theorem layOut_nested_commas :
    layOut Options.standard.units (layOut Options.standard.units "a = [1, [2,],]".toList) ≠
      layOut Options.standard.units "a = [1, [2,],]".toList := by
  cbv
  decide

end MiniScriptLayout
