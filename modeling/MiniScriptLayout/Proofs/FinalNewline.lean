import Mathlib
import MiniScriptLayout.Proofs.Lifting.Quote
import MiniScriptLayout.Proofs.Preservation
import MiniScriptLayout.Proofs.Rows.Coarser

/-!
The line break that formatting adds to a layout. It is a blank line behind the layout and is dropped
when it is read back, unless a literal without end takes it in. Then it stays, and formatting adds
another one each time.
-/

namespace MiniScriptLayout

open Text

variable {u : Indentation.Units} {o : Options} {text text' : List Char}

namespace Literal

/-- A line break behind closed literals stays in the text. -/
theorem lift_line (h : ∀ l ∈ (lift text).table, Closed l) :
    lift (text ++ ['\n']) = ⟨(lift text).text ++ ['\n'], (lift text).table⟩ := by
  have hlift := liftFrom_append h (t := ['\n']) fun _ => by simp
  rwa [liftFrom_char _ (by decide), liftFrom, List.append_nil] at hlift

/-- A line break behind a literal without end belongs to this literal. -/
theorem lift_line_of_open (h : ¬ ∀ l ∈ (lift text).table, Closed l) :
    (lift (text ++ ['\n'])).text = (lift text).text := by
  obtain ⟨before, body, hbody, hbefore, hlast, rfl⟩ := (exists_open 0 text).resolve_left h
  have hline : Doubled (body ++ ['\n']) := hbody.append (.char (by decide) .nil)
  rw [List.append_assoc, List.cons_append, lift_open hline hbefore hlast,
    lift_open hbody hbefore hlast]

end Literal

/-- A line break at the end is not seen where all literals are closed. -/
theorem layOut_line (h : ∀ l ∈ (Literal.lift text).table, Literal.Closed l) :
    layOut u (text ++ ['\n']) = layOut u text := by
  have hlift := Literal.lift_line h
  refine Layout.layOut_entries (by rw [hlift]) ?_ u
  have hentries : Entry.ofText ((Literal.lift text).text ++ ['\n']) =
      Entry.ofText (Literal.lift text).text ++ [([], none)] := by
    rw [Entry.ofText, lines_line, List.flatMap_append]
    rfl
  rw [hlift, hentries, Entry.trimAll_append_of_isBlank _ (List.forall_mem_singleton.2 rfl)]

/-- A text that its layout leaves as it is may have other literals in place of its own. -/
theorem layOut_eq_self (hu : u.Spaces) (h : layOut u text = text)
    (htext : (Literal.lift text').text = (Literal.lift text).text) : layOut u text' = text' := by
  obtain ⟨rows, hrows, -, hread⟩ := Row.exists_reread hu text
  rw [h] at hread
  have hrows : Comment.restore (Layout.ofText text).comments.table ((Layout.ofText text).code u) =
      (Literal.lift text').text := by
    rw [hrows.restore_code hu, htext, hread]
  have hlayout : Layout.ofText text' =
      { Layout.ofText text with literals := Literal.lift text' } := by
    simp only [Layout.ofText, htext]
  calc layOut u text'
      = Literal.restore (Literal.lift text').table (Comment.restore
          (Layout.ofText text).comments.table ((Layout.ofText text).code u)) := by
        rw [layOut, hlayout]
        rfl
    _ = text' := by rw [hrows, Literal.restore_lift]

namespace Options

theorem format_eq (hnewline : o.finalNewline = true) (hne : layOut o.units text ≠ []) :
    o.format text =
      ⟨layOut o.units text ++ ['\n'], layOut o.units text ++ ['\n'] != text⟩ := by
  have hfinish : o.finish (layOut o.units text) = layOut o.units text ++ ['\n'] := by
    simp [finish, hnewline, hne]
  rw [format, hfinish]

/-- A text that is formatted and has a line break behind it. If its quotes are paired, it stays as
it is. Otherwise the line break belongs to a literal without end, and each formatting adds one. -/
theorem format_line (hnewline : o.finalNewline = true) (hne : text ≠ [])
    (h : layOut o.units text = text) :
    (text.count '"' % 2 = 0 → o.format (text ++ ['\n']) = ⟨text ++ ['\n'], false⟩) ∧
      (text.count '"' % 2 = 1 → ∀ n, o.format (text ++ List.replicate (n + 1) '\n') =
        ⟨text ++ List.replicate (n + 2) '\n', true⟩) := by
  constructor
  · intro heven
    have hlayout : layOut o.units (text ++ ['\n']) = text := by
      rw [layOut_line ((Literal.closed_iff_count text).2 heven), h]
    rw [format_eq hnewline (by rwa [hlayout]), hlayout]
    simp
  · intro hodd n
    -- every formatting finds a text that its layout leaves as it is
    have hlayout : ∀ n, layOut o.units (text ++ List.replicate n '\n') =
        text ++ List.replicate n '\n' := by
      intro n
      induction n with
      | zero => rwa [List.replicate_zero, List.append_nil]
      | succ n ih =>
          have hcount : (text ++ List.replicate n '\n').count '"' % 2 ≠ 0 := by
            rw [List.count_append, List.count_replicate]
            simp [hodd]
          rw [List.replicate_succ', ← List.append_assoc]
          exact layOut_eq_self o.spaces_units ih
            (Literal.lift_line_of_open (mt (Literal.closed_iff_count _).1 hcount))
    rw [format_eq hnewline (by rw [hlayout]; simp [hne]), hlayout, List.append_assoc,
      ← List.replicate_succ']
    simp

end Options

theorem layOut_open_literal :
    layOut Options.standard.units "x = \"a".toList = "x = \"a".toList := by
  cbv

/-- A line break behind a name is dropped again, and those behind a literal without end are not. -/
theorem Options.format_line_open_literal :
    layOut Options.standard.units "x".toList = "x".toList ∧
      layOut Options.standard.units "x = \"a".toList = "x = \"a".toList ∧
      Options.standard.format "x\n".toList = ⟨"x\n".toList, false⟩ ∧
      Options.standard.format "x = \"a\n\n".toList = ⟨"x = \"a\n\n\n".toList, true⟩ := by
  have hname : layOut Options.standard.units "x".toList = "x".toList := by cbv
  exact ⟨hname, layOut_open_literal,
    (Options.format_line (o := Options.standard) rfl (by decide) hname).1 (by decide),
    (Options.format_line (o := Options.standard) rfl (by decide) layOut_open_literal).2
      (by decide) 1⟩

/-- The layout of a formatted text may end in a line break, and formatting adds another one. -/
theorem Options.format_line_grows :
    Options.standard.finalNewline = true ∧
      layOut Options.standard.units "x = \"a".toList = "x = \"a".toList ∧
      Options.standard.format "x = \"a\n".toList ≠ ⟨"x = \"a\n".toList, false⟩ := by
  have hopen : ¬ ∀ l ∈ (Literal.lift "x = \"a".toList).table, Literal.Closed l :=
    mt (Literal.closed_iff_count _).1 (by decide)
  have hlayout : layOut Options.standard.units "x = \"a\n".toList = "x = \"a\n".toList :=
    layOut_eq_self Options.standard.spaces_units layOut_open_literal
      (Literal.lift_line_of_open hopen)
  have hformat : Options.standard.format "x = \"a\n".toList = ⟨"x = \"a\n\n".toList, true⟩ := by
    rw [Options.format_eq rfl (by rw [hlayout]; decide), hlayout]
    decide
  exact ⟨rfl, layOut_open_literal, by rw [hformat]; decide⟩

end MiniScriptLayout
