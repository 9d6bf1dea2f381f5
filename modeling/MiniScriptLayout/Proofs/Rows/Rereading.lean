import MiniScriptLayout.Proofs.Rows.Laid
import MiniScriptLayout.Proofs.Rows.Lifting

/-!
Reading a layout. When the literals and comments of a text that is laid out are lifted again, the
rows of the layout come back, with the same literals and with the comments as they were rendered.
-/

namespace MiniScriptLayout

namespace Text

theorem sublist_getLast? {s t : List Char} {c : Char} (h : t.Sublist s)
    (hs : s.getLast? = some c) (hcount : t.count c = s.count c) : t.getLast? = some c := by
  obtain ⟨front, rfl⟩ := List.getLast?_eq_some_iff.1 hs
  obtain ⟨t₁, t₂, rfl, h₁, h₂⟩ := List.sublist_append_iff.1 h
  cases t₂ with
  | nil =>
      have := h₁.count_le c
      simp only [List.append_nil, List.count_append, List.count_singleton_self] at hcount
      omega
  | cons d t₂ =>
      have hd : d = c ∧ t₂ = [] := by
        simpa using h₂
      simp [hd]

theorem count_squeeze {c : Char} (hc : isBlank c = false) (s : List Char) :
    (squeeze s).count c = s.count c :=
  List.count_filter (by simp [hc])

theorem getLast?_squeeze {s : List Char} {c : Char} (hs : s.getLast? = some c)
    (hc : isBlank c = false) : (squeeze s).getLast? = some c := by
  obtain ⟨front, rfl⟩ := List.getLast?_eq_some_iff.1 hs
  simp [squeeze, hc]

theorem squeeze_unlines (ls : List (List Char)) : squeeze (unlines ls) = ls.flatMap squeeze := by
  induction ls with
  | nil => rfl
  | cons l ls ih =>
      cases ls with
      | nil => simp [unlines, join]
      | cons m ls =>
          rw [unlines_cons l (List.cons_ne_nil m ls), squeeze_append,
            squeeze_cons_blank (c := '\n') rfl, ih]
          rfl

end Text

namespace Row

open Text

variable {rows laid : List Row} {text : List Char}

/-- The rows keep the quotes of a text if they keep the markers of its literals. -/
theorem count_quote {s t : List Char} (h : Literal.markers.tokens s = Literal.markers.tokens t) :
    s.count '"' = t.count '"' := by
  have hcount : ∀ s : List Char,
      (Literal.markers.tokens s).flatten.count '"' = s.count '"' := by
    intro s
    rw [View.flatten_tokens]
    exact List.count_filter rfl
  rw [← hcount s, ← hcount t, h]

theorem markers_unlines (rows : List Row) :
    Literal.markers.tokens (unlines (rows.map Row.text)) = Row.markers rows := by
  rw [View.tokens_unlines, List.flatMap_map]
  rfl

theorem squeeze_unlines_text (rows : List Row) :
    Text.squeeze (unlines (rows.map Row.text)) = Row.squeeze rows := by
  rw [squeeze_unlines, List.flatMap_map]
  rfl

theorem exists_last (hl : List.Forall₂ LaysOut rows laid) (hne : rows ≠ []) :
    ∃ r out init outs, rows = init ++ [r] ∧ laid = outs ++ [out] ∧ LaysOut r out := by
  rw [← List.forall₂_reverse_iff] at hl
  cases hr : rows.reverse with
  | nil => exact absurd (List.reverse_eq_nil_iff.1 hr) hne
  | cons r init =>
      rw [hr] at hl
      cases ho : laid.reverse with
      | nil => rw [ho] at hl; cases hl
      | cons out outs =>
          rw [ho] at hl
          cases hl with
          | cons hlast _ =>
              refine ⟨r, out, init.reverse, outs.reverse, ?_, ?_, hlast⟩
              · rw [← List.reverse_cons, ← hr, List.reverse_reverse]
              · rw [← List.reverse_cons, ← ho, List.reverse_reverse]

theorem Holds.laid_ne_nil (h : Holds text rows) (hl : List.Forall₂ LaysOut rows laid) :
    laid ≠ [] := by
  rintro rfl
  cases hl
  exact absurd h.split (lines_ne_nil _)

/-- A quote that ends a text ends its rows, as they keep the quotes and get nothing behind them. -/
theorem getLast?_squeeze_rows {s : List Char}
    (hmarkers : Row.markers rows = Literal.markers.tokens s)
    (hsqueeze : (Row.squeeze rows).Sublist (Text.squeeze s)) (hquote : s.getLast? = some '"') :
    (Row.squeeze rows).getLast? = some '"' := by
  refine sublist_getLast? hsqueeze (getLast?_squeeze hquote rfl) ?_
  rw [← squeeze_unlines_text, count_squeeze rfl, count_squeeze rfl]
  exact count_quote ((markers_unlines rows).trans hmarkers)

/-- A quote that ends a text also ends its layout. -/
theorem getLast?_laid (h : Holds text rows) (hl : List.Forall₂ LaysOut rows laid)
    (hquote : (Literal.lift text).text.getLast? = some '"') :
    (unlines (laid.map Row.text)).getLast? = some '"' := by
  have hrows := getLast?_squeeze_rows h.markers h.squeeze hquote
  have hlaid := getLast?_squeeze_rows ((markers_laid hl).trans h.markers)
    ((squeeze_laid hl).trans h.squeeze) hquote
  -- the last row holds a quote, and so does its layout
  obtain ⟨r, out, init, outs, rfl, rfl, hout⟩ := exists_last hl (by rintro rfl; cases hrows)
  have hr : '"' ∈ r.text := by
    rw [squeeze_append, List.getLast?_append] at hrows
    have hlast : Text.squeeze r.text ≠ [] := by
      by_cases hinit : init = []
      · rw [hinit] at hrows
        intro hnil
        simp [Row.squeeze, hnil] at hrows
      · exact h.squeeze_last hinit
    obtain ⟨c, hc⟩ := List.getLast?_isSome.2 hlast |> Option.isSome_iff_exists.1
    have hsingle : Row.squeeze [r] = Text.squeeze r.text := by simp [Row.squeeze]
    rw [hsingle, hc, Option.some_or, Option.some.injEq] at hrows
    rw [hrows] at hc
    exact List.mem_of_mem_filter (List.mem_of_getLast? hc)
  have hquotes : '"' ∈ out.text := by
    rw [← List.count_pos_iff, count_quote hout.markers_text, List.count_pos_iff]
    exact hr
  obtain ⟨c, hc⟩ : ∃ c, out.text.getLast? = some c :=
    Option.isSome_iff_exists.1 (List.getLast?_isSome.2 (List.ne_nil_of_mem hquotes))
  have hblank : isBlank c = false := by
    rw [← hout.trimRight_text] at hc
    exact getLast?_trimRight out.text c hc
  have hlast : (unlines ((outs ++ [out]).map Row.text)).getLast? = some c := by
    by_cases houts : outs = []
    · rw [houts]
      exact hc
    · rw [List.map_append, unlines_append (by simpa using houts) (by simp), List.getLast?_append]
      simp [unlines, join, List.getLast?_cons, hc]
  have := getLast?_squeeze hlast hblank
  rw [squeeze_unlines_text, hlaid, Option.some.injEq] at this
  rw [hlast, this]

/-- Rows that are laid out have the markers of all literals. -/
theorem Holds.marked_laid (h : Holds text rows) (hl : List.Forall₂ LaysOut rows laid) :
    Literal.Marked 0 (Literal.lift text).table.length (unlines (laid.map Row.text)) := by
  have hmarkers : Literal.markers.tokens (unlines (laid.map Row.text)) =
      Literal.markers.tokens (Literal.lift text).text := by
    rw [markers_unlines, markers_laid hl, h.markers]
  rw [Literal.Marked.congr hmarkers]
  exact Literal.marked_lift text

/-- Putting the comments of a layout back gives its rows with their comments written out. -/
theorem Holds.restore_code (h : Holds text rows) {u : Indentation.Units} (hu : u.Spaces) :
    Comment.restore (Layout.ofText text).comments.table ((Layout.ofText text).code u) =
      unlines (((Layout.ofText text).place u rows).map Row.text) := by
  have hl := Layout.laysOut hu h.sound h.split
  rw [Layout.code_eq hu h.sound h.split]
  refine restore_write (fun r hr => (clean_laid hl r hr).sound) ?_
  rw [List.drop_zero, bodies_laid hl, h.bodies]
  rfl

/-- The rows of a layout, and what is read from it. -/
theorem exists_reread {u : Indentation.Units} (hu : u.Spaces) (text : List Char) :
    ∃ rows, Holds text rows ∧ List.Forall₂ LaysOut rows ((Layout.ofText text).place u rows) ∧
      Literal.lift (layOut u text) =
        ⟨unlines (((Layout.ofText text).place u rows).map Row.text),
          (Literal.lift text).table⟩ := by
  obtain ⟨rows, h⟩ := exists_holds text
  have hl := Layout.laysOut hu h.sound h.split
  refine ⟨rows, h, hl, ?_⟩
  have hfits : Literal.Fits 0 (Literal.lift text).table
      (unlines (((Layout.ofText text).place u rows).map Row.text)) := by
    intro i l hi hl'
    refine (Literal.fits_liftFrom 0 text i l hi hl').imp_right fun hopen => ?_
    exact ⟨hopen.1, hopen.2.1, getLast?_laid h hl hopen.2.2⟩
  rw [layOut, Layout.render, h.restore_code hu]
  exact Literal.lift_restore (h.marked_laid hl) hfits

end Row

namespace Layout

/-- Lifting the comments of a layout gives the code that they were put back into. -/
theorem comments_ofText_layOut {u : Indentation.Units} (hu : u.Spaces) (text : List Char) :
    (ofText (layOut u text)).comments =
      ⟨(ofText text).code u, (ofText text).comments.table.map Comment.rendered⟩ := by
  obtain ⟨rows, h, hl, hread⟩ := Row.exists_reread hu text
  have hlift := Row.lift_unlines (h.laid_ne_nil hl) (Row.clean_laid hl) (Row.trimRight_laid hl)
  rw [← code_eq hu h.sound h.split, Row.bodies_laid hl, h.bodies] at hlift
  refine Eq.trans ?_ hlift
  exact congrArg (fun lifted : Lifted => Comment.lift lifted.text) hread

end Layout
end MiniScriptLayout
