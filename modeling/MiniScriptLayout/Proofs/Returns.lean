import Mathlib
import MiniScriptLayout.Proofs.Respacing
import MiniScriptLayout.Proofs.Rows.Coarser

/-!
Carriage returns. One that a line feed follows does not matter, but one alone is a blank to the
layout and not a line end: the lines at both sides of it are merged, and a comment goes on behind
it.
-/

namespace MiniScriptLayout

open Text

namespace Entry

open Comment

/-- A line has less in its comment than in all. -/
theorem ink_gist {line : List Char} (h : ¬ ∀ c ∈ line, Text.isBlank c = true) :
    ink (entries (gist line)) < (squeeze line).length := by
  rw [ink_entries, gist_eq]
  cases hcut : cut line with
  | mk code rest =>
      cases rest with
      | none => exact List.length_pos_iff.2 (mt squeeze_eq_nil.1 h)
      | some rest =>
          obtain ⟨rfl, -⟩ := cut_eq_some hcut
          have hslashes : squeeze ('/' :: '/' :: rest) = '/' :: '/' :: squeeze rest := by
            simp [squeeze, Text.isBlank]
          rw [squeeze_append, hslashes]
          simp only [Option.map_some, Option.getD_some, squeeze_trimRight, List.length_append,
            List.length_cons]
          omega

/-- Reading one carriage return as a line end. -/
theorem coarser_return (p q : List Char) :
    Coarser (entries (gist (p ++ '\r' :: q))) (entries (gist p) ++ entries (gist q)) := by
  cases hcut : cut p with
  | mk code rest =>
      cases rest with
      | none =>
          have hp : gist p = (View.pieces.tokens p, none) :=
            gist_of_slashesApart (cut_eq_none hcut).2
          have hline : gist (p ++ (['\r'] ++ q)) =
              (View.pieces.tokens p ++ (gist q).1, (gist q).2) :=
            Respaced.gist_gap (congrArg Prod.snd hcut) (by simp)
              (List.forall_mem_singleton.2 rfl) q
          rw [List.singleton_append] at hline
          rw [hline, hp]
          exact coarser_append _ (gist q)
      | some rest =>
          obtain ⟨rfl, hopen⟩ := cut_eq_some hcut
          rw [List.append_assoc, List.cons_append, List.cons_append, gist_comment hopen,
            gist_comment hopen]
          by_cases hq : ∀ c ∈ q, Text.isBlank c = true
          · have hblank : gist q = ([], none) := of_decide_eq_true
              ((isBlankLine_gist q).symm.trans (isBlankLine_iff.2 hq))
            rw [trimRight_append_blanks rest (List.forall_mem_cons.2 ⟨rfl, hq⟩), hblank]
            exact .append_blank _
          · refine coarser_comment ?_ _
            have hink := ink_gist hq
            rw [squeeze_trimRight, squeeze_trimRight, squeeze_append, squeeze_cons_blank rfl,
              List.length_append]
            omega

/-- Reading all carriage returns of a line as line ends. -/
theorem coarser_line (l : List Char) :
    Coarser (entries (gist l)) ((Text.split '\r' l).flatMap fun p => entries (gist p)) := by
  suffices h : ∀ ps, ps ≠ [] → Coarser (entries (gist (join '\r' ps)))
      (ps.flatMap fun p => entries (gist p)) by
    have hline := h (Text.split '\r' l) (split_ne_nil '\r' l)
    rwa [join_split] at hline
  intro ps hps
  induction ps with
  | nil => exact absurd rfl hps
  | cons p ps ih =>
      cases ps with
      | nil =>
          rw [List.flatMap_singleton]
          exact .refl _
      | cons q ps =>
          rw [join_cons p (by simp), List.flatMap_cons]
          exact (coarser_return p _).trans (Coarser.append_left _ (ih (by simp)))

/-- Reading all carriage returns of a text as line ends. -/
theorem coarser_toLineFeeds (s : List Char) : Coarser (ofText s) (ofText (toLineFeeds s)) := by
  rw [← ofText_joinReturns, ofText, ofText, lines_toLineFeeds, List.flatMap_assoc]
  exact .flatMap fun l _ => coarser_line l

end Entry

namespace Layout

/-- Two layouts have as many lines and the same comments. -/
structure Alike (l l' : Layout) : Prop where
  lines : l.lines.length = l'.lines.length
  comments : l.comments.table = l'.comments.table

variable {u : Indentation.Units} {text text' : List Char}

theorem alike_of_trimAll (h : Entry.trimAll (Entry.ofText (Literal.lift text).text) =
    Entry.trimAll (Entry.ofText (Literal.lift text').text)) :
    (ofText text).Alike (ofText text') where
  lines := by rw [length_lines_ofText, length_lines_ofText, h]
  comments := by
    rw [table_comments_ofText, table_comments_ofText, ← Entry.bodies_trimAll, h,
      Entry.bodies_trimAll]

theorem Alike.not_fewer (h : (ofText text).Alike (ofText text')) :
    ¬ Entry.Fewer (Entry.ofText (Literal.lift text).text)
      (Entry.ofText (Literal.lift text').text) := by
  obtain ⟨hlines, hcomments⟩ := h
  rw [length_lines_ofText, length_lines_ofText] at hlines
  rw [table_comments_ofText, table_comments_ofText] at hcomments
  exact Entry.not_fewer hlines (by rw [Entry.ink, hcomments]; rfl) (by rw [hcomments])

theorem length_lines_layOut (hquote : '"' ∉ text) (hu : u.Spaces) :
    (Text.lines (layOut u text)).length = (ofText text).lines.length := by
  obtain ⟨rows, h⟩ := Row.exists_holds text
  rw [h.lines_of_not_mem hquote hu, List.length_map, Row.length_lay, lines_eq h.split,
    length_ofLines, Row.length_write]

/-- A layout shows how many lines it has, and its comments but for the blanks before them. -/
theorem not_fewer_of_layOut_eq (hquote : '"' ∉ text) (hquote' : '"' ∉ text') (hu : u.Spaces)
    (h : layOut u text = layOut u text') :
    ¬ Entry.Fewer (Entry.ofText (Literal.lift text).text)
      (Entry.ofText (Literal.lift text').text) := by
  have hlength := length_lines_layOut hquote hu
  rw [h, length_lines_layOut hquote' hu, length_lines_ofText, length_lines_ofText] at hlength
  have hrendered := congrArg Lifted.table (comments_ofText_layOut hu text)
  rw [h, comments_ofText_layOut hu text', table_comments_ofText, table_comments_ofText]
    at hrendered
  refine Entry.not_fewer hlength.symm ?_ (by simpa using (congrArg List.length hrendered).symm)
  have hsqueeze := congrArg (fun table => (table.flatMap squeeze).length) hrendered.symm
  simpa [List.flatMap_map, Comment.squeeze_rendered, Entry.ink] using hsqueeze

end Layout

/-- A text without literals is laid out like the text with line feeds for its carriage returns if
there are as many lines and the same comments, and with units of spaces and tabs only then. There
are never more lines, and a carriage return before a line feed makes no difference. -/
theorem layOut_toLineFeeds_iff {text : List Char} (hquote : '"' ∉ text) :
    (Layout.ofText text).lines.length ≤ (Layout.ofText (toLineFeeds text)).lines.length ∧
      ∀ u : Indentation.Units,
        ('\r' ∉ joinReturns text → layOut u text = layOut u (toLineFeeds text)) ∧
        ((Layout.ofText text).Alike (Layout.ofText (toLineFeeds text)) →
          layOut u text = layOut u (toLineFeeds text)) ∧
        (u.Spaces → layOut u text = layOut u (toLineFeeds text) →
          (Layout.ofText text).Alike (Layout.ofText (toLineFeeds text))) := by
  have hquote' : '"' ∉ toLineFeeds text := fun hmem =>
    hquote (mem_of_mem_toLineFeeds (by decide) hmem)
  have hlift := Literal.lift_of_not_mem hquote
  have hlift' := Literal.lift_of_not_mem hquote'
  have htable : (Literal.lift text).table = (Literal.lift (toLineFeeds text)).table := by
    rw [hlift, hlift']
  have hcoarser : Entry.Coarser (Entry.ofText (Literal.lift text).text)
      (Entry.ofText (Literal.lift (toLineFeeds text)).text) := by
    rw [hlift, hlift']
    exact Entry.coarser_toLineFeeds text
  refine ⟨?_, fun u => ⟨fun hreturn => ?_, fun h => ?_, fun hu h => ?_⟩⟩
  · rw [Layout.length_lines_ofText, Layout.length_lines_ofText]
    rcases hcoarser.eq_or_fewer with heq | hless | ⟨heq, -⟩
    · rw [heq]
    · exact hless.le
    · exact heq.le
  · refine Layout.layOut_entries htable ?_ u
    rw [hlift, hlift', toLineFeeds_eq_joinReturns hreturn, Entry.ofText_joinReturns]
  · exact Layout.layOut_entries htable (hcoarser.eq_or_fewer.resolve_right h.not_fewer) u
  · have hfewer := Layout.not_fewer_of_layOut_eq hquote hquote' hu h
    exact Layout.alike_of_trimAll (hcoarser.eq_or_fewer.resolve_right hfewer)

/-- A separator before a carriage return is a line end already. -/
theorem layOut_toLineFeeds_separator :
    let text := "a;\rb // c".toList
    '"' ∉ text ∧
      (Layout.ofText text).lines.length ≤ (Layout.ofText (toLineFeeds text)).lines.length ∧
      (Layout.ofText text).Alike (Layout.ofText (toLineFeeds text)) ∧
      ∀ u, layOut u text = layOut u (toLineFeeds text) := by
  intro text
  have hquote : '"' ∉ text := by decide
  have hquote' : '"' ∉ toLineFeeds text := by decide
  have halike : (Layout.ofText text).Alike (Layout.ofText (toLineFeeds text)) := by
    apply Layout.alike_of_trimAll
    rw [Literal.lift_of_not_mem hquote, Literal.lift_of_not_mem hquote']
    decide
  obtain ⟨hlines, hlayOut⟩ := layOut_toLineFeeds_iff hquote
  exact ⟨hquote, hlines, halike, fun u => (hlayOut u).2.1 halike⟩

/-- Two lines that a carriage return separates are merged. -/
theorem layOut_merges_lines :
    let text := "a\rb".toList
    '"' ∉ text ∧ layOut Options.standard.units text ≠
      layOut Options.standard.units (toLineFeeds text) := by
  intro text
  have hmerged : layOut Options.standard.units text = "a b".toList := by cbv
  have hlines : layOut Options.standard.units (toLineFeeds text) = "a\nb".toList := by cbv
  refine ⟨by decide, ?_⟩
  rw [hmerged, hlines]
  decide

end MiniScriptLayout
