import MiniScriptLayout.Proofs.Lifting.Literal
import MiniScriptLayout.Proofs.Rows.Restoring
import MiniScriptLayout.Proofs.Rows.Statement

/-!
The rows of a text. Lifting the comments of a text whose literals are lifted, and breaking it into
statements, gives rows that hold all comments in order, each in a row of its own, and the markers of
all literals.
-/

namespace MiniScriptLayout

namespace View

variable {v : View}

/-- Rendering a comment only changes the blanks behind its slashes. -/
theorem same_render (hv : v.glued '/' = false) (body : List Char) :
    v.Same (Comment.render body) ('/' :: '/' :: body) := by
  have gap : ∀ t : List Char, v.Same ('/' :: '/' :: ' ' :: t) ('/' :: '/' :: t) := fun t =>
    Same.append_loose (x := ['/', '/']) (by simp) (by simpa using hv) (tokens_blank rfl t)
  fun_cases Comment.render body with
  | case1 => exact .refl _
  | case2 body _ => exact .refl _
  | case3 body _ =>
      exact Same.append_loose (x := ['/', '/', '/']) (by simp) (by simpa using hv)
        (tokens_blank rfl body)
  | case4 body _ _ _ => exact .refl _
  | case5 body _ _ _ => exact gap body

theorem tokens_text_ofLine (hv : v.glued '/' = false) (line : List Char) :
    v.tokens (Row.ofLine line).text = v.tokens line := by
  rcases Row.ofLine_cases line with ⟨h, -⟩ | ⟨code, rest, rfl, -, -, h⟩
  · rw [h, Row.text]
    simp
  · rw [h, Row.text, Option.map_some, Option.getD_some]
    have hrest : v.Same ('/' :: '/' :: Text.trimRight rest) ('/' :: '/' :: rest) :=
      (same_trimRight rest).append_left ['/', '/']
    exact (((same_render hv _).trans hrest).append_left code).1

end View

namespace Row

open Text

/-- The rows that a text is read as before it is broken into statements. -/
def ofText (s : List Char) : List Row :=
  (lines (joinReturns s)).map ofLine

theorem lift_eq (s : List Char) :
    Comment.lift s = ⟨unlines (write 0 (ofText s)), bodies (ofText s)⟩ := by
  rw [Comment.lift, liftLines_eq]
  rfl

theorem tokens_ofText {v : View} (hv : v.glued '/' = false) (s : List Char) :
    (ofText s).flatMap (fun r => v.tokens r.text) = v.tokens s := by
  rw [ofText, List.flatMap_map]
  simp only [View.tokens_text_ofLine hv]
  rw [← View.tokens_unlines, unlines_lines, View.tokens_joinReturns]

theorem squeeze_ofText (s : List Char) : squeeze (ofText s) = Text.squeeze s := by
  have hsingle : ∀ t : List Char,
      ((View.single fun _ => true).tokens t).flatMap id = Text.squeeze t := by
    intro t
    rw [View.tokens_single, List.flatMap_map]
    simp [View.single, Text.squeeze]
  have h := congrArg (List.flatMap id) (tokens_ofText (v := .single fun _ => true) rfl s)
  rw [List.flatMap_assoc] at h
  simp only [hsingle] at h
  exact h

/-- The statements of a text, as rows. -/
structure Holds (text : List Char) (rows : List Row) : Prop where
  split : Statement.split (Comment.lift (Literal.lift text).text).text = write 0 rows
  bodies : bodies rows = (Comment.lift (Literal.lift text).text).table
  sound : ∀ r ∈ rows, r.Sound
  markers : markers rows = Literal.markers.tokens (Literal.lift text).text
  squeeze : (squeeze rows).Sublist (Text.squeeze (Literal.lift text).text)

theorem exists_holds (text : List Char) : ∃ rows, Holds text rows := by
  have hne : ofText (Literal.lift text).text ≠ [] := by
    simpa [ofText] using lines_ne_nil _
  have hs : ∀ r ∈ ofText (Literal.lift text).text, r.Sound :=
    sound_map_ofLine (not_mem_lines _)
  obtain ⟨rows, hk, hsplit⟩ := exists_split (n := 0) hne hs
  refine ⟨rows, ?_, ?_, hk.sound hs, ?_, ?_⟩
  · rw [lift_eq, hsplit]
  · rw [lift_eq, hk.bodies]
  · rw [hk.markers, markers, tokens_ofText rfl]
  · have := hk.squeeze
    rwa [squeeze_ofText] at this

/-- The last row is not blank, unless it is the only one. -/
theorem Holds.squeeze_last {text : List Char} {init : List Row} {r : Row}
    (h : Holds text (init ++ [r])) (hinit : init ≠ []) : Text.squeeze r.text ≠ [] := by
  intro hsqueeze
  have hblank : ∀ c ∈ r.text, isBlank c = true := by
    simpa [Text.squeeze, List.filter_eq_nil_iff] using hsqueeze
  have hlifted : ∀ n, ∀ c ∈ '\n' :: r.lifted n, isBlank c = true := by
    intro n c hc
    obtain ⟨code, body⟩ := r
    cases body with
    | none =>
        rcases List.mem_cons.1 hc with rfl | hc
        · rfl
        · exact hblank c (by simpa [lifted, Row.text] using hc)
    | some b =>
        have := hblank '/' (by simp [Row.text, Comment.render_eq])
        simp [isBlank] at this
  -- the statements are the lines of a trimmed text, which does not end in blanks
  have htrim := congrArg unlines h.split
  rw [Statement.split, unlines_lines, unlines_write_append hinit (by simp),
    unlines_write_single] at htrim
  have hself := congrArg trimRight htrim
  rw [trim, trimRight_trimRight, ← trim, htrim, trimRight_append_blanks _ (hlifted _)] at hself
  have hlength := congrArg List.length hself
  have := length_trimRight_le (unlines (write 0 init))
  simp only [List.length_append, List.length_cons] at hlength
  omega

end Row
end MiniScriptLayout
