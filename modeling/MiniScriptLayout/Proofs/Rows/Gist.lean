import MiniScriptLayout.Proofs.Rows.Bare

/-!
The gist of a line: the pieces of its code between blanks, and its comment. Lifting the comments of
a text goes by the gists of its lines, and a line with one statement is normalised by its gist.
-/

namespace MiniScriptLayout

namespace View

/-- The pieces of a text between blanks. A separator is a piece by itself. -/
def pieces : View where
  glued c := !Text.isBlank c && c != ';'
  kept c := !Text.isBlank c && c == ';'
  glued_blank c h := by simp [h]
  kept_blank c h := by simp [h]

theorem flatten_pieces (s : List Char) : (pieces.tokens s).flatten = Text.squeeze s := by
  rw [flatten_tokens, Text.squeeze]
  refine List.filter_congr fun c _ => ?_
  cases hc : c == ';' <;> simp [pieces, bne, hc]

theorem pieces_eq_nil {s : List Char} :
    pieces.tokens s = [] ↔ ∀ c ∈ s, Text.isBlank c = true := by
  constructor
  · intro h
    have hflat := flatten_pieces s
    rw [h] at hflat
    simpa [Text.squeeze] using hflat.symm
  · intro hb
    simpa [tokens] using tokens_blanks_append hb (v := pieces) []

end View

namespace Spacing

open Text

theorem startsBlank_cons (c : Char) (r : List Char) : startsBlank (c :: r) = isBlank c := rfl

/-- Collapsing writes the pieces of a text with one space between them, and with one before them if
a run of blanks begins the text. -/
theorem collapseFrom_eq {s : List Char} (hs : ';' ∉ s)
    (hlast : ∀ c ∈ s.getLast?, isBlank c = false) (inRun : Bool) :
    collapseFrom inRun s =
      (if !inRun && startsBlank s then [' '] else []) ++ join ' ' (View.pieces.tokens s) := by
  induction s generalizing inRun with
  | nil => simp [collapseFrom, startsBlank, View.tokens, join]
  | cons c r ih =>
      rw [List.mem_cons, not_or] at hs
      have hr : ∀ d ∈ r.getLast?, isBlank d = false := by
        cases r with
        | nil => simp
        | cons d r => simpa [List.getLast?_cons_cons] using hlast
      have ih := ih hs.2 hr
      by_cases hc : isBlank c = true
      · rw [View.tokens_blank hc, collapseFrom, if_pos hc]
        cases inRun <;> simp [ih, startsBlank, hc]
      · rw [Bool.not_eq_true] at hc
        have hglued : View.pieces.glued c = true := by
          simp [View.pieces, hc, Ne.symm hs.1]
        have hcollapse : collapseFrom inRun (c :: r) = c :: collapseFrom false r := by
          simp [collapseFrom, hc]
        simp only [hcollapse, ih, startsBlank_cons, hc, Bool.and_false, Bool.false_eq_true,
          if_false, List.nil_append, View.tokens, hglued, if_true]
        cases r with
        | nil => simp [startsBlank, View.continues, View.tokens, join]
        | cons d r =>
            cases hd : isBlank d with
            | true =>
                -- something other than a blank follows, as the text ends in none
                have hne : View.pieces.tokens (d :: r) ≠ [] := by
                  rw [Ne, View.pieces_eq_nil]
                  intro hb
                  obtain ⟨e, he⟩ := Option.isSome_iff_exists.1
                    (List.getLast?_isSome.2 (List.cons_ne_nil d r))
                  have hblank := hb e (List.mem_of_getLast? he)
                  rw [hr e he] at hblank
                  cases hblank
                simp [startsBlank_cons, hd, View.continues_blank hd, join_cons [c] hne]
            | false =>
                have hcontinues : View.pieces.continues (d :: r) = true := by
                  have hsemicolon : d ≠ ';' := fun heq => hs.2 (by simp [heq])
                  simp [View.continues, View.pieces, hd, hsemicolon]
                obtain ⟨e, t, w, ws, -, hw⟩ := View.tokens_of_continues hcontinues
                simp [startsBlank_cons, hd, hcontinues, hw, consPiece, join_cons_cons]

theorem collapse_trim {s : List Char} (hs : ';' ∉ s) :
    collapse (trim s) = join ' ' (View.pieces.tokens s) := by
  have h := collapseFrom_eq (fun hmem => hs (mem_of_mem_trim hmem)) (getLast?_trim s) false
  have hhead : startsBlank (trim s) = false := by
    unfold startsBlank
    cases hc : (trim s).head? with
    | none => rfl
    | some c => exact head?_trim s c hc
  rw [collapse, h, hhead, View.tokens_trim]
  rfl

end Spacing

namespace Comment

open Text

variable {ls ls' : List (List Char)}

/-- The pieces of a line's code, and its comment without the blanks at the end. -/
def gist (line : List Char) : List (List Char) × Option (List Char) :=
  (View.pieces.tokens (parts line).1, (parts line).2)

theorem gist_eq (line : List Char) :
    gist line = (View.pieces.tokens (cut line).1, (cut line).2.map trimRight) := by
  rw [gist, parts, View.tokens_trim]

theorem map_gist_of_map_parts (h : ls.map parts = ls'.map parts) :
    ls.map gist = ls'.map gist := by
  have hgist : gist = (fun p => (View.pieces.tokens p.1, p.2)) ∘ parts := rfl
  rw [hgist, ← List.map_map, ← List.map_map, h]

theorem gist_eq_nil {line : List Char} : (gist line).1 = [] ↔ (parts line).1 = [] := by
  rw [gist, View.pieces_eq_nil, ← trim_eq_nil, parts, trim_trim]

theorem isBlankLine_gist (line : List Char) :
    isBlankLine line = decide (gist line = ([], none)) := by
  rw [isBlankLine_eq]
  refine decide_eq_decide.2 ?_
  rw [Prod.ext_iff, Prod.ext_iff, gist_eq_nil]
  rfl

end Comment

namespace CodeLine

open Text Comment

/-- A line with one statement is normalised by its gist. -/
theorem normalize_congr {l l' : List Char} (h : gist l = gist l') (hfeed : '\n' ∉ l)
    (hfeed' : '\n' ∉ l') (hs : ';' ∉ l) (hs' : ';' ∉ l') (continued : Bool) :
    (ofText l).normalize continued = (ofText l').normalize continued := by
  have hcollapse : ∀ line : List Char, ';' ∉ line →
      Spacing.collapse (parts line).1 = Text.join ' ' (gist line).1 := by
    intro line hline
    have hcode : ';' ∉ (cut line).1 := fun hmem =>
      hline ((Row.isPrefix_front ⟨line, none⟩).subset hmem)
    rw [parts, Spacing.collapse_trim hcode, gist_eq]
  have hcomment : (parts l).2 = (parts l').2 := (Prod.ext_iff.1 h).2
  have hcode : Spacing.normalize (parts l).1 = Spacing.normalize (parts l').1 := by
    rw [Spacing.normalize, Spacing.normalize, hcollapse l hs, hcollapse l' hs', h]
  simp only [ofText_parts hfeed, ofText_parts hfeed', normalize, hcode, hcomment]

theorem ofLines_congr {ls ls' : List (List Char)} (h : ls.map gist = ls'.map gist)
    (hls : ∀ l ∈ ls, '\n' ∉ l ∧ ';' ∉ l) (hls' : ∀ l ∈ ls', '\n' ∉ l ∧ ';' ∉ l)
    (continued : Bool) : ofLines continued ls = ofLines continued ls' := by
  induction ls generalizing ls' continued with
  | nil => rw [List.map_eq_nil_iff.1 h.symm]
  | cons l ls ih =>
      cases ls' with
      | nil => simp at h
      | cons l' ls' =>
          rw [List.forall_mem_cons] at hls hls'
          simp only [List.map_cons, List.cons.injEq] at h
          simp only [ofLines]
          rw [normalize_congr h.1 hls.1.1 hls'.1.1 hls.1.2 hls'.1.2 continued,
            ih h.2 hls.2 hls'.2]

end CodeLine

namespace Row

open Text Comment

/-- The gist of a line whose comment is lifted. -/
theorem gist_lifted (n : Nat) (line : List Char) :
    gist ((ofLine line).lifted n) =
      if (ofLine line).body.isSome then ((gist line).1, some (trimRight ('$' :: decimal n)))
      else gist line := by
  unfold ofLine ofLine?
  cases hcut : cut line with
  | mk code rest =>
      cases rest with
      | none => simp [lifted]
      | some rest =>
          have hlifted := cut_append (cut_eq_some hcut).2 ('$' :: decimal n)
          dsimp only
          split
          · simp [lifted]
          · simp [gist_eq, lifted, marker_eq, hlifted, hcut]

theorem lines_lift (s : List Char) : lines (Comment.lift s).text = write 0 (ofText s) := by
  rw [lift_eq]
  exact lines_unlines_write (by simp [ofText, lines_ne_nil])
    (sound_map_ofLine (not_mem_lines (joinReturns s)))

theorem map_gist_joinReturns (s : List Char) :
    (lines (joinReturns s)).map gist = (lines s).map gist := by
  have hparts := parts_joinReturns (lines_ne_nil s) (not_mem_lines s)
  rw [unlines_lines] at hparts
  exact map_gist_of_map_parts hparts

/-- What is left of a comment that is lifted holds no separator. -/
theorem Sound.not_mem_comment {r : Row} (hr : r.Sound) (n : Nat) :
    ∀ b ∈ (gist (r.lifted n)).2, ';' ∉ b := by
  intro b hb
  cases hr with
  | @plain code _ hrest =>
      rw [lifted, Option.map_none, Option.getD_none, List.append_nil, gist_eq] at hb
      obtain ⟨rest, hcut, rfl⟩ := Option.map_eq_some_iff.1 hb
      rw [trimRight_eq_nil.2 (hrest _ rest (Prod.ext rfl hcut))]
      exact List.not_mem_nil
  | @comment code body h =>
      have hcut := cut_append h.opens ('$' :: decimal n)
      simp only [gist_eq, lifted, marker_eq, Option.map_some, Option.getD_some, hcut,
        Option.mem_some_iff] at hb
      subst hb
      intro hmem
      have hsemicolon : ';' ∈ '$' :: decimal n := (trimRight_sublist _).subset hmem
      have hmarker : ';' ∈ Comment.marker.write n := by
        rw [marker_eq]
        exact List.mem_cons_of_mem '/' (List.mem_cons_of_mem '/' hsemicolon)
      exact not_mem_marker rfl (by decide) (by decide) hmarker

theorem not_mem_comment_lift (s : List Char) :
    ∀ l ∈ lines (Comment.lift s).text, ∀ b ∈ (gist l).2, ';' ∉ b := by
  intro l hl
  rw [lines_lift] at hl
  obtain ⟨n, r, hr, rfl⟩ := exists_of_mem_write hl
  exact (sound_map_ofLine (not_mem_lines _) r hr).not_mem_comment n

end Row

end MiniScriptLayout
