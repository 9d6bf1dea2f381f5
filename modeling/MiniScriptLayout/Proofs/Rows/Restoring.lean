import MiniScriptLayout.Proofs.Rows.Lifted

/-!
Putting comments back. Clean rows get their comments back row by row, and lifting the comments of
the text they make gives the same rows with the comments as they were rendered.
-/

namespace MiniScriptLayout

namespace Comment

open Text

/-- The body of a comment as it is rendered. -/
def rendered (body : List Char) : List Char :=
  (render body).drop 2

theorem render_eq (body : List Char) : render body = '/' :: '/' :: rendered body := by
  unfold rendered
  fun_cases render body <;> rfl

/-- Rendering adds nothing to a comment that is rendered already. -/
theorem render_rendered (body : List Char) : render (rendered body) = render body := by
  rw [render_eq body]
  unfold rendered
  fun_cases render body <;> simp_all [render, startsBlank, isBlank]

theorem rendered_eq_nil {body : List Char} : rendered body = [] ↔ body = [] := by
  unfold rendered
  fun_cases render body <;> simp_all

theorem mem_rendered {body : List Char} {c : Char} (h : c ∈ rendered body) :
    c ∈ body ∨ c = ' ' := by
  unfold rendered at h
  revert h
  fun_cases render body <;> simp_all <;> tauto

theorem getLast?_rendered (body : List Char) : (rendered body).getLast? = body.getLast? := by
  unfold rendered
  fun_cases render body with
  | case1 => rfl
  | case2 body _ => rfl
  | case3 body h =>
      cases body with
      | nil => simp at h
      | cons c body => simp [List.getLast?_cons_cons]
  | case4 body _ _ _ => rfl
  | case5 body hnil _ _ =>
      cases body with
      | nil => exact absurd rfl hnil
      | cons c body => simp [List.getLast?_cons_cons]

theorem squeeze_rendered (body : List Char) : squeeze (rendered body) = squeeze body := by
  unfold rendered
  fun_cases render body <;> simp [squeeze, isBlank]

end Comment

namespace Row

open Text

variable {n : Nat} {r : Row} {rows : List Row} {table : List (List Char)}

theorem pieces_cons {c : Char} {s : List Char} (h : ¬ ['/', '/', '$'] <+: c :: s) :
    Comment.marker.pieces (c :: s) = .char c :: Comment.marker.pieces s :=
  Marker.pieces_cons h

theorem pieces_append {code : List Char} (h : SlashesApart code) (s : List Char)
    (hs : s.head? = some '/' → OpensComment code) :
    Comment.marker.pieces (code ++ s) = code.map .char ++ Comment.marker.pieces s := by
  induction code with
  | nil => rfl
  | cons c code ih =>
      rw [List.cons_append, pieces_cons, ih h.tail fun hhead => (hs hhead).tail, List.map_cons,
        List.cons_append]
      rintro ⟨t, ht⟩
      simp only [List.cons_append, List.nil_append, List.cons.injEq] at ht
      obtain ⟨rfl, ht⟩ := ht
      cases code with
      | nil =>
          rw [List.nil_append] at ht
          exact (hs (by rw [← ht]; rfl)).not_pair ⟨[], rfl⟩
      | cons d code =>
          simp only [List.cons_append, List.cons.injEq] at ht
          exact h.not_pair ⟨code, by rw [← ht.1]; rfl⟩

/-- Slashes with blanks alone behind them are no marker. -/
theorem pieces_bare {rest tail : List Char} (hblank : ∀ c ∈ rest, isBlank c = true)
    (htail : ∀ c ∈ tail.head?, c = '\n') :
    Comment.marker.pieces ('/' :: '/' :: (rest ++ tail)) =
      ('/' :: '/' :: rest).map .char ++ Comment.marker.pieces tail := by
  have hhead : ∀ c ∈ (rest ++ tail).head?, isBlank c = true := by
    intro c hc
    cases rest with
    | nil =>
        rw [htail c hc]
        rfl
    | cons d rest => exact hblank c (by simpa using Or.inl (Option.some.inj hc).symm)
  have hapart : SlashesApart rest := .of_not_mem fun hmem => absurd (hblank '/' hmem) (by decide)
  have hrest := pieces_append hapart tail fun h => absurd (htail '/' h) (by decide)
  rw [pieces_cons, pieces_cons, hrest]
  · rfl
  · rintro ⟨t, ht⟩
    exact absurd (hhead '/' (by rw [← (List.cons.inj ht).2]; rfl)) (by decide)
  · rintro ⟨t, ht⟩
    exact absurd (hhead '$' (by rw [← (List.cons.inj (List.cons.inj ht).2).2]; rfl)) (by decide)

/-- Code without a comment has no marker. -/
theorem pieces_plain {code tail : List Char} (hr : (⟨code, none⟩ : Row).Sound)
    (htail : ∀ c ∈ tail.head?, c = '\n') :
    Comment.marker.pieces (code ++ tail) = code.map .char ++ Comment.marker.pieces tail := by
  cases hr with
  | plain _ hrest =>
      cases hcut : Comment.cut code with
      | mk front rest =>
          cases rest with
          | none =>
              obtain ⟨rfl, hapart⟩ := Comment.cut_eq_none hcut
              exact pieces_append hapart tail fun h => absurd (htail '/' h) (by decide)
          | some rest =>
              obtain ⟨rfl, hopen⟩ := Comment.cut_eq_some hcut
              have hcode := pieces_append hopen.slashesApart ('/' :: '/' :: (rest ++ tail))
                fun _ => hopen
              rw [pieces_bare (hrest front rest hcut) htail] at hcode
              simpa using hcode

/-- The marker of a row is found, and nothing else is one. -/
theorem pieces_lifted (hr : r.Sound) {tail : List Char} (htail : ∀ c ∈ tail.head?, c = '\n') :
    Comment.marker.pieces (r.lifted n ++ tail) =
      r.code.map .char ++ ((r.body.map fun _ => Marker.Piece.slot n (decimal n)).toList ++
        Comment.marker.pieces tail) := by
  obtain ⟨code, body⟩ := r
  cases body with
  | none => simpa [lifted] using pieces_plain hr htail
  | some b =>
      cases hr with
      | comment h =>
          have hmarker : Comment.marker.pieces (Comment.marker.write n ++ tail) =
              .slot n (decimal n) :: Comment.marker.pieces tail := by
            refine Marker.pieces_write (by simp [Comment.marker]) fun d hd => ?_
            simp only [Comment.marker, List.nil_append] at hd
            rw [htail d hd]
            decide
          have hcode := pieces_append h.opens.slashesApart (Comment.marker.write n ++ tail)
            fun _ => h.opens
          rw [hmarker] at hcode
          simpa [lifted] using hcode

/-- The text of some rows is cut at the marker of the first one, and then as that of the others. -/
theorem pieces_write_cons (hr : r.Sound) (rows : List Row) :
    Comment.marker.pieces (unlines (write n (r :: rows))) =
      r.code.map .char ++ ((r.body.map fun _ => Marker.Piece.slot n (decimal n)).toList ++
        if rows = [] then []
        else .char '\n' :: Comment.marker.pieces (unlines (write (r.next n) rows))) := by
  split
  · rename_i hrows
    have hpieces := @pieces_lifted n r hr [] (by simp)
    rw [List.append_nil, Marker.pieces_nil] at hpieces
    rw [hrows, unlines_write_single, hpieces]
  · rename_i hrows
    rw [unlines_write_cons hrows, pieces_lifted hr (by simp), pieces_cons (by simp)]

/-- The comments of rows are put back row by row. -/
theorem restore_write (hs : ∀ r ∈ rows, r.Sound) (htable : table.drop n = bodies rows) :
    Comment.restore table (unlines (write n rows)) = unlines (rows.map text) := by
  induction rows generalizing n with
  | nil => exact Marker.fill_nil
  | cons r rows ih =>
      rw [List.forall_mem_cons] at hs
      have hrest : table.drop (r.next n) = bodies rows := by
        cases hr : r.body with
        | none => simpa [next, bodies, hr] using htable
        | some b =>
            have : (table.drop n).drop 1 = bodies rows := by
              rw [htable]
              simp [bodies, hr]
            simpa [next, hr] using this
      have hslot : (r.body.map fun _ => Marker.Piece.slot n (decimal n)).toList.flatMap
          (Marker.Piece.fill Comment.marker (table.map Comment.render)) =
          (r.body.map Comment.render).getD [] := by
        cases hr : r.body with
        | none => rfl
        | some b =>
            have : (table.drop n)[0]? = some b := by
              rw [htable]
              simp [bodies, hr]
            have hbody : table[n]? = some b := by simpa using this
            simp [Marker.Piece.fill, hbody]
      rw [Comment.restore, Marker.fill, pieces_write_cons hs.1, List.flatMap_append,
        List.flatMap_append, Marker.fill_chars, hslot, ← List.append_assoc]
      change r.text ++ _ = _
      split
      · rename_i hrows
        rw [hrows, List.flatMap_nil, List.append_nil]
        rfl
      · rename_i hrows
        rw [List.map_cons, unlines_cons r.text (by simpa using hrows), ← ih hs.2 hrest]
        rfl

/-- The row as it is read from its text. -/
def reread (r : Row) : Row :=
  ⟨r.code, r.body.map Comment.rendered⟩

theorem ofLine_text (hr : r.Clean) : ofLine r.text = r.reread := by
  cases hr with
  | plain _ h => simp [ofLine, Comment.ofLine?, text, reread, Comment.cut_of_slashesApart h]
  | @comment code b h =>
      have hcut : Comment.cut (code ++ Comment.render b) = (code, some (Comment.rendered b)) := by
        rw [Comment.render_eq, Comment.cut_append h.opens]
      have htrim : trimRight (Comment.rendered b) = Comment.rendered b := by
        refine trimRight_eq_self ?_
        rw [Comment.getLast?_rendered, ← h.trimmed]
        exact getLast?_trimRight b
      have hall : ((Comment.rendered b).isEmpty && !code.all isBlank) = false := by
        rw [Bool.and_eq_false_imp, List.isEmpty_iff, Comment.rendered_eq_nil]
        intro hnil
        simpa using h.bare hnil
      simp [ofLine, Comment.ofLine?, text, reread, hcut, htrim, hall]

/-- Writing out a comment brings in slashes and a space. -/
theorem not_mem_text {c : Char} (hcode : c ∉ r.code) (hbody : ∀ b ∈ r.body, c ∉ b)
    (hslash : c ≠ '/') (hspace : c ≠ ' ') : c ∉ r.text := by
  rw [text, List.mem_append, not_or]
  refine ⟨hcode, ?_⟩
  cases hr : r.body with
  | none => exact List.not_mem_nil
  | some b =>
      have hb : c ∉ Comment.rendered b := fun hmem =>
        (Comment.mem_rendered hmem).elim (hbody b hr) hspace
      simpa [Comment.render_eq, hslash] using hb

theorem Clean.not_mem_text (hr : r.Clean) : '\n' ∉ r.text := by
  cases hr with
  | plain hline _ => exact Row.not_mem_text hline (by simp) (by decide) (by decide)
  | comment h =>
      refine Row.not_mem_text h.line ?_ (by decide) (by decide)
      rintro b ⟨⟩
      exact h.bodyLine

theorem write_reread : write n (rows.map reread) = write n rows := by
  induction rows generalizing n with
  | nil => rfl
  | cons r rows ih =>
      have hlifted : r.reread.lifted n = r.lifted n := by
        cases hr : r.body <;> simp [lifted, reread, hr]
      have hnext : r.reread.next n = r.next n := by simp [next, reread]
      rw [List.map_cons, write, write, ih, hlifted, hnext]

theorem bodies_reread : bodies (rows.map reread) = (bodies rows).map Comment.rendered := by
  rw [bodies, bodies, List.filterMap_map, List.map_filterMap]
  rfl

theorem joinReturns_unlines {ls : List (List Char)} (hline : ∀ l ∈ ls, '\n' ∉ l)
    (hlast : ∀ l ∈ ls, trimRight l = l) : joinReturns (unlines ls) = unlines ls := by
  induction ls with
  | nil => rfl
  | cons l ls ih =>
      rw [List.forall_mem_cons] at hline hlast
      cases ls with
      | nil => exact joinReturns_of_not_mem hline.1
      | cons m ls =>
          have hreturn : l.getLast? ≠ some '\r' := by
            intro heq
            rw [← hlast.1] at heq
            simpa [isBlank] using getLast?_trimRight l '\r' heq
          rw [unlines_cons l (by simp), joinReturns_append hline.1 hreturn, ih hline.2 hlast.2]

/-- Comments that are put back are found again as they were rendered. -/
theorem lift_unlines (hne : rows ≠ []) (hs : ∀ r ∈ rows, r.Clean)
    (hlast : ∀ r ∈ rows, trimRight r.text = r.text) :
    Comment.lift (unlines (rows.map text)) =
      ⟨unlines (write 0 rows), (bodies rows).map Comment.rendered⟩ := by
  have hline : ∀ l ∈ rows.map text, '\n' ∉ l := by
    intro l hl
    obtain ⟨r, hr, rfl⟩ := List.mem_map.1 hl
    exact (hs r hr).not_mem_text
  have htrim : ∀ l ∈ rows.map text, trimRight l = l := by
    intro l hl
    obtain ⟨r, hr, rfl⟩ := List.mem_map.1 hl
    exact hlast r hr
  have hread : (rows.map text).map ofLine = rows.map reread := by
    rw [List.map_map]
    exact List.map_congr_left fun r hr => ofLine_text (hs r hr)
  rw [Comment.lift, joinReturns_unlines hline htrim, lines_unlines (by simpa using hne) hline,
    liftLines_eq, hread, write_reread, bodies_reread]

end Row
end MiniScriptLayout
