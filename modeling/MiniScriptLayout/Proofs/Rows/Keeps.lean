import MiniScriptLayout.Proofs.Lifting.Marked
import MiniScriptLayout.Proofs.Rows.Row

/-!
What becomes of rows while a text is broken into statements. Rows may lose blanks and semicolons and
may be cut in two, but their comments stay the same, each in a row of its own; so do the markers of
literals, and nothing is added.
-/

namespace MiniScriptLayout

namespace Text

/-- A text without its blanks. -/
def squeeze (s : List Char) : List Char :=
  s.filter fun c => !isBlank c

theorem squeeze_append (s t : List Char) : squeeze (s ++ t) = squeeze s ++ squeeze t :=
  List.filter_append ..

theorem squeeze_eq_nil {s : List Char} : squeeze s = [] ↔ ∀ c ∈ s, isBlank c = true := by
  simp [squeeze, List.filter_eq_nil_iff]

theorem squeeze_blanks {gap : List Char} (hb : ∀ c ∈ gap, isBlank c = true) :
    squeeze gap = [] :=
  squeeze_eq_nil.2 hb

theorem squeeze_cons_blank {c : Char} (hc : isBlank c = true) (s : List Char) :
    squeeze (c :: s) = squeeze s := by
  simp [squeeze, hc]

theorem squeeze_trimRight (s : List Char) : squeeze (trimRight s) = squeeze s := by
  obtain ⟨gap, hb, hs⟩ := exists_trimRight_blanks s
  conv => rhs; rw [hs, squeeze_append, squeeze_blanks hb, List.append_nil]

end Text

namespace Row

open Text Literal

/-- The runs of marker characters in some rows. -/
def markers (rows : List Row) : List (List Char) :=
  rows.flatMap fun r => Literal.markers.tokens r.text

/-- The characters of some rows that are no blanks. -/
def squeeze (rows : List Row) : List Char :=
  rows.flatMap fun r => Text.squeeze r.text

/-- What `after` keeps of the rows `before`. -/
structure Keeps (before after : List Row) : Prop where
  bodies : bodies after = bodies before
  sound : (∀ r ∈ before, r.Sound) → ∀ r ∈ after, r.Sound
  markers : markers after = markers before
  squeeze : (squeeze after).Sublist (squeeze before)

theorem bodies_append (rows others : List Row) :
    bodies (rows ++ others) = bodies rows ++ bodies others :=
  List.filterMap_append

theorem markers_append (rows others : List Row) :
    Row.markers (rows ++ others) = Row.markers rows ++ Row.markers others :=
  List.flatMap_append

theorem squeeze_append (rows others : List Row) :
    Row.squeeze (rows ++ others) = Row.squeeze rows ++ Row.squeeze others :=
  List.flatMap_append

namespace Keeps

variable {rows rows' rows'' others others' : List Row}

theorem refl (rows : List Row) : Keeps rows rows :=
  ⟨rfl, id, rfl, List.Sublist.refl _⟩

theorem trans (h : Keeps rows rows') (k : Keeps rows' rows'') : Keeps rows rows'' where
  bodies := k.bodies.trans h.bodies
  sound := k.sound ∘ h.sound
  markers := k.markers.trans h.markers
  squeeze := k.squeeze.trans h.squeeze

theorem append (h : Keeps rows rows') (k : Keeps others others') :
    Keeps (rows ++ others) (rows' ++ others') where
  bodies := by rw [bodies_append, bodies_append, h.bodies, k.bodies]
  sound hs r hr := by
    rcases List.mem_append.1 hr with hr | hr
    · exact h.sound (fun q hq => hs q (List.mem_append_left others hq)) r hr
    · exact k.sound (fun q hq => hs q (List.mem_append_right rows hq)) r hr
  markers := by rw [markers_append, markers_append, h.markers, k.markers]
  squeeze := by
    rw [squeeze_append, squeeze_append]
    exact h.squeeze.append k.squeeze

theorem cons (r : Row) (h : Keeps rows rows') : Keeps (r :: rows) (r :: rows') :=
  (refl [r]).append h

/-- A row without a comment whose code is blank may go. -/
theorem drop_blank {gap : List Char} (hb : ∀ c ∈ gap, isBlank c = true) :
    Keeps [⟨gap, none⟩] [] where
  bodies := rfl
  sound _ := by simp
  markers := by
    have := View.tokens_blanks_append (v := Literal.markers) hb []
    simpa [Row.markers, text, View.tokens] using this.symm
  squeeze := by simp [Row.squeeze]

end Keeps

/-- What stands behind the code of a row continues no token. -/
theorem continues_comment {v : View} (hv : v.glued '/' = false) (body : Option (List Char)) :
    v.continues ((body.map Comment.render).getD []) = false := by
  cases body with
  | none => rfl
  | some b =>
      rw [Option.map_some, Option.getD_some, Comment.render.eq_def]
      split
      · exact hv
      · split <;> exact hv
      · split <;> exact hv

namespace Keeps

variable {code code' front gap : List Char} {body : Option (List Char)}

/-- Rows that differ in their code only. -/
theorem of_code (hs : Sound ⟨code, body⟩ → Sound ⟨code', body⟩)
    (hm : Literal.markers.tokens code' = Literal.markers.tokens code)
    (hq : (Text.squeeze code').Sublist (Text.squeeze code)) :
    Keeps [⟨code, body⟩] [⟨code', body⟩] where
  bodies := rfl
  sound h := by simpa using hs (h _ (by simp))
  markers := by
    have hbody := continues_comment (v := Literal.markers) rfl body
    simp only [Row.markers, text, List.flatMap_cons, List.flatMap_nil, List.append_nil]
    rw [View.tokens_append hbody, View.tokens_append hbody, hm]
  squeeze := by
    simp only [Row.squeeze, text, List.flatMap_cons, List.flatMap_nil, List.append_nil,
      Text.squeeze_append]
    exact hq.append_right _

theorem drop_end (hb : ∀ c ∈ gap, isBlank c = true) :
    Keeps [⟨code ++ gap, none⟩] [⟨code, none⟩] := by
  refine of_code ?_ ?_ ?_
  · rintro ⟨hline, hrest⟩
    refine .plain (fun hmem => hline (List.mem_append_left gap hmem)) ?_
    intro front rest hcut c hc
    obtain ⟨rfl, hopen⟩ := Comment.cut_eq_some hcut
    refine hrest front (rest ++ gap) ?_ c (List.mem_append_left gap hc)
    rw [List.append_assoc, List.cons_append, List.cons_append, Comment.cut_append hopen]
  · exact ((View.Same.append_skips code fun c hc => View.skips_blank (hb c hc)).1).symm
  · rw [Text.squeeze_append, squeeze_blanks hb, List.append_nil]

theorem drop_start (hb : ∀ c ∈ gap, isBlank c = true) :
    Keeps [⟨gap ++ code, body⟩] [⟨code, body⟩] := by
  refine of_code ?_ (View.tokens_blanks_append hb code).symm ?_
  · intro h
    cases h with
    | plain hline hrest =>
        refine .plain (fun hmem => hline (List.mem_append_right gap hmem)) ?_
        intro front rest hcut
        refine hrest (gap ++ front) rest ?_
        rw [Comment.cut_blanks_append hb, hcut]
    | comment h =>
        exact .comment ⟨fun hmem => h.line (List.mem_append_right gap hmem), h.bodyLine,
          SlashesApart.right (s := gap) (by simpa [OpensComment] using h.opens), h.trimmed,
          fun hnil c hc => h.bare hnil c (List.mem_append_right gap hc)⟩
  · rw [Text.squeeze_append, squeeze_blanks hb, List.nil_append]

/-- A dangling `//` stands behind all semicolons of its row. -/
theorem slashesApart_front (h : Sound ⟨front ++ ';' :: code, body⟩) : SlashesApart front := by
  cases h with
  | plain _ hrest =>
      cases hcut : Comment.cut front with
      | mk start rest =>
          cases rest with
          | none => exact (Comment.cut_eq_none hcut).2
          | some rest =>
              obtain ⟨rfl, hopen⟩ := Comment.cut_eq_some hcut
              have := hrest start (rest ++ ';' :: code)
                (by simp [Comment.cut_append hopen]) ';' (by simp)
              simp [isBlank] at this
  | comment h => exact h.opens.slashesApart.left

/-- A row is broken at a semicolon. -/
theorem break_at : Keeps [⟨front ++ ';' :: code, body⟩] [⟨front, none⟩, ⟨code, body⟩] where
  bodies := rfl
  sound hs := by
    have h := hs _ (List.mem_singleton.2 rfl)
    have hfront := slashesApart_front h
    simp only [List.forall_mem_cons, List.not_mem_nil, false_imp_iff, implies_true, and_true]
    cases h with
    | plain hline hrest =>
        simp only [List.mem_append, List.mem_cons, not_or] at hline
        refine ⟨.plain hline.1 ?_, .plain hline.2.2 ?_⟩
        · simp [Comment.cut_of_slashesApart hfront]
        · intro start rest hcut
          refine hrest (front ++ ';' :: start) rest ?_
          rw [Comment.cut_append_cons hfront (by decide), hcut]
    | comment h =>
        have hline := h.line
        simp only [List.mem_append, List.mem_cons, not_or] at hline
        have hopens := h.opens
        rw [OpensComment, List.append_assoc, List.cons_append,
          SlashesApart.append_cons_iff (by decide)] at hopens
        refine ⟨.plain hline.1 ?_, .comment ⟨hline.2.2, h.bodyLine, hopens.2, h.trimmed, ?_⟩⟩
        · simp [Comment.cut_of_slashesApart hfront]
        · intro hnil
          simpa [isBlank] using h.bare hnil ';' (by simp)
  markers := by
    have hstop : Literal.markers.continues
        (';' :: (code ++ (body.map Comment.render).getD [])) = false := rfl
    simp only [Row.markers, text, List.flatMap_cons, List.flatMap_nil, List.append_nil,
      Option.map_none, Option.getD_none, List.append_assoc, List.cons_append]
    rw [View.tokens_append hstop, View.tokens_skips rfl]
  squeeze := by
    simp only [Row.squeeze, text, List.flatMap_cons, List.flatMap_nil, List.append_nil,
      Option.map_none, Option.getD_none, List.append_assoc, List.cons_append]
    rw [Text.squeeze_append front]
    exact (List.Sublist.refl _).append ((List.sublist_cons_self ';' _).filter _)

/-- A semicolon and the blanks behind it become one space. -/
theorem space_at (front code : List Char) (hb : ∀ c ∈ gap, isBlank c = true) :
    Keeps [⟨front ++ ';' :: (gap ++ code), body⟩] [⟨front ++ ' ' :: code, body⟩] := by
  refine of_code ?_ ?_ ?_
  · intro h
    have hfront := slashesApart_front h
    cases h with
    | plain hline hrest =>
        simp only [List.mem_append, List.mem_cons, not_or] at hline
        refine .plain (by simpa using ⟨hline.1, hline.2.2.2⟩) ?_
        intro start rest hcut
        rw [Comment.cut_append_cons hfront (by decide), Prod.mk.injEq] at hcut
        refine hrest (front ++ ';' :: (gap ++ (Comment.cut code).1)) rest ?_
        rw [Comment.cut_append_cons hfront (by decide), Comment.cut_blanks_append hb, hcut.2]
    | comment h =>
        have hline := h.line
        simp only [List.mem_append, List.mem_cons, not_or] at hline
        have hopens := h.opens
        rw [OpensComment, List.append_assoc, List.cons_append,
          SlashesApart.append_cons_iff (by decide), List.append_assoc] at hopens
        refine .comment ⟨by simpa using ⟨hline.1, hline.2.2.2⟩, h.bodyLine, ?_, h.trimmed, ?_⟩
        · rw [OpensComment, List.append_assoc, List.cons_append,
            SlashesApart.append_cons_iff (by decide)]
          exact ⟨hfront, hopens.2.right⟩
        · intro hnil
          simpa [isBlank] using h.bare hnil ';' (by simp)
  · have hspace : Literal.markers.continues (' ' :: code) = false := rfl
    have hstop : Literal.markers.continues (';' :: (gap ++ code)) = false := rfl
    rw [View.tokens_append hspace, View.tokens_append hstop, View.tokens_skips rfl,
      View.tokens_skips rfl, View.tokens_blanks_append hb]
  · rw [Text.squeeze_append, Text.squeeze_append, squeeze_cons_blank rfl]
    refine (List.Sublist.refl _).append ?_
    exact ((List.sublist_append_right gap code).trans (List.sublist_cons_self ';' _)).filter _

end Keeps

end Row
end MiniScriptLayout
