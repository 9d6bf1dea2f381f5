import MiniScriptLayout.Proofs.Rows.Placing
import MiniScriptLayout.Proofs.Rows.Restoring

/-!
Rows that are laid out. They are clean and have no blanks at the end, and they have the tokens of
the rows they come from in every view that leaves spacing, commas and parentheses out.
-/

namespace MiniScriptLayout

namespace Row

open Text

variable {v : View} {r out : Row} {indent code : List Char} {body : Option (List Char)}

theorem body_place : (place indent code body).body = body := by
  cases body <;> rfl

theorem LaysOut.body_eq (h : LaysOut r out) : out.body = r.body := by
  obtain ⟨-, _, _, _, _, rfl⟩ := h
  exact body_place

theorem isPrefix_front (r : Row) : r.front <+: r.code := by
  unfold front
  cases hcut : Comment.cut r.code with
  | mk start rest =>
      cases rest with
      | none => exact ⟨[], by rw [(Comment.cut_eq_none hcut).1, List.append_nil]⟩
      | some rest => exact ⟨'/' :: '/' :: rest, (Comment.cut_eq_some hcut).1.symm⟩

/-- The tokens of code in its place. -/
theorem tokens_place (hindent : ∀ c ∈ indent, MapColon.isSpace c = true) :
    v.tokens (place indent code body).code = v.tokens code := by
  have hblank : ∀ c ∈ indent, isBlank c = true :=
    fun c hc => MapColon.isBlank_of_isSpace (hindent c hc)
  cases body with
  | none =>
      cases code with
      | nil => rfl
      | cons c code => exact View.tokens_blanks_append hblank _
  | some b =>
      cases code with
      | nil => simpa [place] using View.tokens_blanks_append (v := v) hblank []
      | cons c code =>
          have hend : v.tokens (c :: code ++ [' ']) = v.tokens (c :: code) :=
            (View.Same.append_skips _ (by simpa using View.skips_blank rfl)).1
          simp only [place, List.isEmpty_cons, Bool.false_eq_true, if_false, List.append_assoc]
          rw [View.tokens_blanks_append hblank, hend]

theorem mem_place {c : Char} (hc : c ∈ (place indent code body).code) :
    c ∈ indent ∨ c ∈ code ∨ c = ' ' := by
  cases body <;> cases code <;> simp [place] at hc ⊢ <;> tauto

/-- Laying a row out keeps the tokens of its code up to a `//`. -/
theorem LaysOut.tokens (h : LaysOut r out) (hv : v.Plain) (hcolon : v.glued ':' = false)
    (hcomma : v.skips ',' = true) (ho : v.skips '(' = true) (hc : v.skips ')' = true)
    (hj : v.glued 'e' = true → ¬ Spacing.JoinsWords (trim r.front)) :
    v.tokens out.code = v.tokens r.front := by
  obtain ⟨-, indent, continued, bs, hindent, rfl⟩ := h
  rw [tokens_place hindent, MapColon.tokens_space hcolon]
  have hline : v.tokens (r.normalized continued) = v.tokens (trim r.front) :=
    View.tokens_normalizeLine hv hcomma ho hc continued hj
  exact hline.trans (View.tokens_trim r.front)

theorem squeeze_of_tokens {s t : List Char}
    (h : (View.single fun _ => true).tokens s = (View.single fun _ => true).tokens t) :
    Text.squeeze s = Text.squeeze t := by
  simpa [View.single, Text.squeeze] using View.filter_of_tokens h

theorem squeeze_thinned {s t : List Char} (h : Thinned s t) :
    (Text.squeeze s).Sublist (Text.squeeze t) := by
  have hfilter : ∀ s : List Char, Text.squeeze s = Text.squeeze (s.filter (· != ' ')) := by
    intro s
    rw [Text.squeeze, Text.squeeze, List.filter_filter]
    refine List.filter_congr fun c _ => ?_
    cases hb : isBlank c with
    | true => rfl
    | false =>
        have : c ≠ ' ' := by
          rintro rfl
          cases hb
        simp [this]
  rw [hfilter s, hfilter t]
  exact List.Sublist.filter _ h

theorem thinned_normalized (continued : Bool) (r : Row) :
    Thinned (r.normalized continued) (trim r.front) :=
  CodeLine.thinned_normalize continued ⟨trim r.front, []⟩

theorem LaysOut.squeeze_code (h : LaysOut r out) :
    (Text.squeeze out.code).Sublist (Text.squeeze r.front) := by
  obtain ⟨-, indent, continued, bs, hindent, rfl⟩ := h
  rw [squeeze_of_tokens (tokens_place hindent), squeeze_of_tokens (MapColon.tokens_space rfl _ _),
    ← squeeze_of_tokens (View.tokens_trim r.front)]
  exact squeeze_thinned (thinned_normalized continued r)

/-- Of a row with blanks alone before its comment, nothing but the indentation stays. -/
theorem normalized_eq_nil (continued : Bool) (h : ∀ c ∈ r.front, isBlank c = true) :
    r.normalized continued = [] := by
  have hfront : trim r.front = [] := trim_eq_nil.2 h
  have hblank : ∀ c ∈ r.normalized continued, isBlank c = true := by
    intro c hc
    have := (thinned_normalized continued r).mem hc
    rw [hfront] at this
    simp only [List.not_mem_nil, false_or] at this
    rw [this]
    rfl
  rw [← trim_normalized, trim_eq_nil.2 hblank]

theorem Clean.front (h : r.Clean) : r.front = r.code := by
  cases h with
  | plain _ hapart => simp [Row.front, Comment.cut_of_slashesApart hapart]
  | comment h => simp [Row.front, Comment.cut_of_slashesApart h.opens.slashesApart]

theorem Clean.trim (h : r.Clean) : (⟨Text.trim r.code, none⟩ : Row).Clean := by
  have hcode : '\n' ∉ r.code ∧ SlashesApart r.code := by
    cases h with
    | plain hline hapart => exact ⟨hline, hapart⟩
    | comment h => exact ⟨h.line, h.opens.slashesApart⟩
  refine .plain (fun hmem => hcode.1 (mem_of_mem_trim hmem)) ?_
  rw [View.slashesApart_congr (View.tokens_trim r.code)]
  exact hcode.2

/-- The code that stands in the place of a row. -/
theorem slashesApart_space (continued : Bool) (r : Row) (st : MapColon.State) :
    SlashesApart (st.space (r.normalized continued)) := by
  rw [View.slashesApart_congr (MapColon.tokens_space rfl st _)]
  exact CodeLine.slashesApart_normalize continued ⟨trim r.front, []⟩

theorem mem_of_mem_space {continued : Bool} {st : MapColon.State} {c : Char}
    (h : c ∈ st.space (r.normalized continued)) : c ∈ r.code ∨ c = ' ' := by
  have hnormal : c ∈ trim r.front ∨ c = ' ' := by
    rcases MapColon.mem_space h with h | h
    · exact (thinned_normalized continued r).mem h
    · exact .inr h
  exact hnormal.imp_left fun htrim => (isPrefix_front r).subset (mem_of_mem_trim htrim)

theorem LaysOut.clean (h : LaysOut r out) : out.Clean := by
  obtain ⟨hr, indent, continued, bs, hindent, rfl⟩ := h
  have hapart := slashesApart_space continued r ⟨bs, .lineStart⟩
  have hline : '\n' ∉ (⟨bs, .lineStart⟩ : MapColon.State).space (r.normalized continued) :=
    fun hmem => hr.line ((mem_of_mem_space hmem).resolve_right (by decide))
  have hnil : (∀ c ∈ r.front, isBlank c = true) →
      (⟨bs, .lineStart⟩ : MapColon.State).space (r.normalized continued) = [] := by
    intro hb
    rw [normalized_eq_nil continued hb]
    rfl
  generalize (⟨bs, .lineStart⟩ : MapColon.State).space (r.normalized continued) = code at *
  have hplace : '\n' ∉ (place indent code r.body).code := by
    intro hmem
    rcases mem_place hmem with hmem | hmem | heq
    · simpa [MapColon.isSpace] using hindent '\n' hmem
    · exact hline hmem
    · simp at heq
  have hslashes : SlashesApart (place indent code r.body).code :=
    (View.slashesApart_congr (tokens_place hindent)).2 hapart
  cases hr with
  | plain _ _ => exact .plain hplace hslashes
  | @comment front b hb =>
      have hopens : OpensComment (place indent code (some b)).code := by
        refine hslashes.opensComment ?_
        cases code with
        | nil =>
            intro hlast
            simpa [MapColon.isSpace] using hindent '/' (List.mem_of_getLast? hlast)
        | cons c code => simp [place, List.getLast?_cons]
      refine .comment ⟨hplace, hb.bodyLine, hopens, hb.trimmed, ?_⟩
      intro hbody c hc
      rw [hnil fun d hd => hb.bare hbody d ((isPrefix_front _).subset hd)] at hc
      exact MapColon.isBlank_of_isSpace (hindent c hc)

/-- A row that is laid out gets no character but spaces and tabs. -/
theorem LaysOut.mem (h : LaysOut r out) {c : Char} (hc : c ∈ out.code) :
    c ∈ r.code ∨ MapColon.isSpace c = true := by
  obtain ⟨-, indent, continued, bs, hindent, rfl⟩ := h
  rcases mem_place hc with hc | hc | rfl
  · exact .inr (hindent c hc)
  · exact (mem_of_mem_space hc).imp_right fun heq => by simp [heq, MapColon.isSpace]
  · exact .inr rfl

/-- A row with a comment ends in no blank. -/
theorem not_isBlank_render {b : List Char} (hb : trimRight b = b) (s : List Char) :
    ∀ c ∈ (s ++ Comment.render b).getLast?, isBlank c = false := by
  intro c hc
  rw [Comment.render_eq, List.getLast?_append, List.getLast?_cons_cons, List.getLast?_cons,
    Comment.getLast?_rendered, Option.some_or, Option.mem_some_iff] at hc
  rw [← hc]
  cases hlast : b.getLast? with
  | none => rfl
  | some d =>
      rw [← hb] at hlast
      exact getLast?_trimRight b d hlast

theorem not_isBlank_place (hcode : ∀ c ∈ code.getLast?, isBlank c = false) :
    ∀ c ∈ (place indent code none).code.getLast?, isBlank c = false := by
  cases code with
  | nil => simp [place]
  | cons d code =>
      intro c hc
      apply hcode c
      simpa [place, List.getLast?_append, List.getLast?_cons] using hc

theorem LaysOut.trimRight_text (h : LaysOut r out) :
    trimRight out.text = out.text := by
  obtain ⟨hr, indent, continued, bs, -, rfl⟩ := h
  refine trimRight_eq_self ?_
  have hspace := getLast?_trim ((⟨bs, .lineStart⟩ : MapColon.State).space (r.normalized continued))
  rw [trim_space (trim_normalized continued r)] at hspace
  cases hr with
  | plain _ _ => simpa [text, body_place] using not_isBlank_place hspace
  | comment hb =>
      simp only [text, body_place, Option.map_some, Option.getD_some]
      exact not_isBlank_render hb.trimmed _

theorem head?_text (r : Row) (n : Nat) : r.text.head? = (r.lifted n).head? := by
  cases hb : r.body with
  | none => simp [text, lifted, hb]
  | some b => simp [text, lifted, hb, Comment.render_eq, marker_eq]

theorem lifted_eq_nil (r : Row) (n : Nat) : r.lifted n = [] ↔ r.text = [] := by
  rw [← List.head?_eq_none_iff, ← head?_text, List.head?_eq_none_iff]

theorem forall₂_text (n : Nat) (rows : List Row) :
    List.Forall₂ (fun l t => l = [] ↔ t = []) (write n rows) (rows.map text) := by
  induction rows generalizing n with
  | nil => exact .nil
  | cons r rows ih => exact .cons (lifted_eq_nil r n) (ih _)

/-- What a row has behind its code is a dangling `//`. -/
theorem Sound.exists_dangling (hr : r.Sound) :
    ∃ rest, r.code = r.front ++ rest ∧ ∀ c ∈ rest, c = '/' ∨ isBlank c = true := by
  unfold front
  cases hcut : Comment.cut r.code with
  | mk start rest =>
      cases rest with
      | none => exact ⟨[], by rw [(Comment.cut_eq_none hcut).1, List.append_nil], by simp⟩
      | some rest =>
          refine ⟨'/' :: '/' :: rest, (Comment.cut_eq_some hcut).1, ?_⟩
          cases hr with
          | plain _ hrest => simpa using fun c hc => .inr (hrest start rest hcut c hc)
          | comment hb =>
              rw [Comment.cut_of_slashesApart hb.opens.slashesApart] at hcut
              cases hcut

/-- A dangling `//` is no part of a token where slashes are left out. -/
theorem tokens_front (hr : r.Sound) (hv : v.skips '/' = true) :
    v.tokens r.front = v.tokens r.code := by
  obtain ⟨rest, hcode, hrest⟩ := hr.exists_dangling
  have hskips : ∀ c ∈ rest, v.skips c = true := by
    intro c hc
    rcases hrest c hc with rfl | hblank
    · exact hv
    · exact View.skips_blank hblank
  rw [hcode]
  exact ((View.Same.append_skips r.front hskips).1).symm

/-- A row has the markers of literals that it had before, in its code and in its comment. -/
theorem LaysOut.markers_text (h : LaysOut r out) :
    Literal.markers.tokens out.text = Literal.markers.tokens r.text := by
  have hplain : Literal.markers.Plain := .of_signs rfl
  have hcode : Literal.markers.tokens out.code = Literal.markers.tokens r.code := by
    rw [h.tokens hplain rfl rfl rfl rfl nofun, tokens_front h.1 rfl]
  have hbody := continues_comment (v := Literal.markers) rfl r.body
  rw [text, text, h.body_eq, View.tokens_append hbody, View.tokens_append hbody, hcode]

theorem LaysOut.squeeze_text (h : LaysOut r out) :
    (Text.squeeze out.text).Sublist (Text.squeeze r.text) := by
  rw [text, text, h.body_eq, Text.squeeze_append, Text.squeeze_append]
  exact (h.squeeze_code.trans ((isPrefix_front r).sublist.filter _)).append_right _

section Rows

variable {rows laid : List Row} (h : List.Forall₂ LaysOut rows laid)
include h

theorem map_body_laid : laid.map Row.body = rows.map Row.body := by
  induction h with
  | nil => rfl
  | cons hr _ ih => rw [List.map_cons, List.map_cons, hr.body_eq, ih]

theorem bodies_laid : bodies laid = bodies rows := by
  have := congrArg (List.filterMap id) (map_body_laid h)
  rwa [List.filterMap_map, List.filterMap_map] at this

theorem markers_laid : Row.markers laid = Row.markers rows := by
  induction h with
  | nil => rfl
  | cons hr _ ih =>
      simp only [Row.markers, List.flatMap_cons, hr.markers_text] at ih ⊢
      rw [ih]

theorem squeeze_laid : (Row.squeeze laid).Sublist (Row.squeeze rows) := by
  induction h with
  | nil => exact .refl []
  | cons hr _ ih =>
      rw [Row.squeeze, Row.squeeze, List.flatMap_cons, List.flatMap_cons]
      exact hr.squeeze_text.append ih

theorem exists_of_mem_laid : ∀ out ∈ laid, ∃ r ∈ rows, LaysOut r out := by
  induction h with
  | nil => simp
  | @cons r out rows laid hr _ ih =>
      rw [List.forall_mem_cons]
      refine ⟨⟨r, List.mem_cons_self, hr⟩, fun q hq => ?_⟩
      obtain ⟨r', hmem, hr'⟩ := ih q hq
      exact ⟨r', List.mem_cons_of_mem r hmem, hr'⟩

theorem clean_laid : ∀ r ∈ laid, r.Clean := by
  intro out hout
  obtain ⟨r, -, hr⟩ := exists_of_mem_laid h out hout
  exact hr.clean

theorem trimRight_laid : ∀ r ∈ laid, trimRight r.text = r.text := by
  intro out hout
  obtain ⟨r, -, hr⟩ := exists_of_mem_laid h out hout
  exact hr.trimRight_text

end Rows

end Row
end MiniScriptLayout
