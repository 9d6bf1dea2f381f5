import MiniScriptLayout.Proofs.Rows.Rereading
import MiniScriptLayout.Proofs.Text.Ends

/-!
Laying out a layout. The statements of a layout are its rows, unless it has a blank line at an end.
-/

namespace MiniScriptLayout

namespace Row

open Text

variable {n : Nat} {r out : Row} {rows laid : List Row}

theorem mem_write {r : Row} (h : r ∈ rows) : ∃ m, r.lifted m ∈ write n rows := by
  induction rows generalizing n with
  | nil => cases h
  | cons q rows ih =>
      rcases List.mem_cons.1 h with rfl | h
      · exact ⟨n, List.mem_cons_self⟩
      · obtain ⟨m, hm⟩ := ih h
        exact ⟨m, List.mem_cons_of_mem _ hm⟩

/-- Rows of statements hold no separators. -/
theorem Holds.not_mem_separator {text : List Char} (h : Holds text rows) :
    ∀ r ∈ rows, ';' ∉ r.code := by
  intro r hr hmem
  obtain ⟨m, hm⟩ := mem_write (n := 0) hr
  rw [← h.split] at hm
  exact Statement.not_mem_split _ _ hm (List.mem_append_left _ hmem)

theorem LaysOut.not_isBlank_lifted (h : LaysOut r out) :
    ∀ c ∈ (out.lifted n).getLast?, isBlank c = false := by
  intro c hc
  cases hb : out.body with
  | none =>
      have htext : out.lifted n = out.text := by simp [lifted, text, hb]
      rw [htext, ← h.trimRight_text] at hc
      exact getLast?_trimRight out.text c hc
  | some b =>
      rw [lifted, hb] at hc
      exact not_isBlank_of_getLast? out.code hc

theorem trimmed_write (hl : List.Forall₂ LaysOut rows laid)
    (hfirst : ∀ r ∈ laid.head?, ∀ c ∈ (r.lifted n).head?, isBlank c = false) :
    Trimmed (write n laid) where
  line l hmem := by
    obtain ⟨m, r, hr, rfl⟩ := exists_of_mem_write hmem
    exact (clean_laid hl r hr).sound.not_mem_lifted
  first l hmem := by
    cases laid with
    | nil => cases hmem
    | cons r laid =>
        obtain rfl : r.lifted n = l := by simpa [write] using hmem
        exact hfirst r rfl
  last l hmem := by
    obtain ⟨m, out, hout, rfl⟩ := exists_of_mem_write hmem
    obtain ⟨r, -, hr⟩ := exists_of_mem_laid hl out hout
    exact hr.not_isBlank_lifted

/-- The statements of a layout are its lines. -/
theorem split_laid {text : List Char} (h : Holds text rows)
    (hl : List.Forall₂ LaysOut rows laid) :
    Statement.split (unlines (write n laid)) = lines (trim (unlines (write n laid))) := by
  have hline : ∀ l ∈ write n laid, '\n' ∉ l := by
    intro l hmem
    obtain ⟨m, r, hr, rfl⟩ := exists_of_mem_write hmem
    exact (clean_laid hl r hr).sound.not_mem_lifted
  have hlast : ∀ l ∈ write n laid, trimRight l = l := by
    intro l hmem
    obtain ⟨m, out, hout, rfl⟩ := exists_of_mem_write hmem
    obtain ⟨r, -, hout⟩ := exists_of_mem_laid hl out hout
    exact trimRight_eq_self hout.not_isBlank_lifted
  have hseparator : ∀ out ∈ laid, ';' ∉ out.code := by
    intro out hout hc
    obtain ⟨r, hr, hout⟩ := exists_of_mem_laid hl out hout
    exact h.not_mem_separator r hr ((hout.mem hc).resolve_right (by decide))
  rw [Statement.split_of_not_mem (not_mem_unlines_write hseparator),
    joinReturns_unlines hline hlast]

section Places

variable {indent indent' code code' : List Char} {body : Option (List Char)}
  {indents indents' cs : List (List Char)}

theorem trim_place (hcode : trim code = code) (hindent : ∀ c ∈ indent, MapColon.isSpace c = true) :
    trim (place indent code body).code = code := by
  have hblank : ∀ c ∈ indent, isBlank c = true :=
    fun c hc => MapColon.isBlank_of_isSpace (hindent c hc)
  by_cases hnil : code = []
  · subst hnil
    cases body with
    | none => rfl
    | some b =>
        have := trim_gaps hblank (s := []) (t := []) (by simp)
        simp only [List.append_nil] at this
        exact this
  · cases body with
    | none =>
        simp only [place, List.isEmpty_iff, hnil, if_false]
        simpa [hcode] using trim_gaps hblank (s := code) (t := []) (by simp)
    | some b =>
        simp only [place, List.isEmpty_iff, hnil, if_false]
        rw [trim_gaps hblank (by simp [isBlank]), hcode]

theorem line_eq_nil : (⟨code, tag n body⟩ : CodeLine) = ⟨[], []⟩ ↔ code = [] ∧ body = none := by
  rw [CodeLine.mk.injEq]
  cases body <;> simp [tag]

/-- Equal rows have equal codes, and equal indentations unless they are blank. -/
theorem place_inj (hcode : trim code = code) (hcode' : trim code' = code')
    (hindent : ∀ c ∈ indent, MapColon.isSpace c = true)
    (hindent' : ∀ c ∈ indent', MapColon.isSpace c = true) :
    place indent' code' body = place indent code body ↔
      code' = code ∧ (¬ (code = [] ∧ body = none) → indent = indent') := by
  have hinj : code' = code → (place indent' code' body = place indent code body ↔
      (¬ (code = [] ∧ body = none) → indent = indent')) := by
    rintro rfl
    cases body <;> cases code' <;> simp [place, eq_comm]
  constructor
  · intro h
    have heq : code' = code := by
      rw [← trim_place hcode' hindent', h, trim_place hcode hindent]
    exact ⟨heq, (hinj heq).1 h⟩
  · rintro ⟨heq, h⟩
    exact (hinj heq).2 h

/-- The codes of rows in their places. -/
theorem map_trim_placeAll {bodies : List (Option (List Char))}
    (hcs : ∀ code ∈ cs, trim code = code)
    (hindents : ∀ indent ∈ indents, ∀ c ∈ indent, MapColon.isSpace c = true)
    (hlength : indents.length = cs.length) (hbodies : bodies.length = cs.length) :
    (placeAll indents cs bodies).map (fun r => trim r.code) = cs := by
  induction cs generalizing indents bodies with
  | nil =>
      rw [List.length_nil, List.length_eq_zero_iff] at hlength
      rw [hlength]
      rfl
  | cons code cs ih =>
      cases indents with
      | nil => simp at hlength
      | cons indent indents =>
          cases bodies with
          | nil => simp at hbodies
          | cons body bodies =>
              rw [List.forall_mem_cons] at hcs hindents
              simp only [List.length_cons, Nat.add_right_cancel_iff] at hlength hbodies
              rw [placeAll, List.map_cons, trim_place hcs.1 hindents.1,
                ih hcs.2 hindents.2 hlength hbodies]

theorem trim_codes (hs : ∀ r ∈ rows, r.Sound) (bs : List Char) (continued : Bool) :
    ∀ code ∈ codes bs continued n rows, trim code = code := by
  induction rows generalizing n continued bs with
  | nil => simp [codes, write, CodeLine.ofLines, MapColon.spaceLines]
  | cons r rows ih =>
      rw [List.forall_mem_cons] at hs
      rw [codes_cons hs.1, List.forall_mem_cons]
      exact ⟨trim_space (trim_normalized continued r) bs, ih hs.2 _ _⟩

theorem length_codes (bs : List Char) (continued : Bool) :
    (codes bs continued n rows).length = rows.length := by
  rw [codes, MapColon.length_spaceLines, List.length_map, length_ofLines, length_write]

/-- Comments and indentation do not matter when the code of a row is read again. -/
theorem code_ofLines_write (hs : ∀ r ∈ laid, r.Clean) (continued : Bool) :
    (CodeLine.ofLines continued (write n laid)).map (·.code) =
      (CodeLine.ofLines continued (laid.map fun r => trim r.code)).map (·.code) := by
  induction laid generalizing n continued with
  | nil => rfl
  | cons r laid ih =>
      rw [List.forall_mem_cons] at hs
      -- the next line depends on the code of this one alone
      have hplain : CodeLine.ofText (trim r.code) = ⟨trim r.code, []⟩ := by
        have := ofText_lifted (n := 0) hs.1.trim.sound
        rw [hs.1.trim.front, trim_trim] at this
        simpa [lifted, tag] using this
      simp only [write, List.map_cons, CodeLine.ofLines]
      rw [ofText_lifted hs.1.sound, hs.1.front, hplain]
      exact congrArg _ (ih hs.2 _)

/-- Indentations agree at all lines that are not blank. -/
def AgreeAt (lines : List CodeLine) (indents indents' : List (List Char)) : Prop :=
  ∀ x ∈ lines.zip (indents.zip indents'), x.1 ≠ ⟨[], []⟩ → x.2.1 = x.2.2

instance (lines : List CodeLine) (indents indents' : List (List Char)) :
    Decidable (AgreeAt lines indents indents') :=
  inferInstanceAs (Decidable (∀ x ∈ lines.zip (indents.zip indents'), _ → _))

/-- Rows in their places are equal exactly if their codes are, and the indentations of all rows that
are not blank. -/
theorem placeAll_inj (hs : ∀ r ∈ rows, r.Sound) {bs : List Char} {continued : Bool}
    (hcs : ∀ code ∈ cs, trim code = code)
    (hindents : ∀ indent ∈ indents, ∀ c ∈ indent, MapColon.isSpace c = true)
    (hindents' : ∀ indent ∈ indents', ∀ c ∈ indent, MapColon.isSpace c = true)
    (hlength : indents.length = rows.length) (hlength' : indents'.length = rows.length)
    (hcslength : cs.length = rows.length) :
    placeAll indents' cs (rows.map Row.body) =
        placeAll indents (codes bs continued n rows) (rows.map Row.body) ↔
      cs = codes bs continued n rows ∧
        AgreeAt (CodeLine.ofLines continued (write n rows)) indents indents' := by
  induction rows generalizing n continued bs indents indents' cs with
  | nil =>
      rw [List.length_nil, List.length_eq_zero_iff] at hlength hlength' hcslength
      subst hlength hlength' hcslength
      simp [placeAll, codes, write, CodeLine.ofLines, MapColon.spaceLines, AgreeAt]
  | cons r rows ih =>
      obtain ⟨indent, indents, rfl⟩ := List.exists_cons_of_length_eq_add_one hlength
      obtain ⟨indent', indents', rfl⟩ := List.exists_cons_of_length_eq_add_one hlength'
      obtain ⟨code, cs, rfl⟩ := List.exists_cons_of_length_eq_add_one hcslength
      rw [List.forall_mem_cons] at hs hcs hindents hindents'
      simp only [List.length_cons, Nat.add_right_cancel_iff] at hlength hlength' hcslength
      have hcode := trim_normalized continued r
      rw [codes_cons hs.1, List.map_cons, placeAll, placeAll, List.cons.injEq, List.cons.injEq,
        place_inj (trim_space hcode bs) hcs.1 hindents.1 hindents'.1,
        ih hs.2 hcs.2 hindents.2 hindents'.2 hlength hlength' hcslength]
      simp only [AgreeAt, write, CodeLine.ofLines, List.zip_cons_cons, List.forall_mem_cons,
        normalize_lifted hs.1, ne_eq, line_eq_nil, space_eq_nil hcode]
      tauto

/-- The first row has no blank at its start. -/
theorem head?_placeAll {bodies : List (Option (List Char))} (hcs : ∀ code ∈ cs, trim code = code)
    (hfirst : ∀ indent ∈ indents.head?, indent = []) :
    ∀ r ∈ (placeAll indents cs bodies).head?, ∀ c ∈ (r.lifted n).head?, isBlank c = false := by
  intro r hr c hc
  rcases indents with _ | ⟨indent, indents⟩
  · cases hr
  rcases cs with _ | ⟨code, cs⟩
  · cases hr
  rcases bodies with _ | ⟨body, bodies⟩
  · cases hr
  obtain rfl := hfirst indent rfl
  obtain rfl : place [] code body = r := by simpa [placeAll] using hr
  cases code with
  | nil => cases body <;> simp [place, lifted, marker_eq] at hc; simp [← hc, isBlank]
  | cons d code =>
      have hd : isBlank d = false :=
        head?_trim (d :: code) d (by rw [hcs _ List.mem_cons_self]; rfl)
      cases body <;> simp [place, lifted] at hc <;> exact hc ▸ hd

theorem lifted_place_eq_nil : (place indent code body).lifted n = [] ↔ code = [] ∧ body = none := by
  cases body <;> cases code <;> simp [place, lifted, marker_eq]

/-- Blank lines of a text are blank in its layout. -/
theorem forall₂_blank (hs : ∀ r ∈ rows, r.Sound) (bs : List Char) (continued : Bool)
    (hlength : indents.length = rows.length) :
    List.Forall₂ (fun line l => line = ⟨[], []⟩ ↔ l = [])
      (CodeLine.ofLines continued (write n rows))
      (write n (placeAll indents (codes bs continued n rows) (rows.map Row.body))) := by
  induction rows generalizing n continued bs indents with
  | nil =>
      rw [List.length_nil, List.length_eq_zero_iff] at hlength
      rw [hlength]
      exact .nil
  | cons r rows ih =>
      obtain ⟨indent, indents, rfl⟩ := List.exists_cons_of_length_eq_add_one hlength
      rw [List.forall_mem_cons] at hs
      simp only [List.length_cons, Nat.add_right_cancel_iff] at hlength
      rw [codes_cons hs.1, List.map_cons, placeAll, write, write, CodeLine.ofLines, next_place]
      refine .cons ?_ (normalize_lifted (n := n) hs.1 continued ▸ ih hs.2 _ _ hlength)
      rw [normalize_lifted hs.1, line_eq_nil, lifted_place_eq_nil,
        space_eq_nil (trim_normalized continued r)]

theorem write_inj (hbody : rows.map Row.body = laid.map Row.body) :
    write n rows = write n laid ↔ rows = laid := by
  refine ⟨fun h => ?_, congrArg _⟩
  induction rows generalizing n laid with
  | nil =>
      cases laid with
      | nil => rfl
      | cons r laid => cases h
  | cons q rows ih =>
      cases laid with
      | nil => cases h
      | cons r laid =>
          simp only [List.map_cons, List.cons.injEq] at hbody
          simp only [write, List.cons.injEq] at h
          have hnext : q.next n = r.next n := by rw [next, next, hbody.1]
          have hcode : q.code = r.code := by
            have := h.1
            rwa [lifted, lifted, hbody.1, List.append_left_inj] at this
          obtain ⟨code, body⟩ := q
          obtain rfl : code = r.code := hcode
          obtain rfl : body = r.body := hbody.1
          rw [ih hbody.2 (hnext ▸ h.2)]

theorem unlines_write_inj (hne : rows ≠ []) (hs : ∀ r ∈ rows, r.Sound) (hs' : ∀ r ∈ laid, r.Sound)
    (hbody : rows.map Row.body = laid.map Row.body) :
    unlines (write n rows) = unlines (write n laid) ↔ rows = laid := by
  have hne' : laid ≠ [] := by
    rintro rfl
    exact hne (List.map_eq_nil_iff.1 hbody)
  refine ⟨fun h => (write_inj (n := n) hbody).1 ?_, fun h => by rw [h]⟩
  rw [← lines_unlines_write hne hs, h, lines_unlines_write hne' hs']

end Places

end Row

end MiniScriptLayout
