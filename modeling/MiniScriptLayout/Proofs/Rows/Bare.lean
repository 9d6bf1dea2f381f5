import MiniScriptLayout.Proofs.Rows.Growth
import MiniScriptLayout.Proofs.Rows.Lay
import MiniScriptLayout.Proofs.Rows.Parts

/-!
Rows without the blanks around their code. Layout sees nothing else of a row. So a text without
literals and separators is laid out by the parts of its lines, from the first to the last one that
is not blank.
-/

namespace MiniScriptLayout

theorem Literal.liftFrom_plain_append (n : Nat) {s : List Char} (h : '"' ∉ s) (t : List Char) :
    liftFrom n (s ++ t) = ⟨s ++ (liftFrom n t).text, (liftFrom n t).table⟩ := by
  induction s with
  | nil => rfl
  | cons c s ih =>
      rw [List.mem_cons, not_or] at h
      rw [List.cons_append, liftFrom_char n (Ne.symm h.1), ih h.2, List.cons_append]

theorem Literal.lift_of_not_mem {s : List Char} (h : '"' ∉ s) : lift s = ⟨s, []⟩ := by
  simpa [lift, liftFrom] using liftFrom_plain_append 0 h []

theorem Literal.restore_of_not_mem {table : List (List Char)} {s : List Char} (h : '"' ∉ s) :
    restore table s = s := by
  induction s with
  | nil => simp [restore, Marker.fill_nil]
  | cons c s ih =>
      rw [List.mem_cons, not_or] at h
      rw [restore_cons (Ne.symm h.1), ih h.2]

/-- A line without line feeds breaks into its parts. -/
theorem CodeLine.ofText_parts {s : List Char} (h : '\n' ∉ s) :
    ofText s = ⟨(Comment.parts s).1, (Comment.parts s).2.getD []⟩ := by
  rw [ofText_eq h, Comment.parts]
  cases (Comment.cut s).2 <;> rfl

namespace Row

open Text Comment

variable {n : Nat} {r r' : Row} {rows rows' : List Row} {line : List Char}
  {ls core : List (List Char)}

/-- The row without the blanks around its code, and without a `//` that has no body. -/
def bare (r : Row) : Row :=
  ⟨trim r.front, r.body⟩

theorem front_bare (r : Row) : r.bare.front = r.bare.code := by
  have hfront : SlashesApart r.front := by
    unfold front
    cases hcut : cut r.code with
    | mk code rest =>
        cases rest with
        | none =>
            obtain ⟨rfl, hapart⟩ := cut_eq_none hcut
            exact hapart
        | some rest => exact (cut_eq_some hcut).2.slashesApart
  have htrim : SlashesApart (trim r.front) :=
    (View.slashesApart_congr (View.tokens_trim r.front)).2 hfront
  have hcut := cut_of_slashesApart htrim
  exact congrArg Prod.fst hcut

theorem normalized_bare (continued : Bool) (r : Row) :
    r.bare.normalized continued = r.normalized continued := by
  rw [normalized, normalized, front_bare, bare, trim_trim]

theorem normalizedAll_bare (continued : Bool) (rows : List Row) :
    normalizedAll continued (rows.map bare) = normalizedAll continued rows := by
  induction rows generalizing continued with
  | nil => rfl
  | cons r rows ih => simp only [List.map_cons, normalizedAll, normalized_bare, ih]

theorem lay_bare (u : Indentation.Units) (rows : List Row) :
    lay u (rows.map bare) = lay u rows := by
  rw [lay, lay, normalizedAll_bare, List.map_map]
  rfl

/-- The row without blanks of a line with these parts. A comment without a body counts only if it
has the line for itself. -/
def ofParts : List Char × Option (List Char) → Row
  | (code, none) => ⟨code, none⟩
  | (code, some body) => if body.isEmpty && !code.isEmpty then ⟨code, none⟩ else ⟨code, some body⟩

theorem bare_ofLine (line : List Char) : (ofLine line).bare = ofParts (parts line) := by
  unfold parts
  cases hcut : cut line with
  | mk code rest =>
      cases rest with
      | none => simp [ofLine, ofLine?, bare, front, hcut, ofParts]
      | some rest =>
          have hblank : code.all isBlank = (trim code).isEmpty := by
            rw [Bool.eq_iff_iff, List.all_eq_true, List.isEmpty_iff, trim_eq_nil]
          have hofLine : ofLine line = if (trimRight rest).isEmpty && !(trim code).isEmpty then
              ⟨line, none⟩ else ⟨code, some (trimRight rest)⟩ := by
            rw [ofLine, ofLine?, hcut]
            simp only [hblank]
            cases (trimRight rest).isEmpty && !(trim code).isEmpty <;> rfl
          have hfront : front ⟨code, some (trimRight rest)⟩ = code := by
            simp [front, cut_of_slashesApart (cut_eq_some hcut).2.slashesApart]
          rw [hofLine, Option.map_some, ofParts]
          split
          · simp [bare, front, hcut]
          · rw [bare, hfront]

theorem parts_lifted_inj (hr : r.Sound) (hr' : r'.Sound)
    (h : parts (r.lifted n) = parts (r'.lifted n)) :
    r.bare.code = r'.bare.code ∧ r.body.isSome = r'.body.isSome := by
  have hlines := CodeLine.ofText_parts (hr.not_mem_lifted (n := n))
  rw [h, ← CodeLine.ofText_parts hr'.not_mem_lifted, ofText_lifted hr, ofText_lifted hr',
    CodeLine.mk.injEq] at hlines
  refine ⟨hlines.1, ?_⟩
  have htag := hlines.2
  cases hb : r.body <;> cases hb' : r'.body <;> simp_all [tag]

/-- Rows are known up to blanks from the parts of their lines, and from their comments. -/
theorem map_bare_eq (hs : ∀ r ∈ rows, r.Sound) (hs' : ∀ r ∈ rows', r.Sound)
    (hparts : (write n rows').map parts = (write n rows).map parts)
    (hbodies : bodies rows' = bodies rows) : rows'.map bare = rows.map bare := by
  induction rows generalizing n rows' with
  | nil =>
      rw [write, List.map_nil, List.map_eq_nil_iff, write_eq_nil] at hparts
      rw [hparts]
  | cons r rows ih =>
      cases rows' with
      | nil => simp [write] at hparts
      | cons r' rows' =>
          rw [List.forall_mem_cons] at hs hs'
          simp only [write, List.map_cons, List.cons.injEq] at hparts
          obtain ⟨hcode, hsome⟩ := parts_lifted_inj hs'.1 hs.1 hparts.1
          obtain ⟨hbody, hrest⟩ := bodies_cons_inj hsome (hbodies.trans (List.append_nil _).symm)
          rw [List.append_nil] at hrest
          have hnext : r'.next n = r.next n := by rw [next, next, hsome]
          have hbare : r'.bare = r.bare := by
            rw [bare, bare, Row.mk.injEq]
            exact ⟨hcode, hbody⟩
          rw [List.map_cons, List.map_cons, hbare, ih hs.2 hs'.2 (hnext ▸ hparts.2) hrest]

theorem ofLine_of_isBlankLine (h : isBlankLine line = true) : ofLine line = ⟨line, none⟩ := by
  rcases ofLine_cases line with ⟨hline, -⟩ | ⟨code, rest, rfl, -⟩
  · exact hline
  · have hslash := isBlankLine_iff.1 h '/' (by simp)
    exact absurd rfl (ne_slash_of_isBlank hslash)

theorem isBlankLine_lifted (n : Nat) (line : List Char) :
    isBlankLine ((ofLine line).lifted n) = isBlankLine line := by
  rcases ofLine_cases line with ⟨hline, -⟩ | ⟨code, rest, rfl, -, -, hline⟩
  · rw [hline]
    simp [lifted]
  · rw [hline]
    simp [lifted, isBlankLine, marker_eq, isBlank]

theorem write_of_isBlankLine (h : ∀ l ∈ ls, isBlankLine l = true) :
    write n (ls.map ofLine) = ls ∧ bodies (ls.map ofLine) = [] := by
  induction ls generalizing n with
  | nil => exact ⟨rfl, rfl⟩
  | cons l ls ih =>
      rw [List.forall_mem_cons] at h
      have hl := ofLine_of_isBlankLine h.1
      simp only [List.map_cons, hl, write, lifted, next, Option.map_none, Option.getD_none,
        List.append_nil, Option.isSome_none, Bool.false_eq_true, if_false]
      exact ⟨congrArg _ (ih h.2).1, (ih (n := n) h.2).2⟩

theorem core_write (h : Core core ls) :
    Core (write 0 (core.map ofLine)) (write 0 (ls.map ofLine)) ∧
      bodies (core.map ofLine) = bodies (ls.map ofLine) := by
  obtain ⟨before, after, rfl, hbefore, hafter⟩ := h.exists_blanks
  have hfront := write_of_isBlankLine (n := 0) hbefore
  simp only [List.map_append, bodies_append, write_append, hfront.1, hfront.2,
    (write_of_isBlankLine (n := 0) hafter).2, (write_of_isBlankLine hafter).1, List.length_nil,
    List.nil_append, List.append_nil, Nat.add_zero, and_true]
  refine ⟨⟨before, after, rfl, hbefore, hafter⟩, by simp [write_eq_nil, h.core_ne_nil], ?_, ?_⟩
  · obtain ⟨l, rest, rfl⟩ := List.exists_cons_of_ne_nil h.core_ne_nil
    simp [write, isBlankLine_lifted, h.first l rfl]
  · obtain ⟨init, l, rfl⟩ := List.eq_nil_or_concat core |>.resolve_left h.core_ne_nil
    have hl := h.last l (by simp)
    simp [write_append, write, isBlankLine_lifted, hl]

theorem mem_of_mem_code (hr : r.Sound) (h : ';' ∈ r.code) : ';' ∈ r.bare.code := by
  have hblank : ¬ isBlank ';' = true := by decide
  obtain ⟨rest, hcode, hrest⟩ := hr.exists_dangling
  obtain ⟨before, after, hbefore, hafter, hfront⟩ := exists_gaps_trim r.front
  rw [hcode, hfront, List.mem_append, List.mem_append, List.mem_append] at h
  rcases h with ((h | h) | h) | h
  · exact absurd (hbefore _ h) hblank
  · exact h
  · exact absurd (hafter _ h) hblank
  · exact absurd ((hrest _ h).resolve_left (by decide)) hblank

theorem code_ofParts (p : List Char × Option (List Char)) : (ofParts p).code = p.1 := by
  obtain ⟨code, body⟩ := p
  cases body with
  | none => rfl
  | some body =>
      rw [ofParts]
      split <;> rfl

/-- Breaking the rows of lines without separators into statements only takes blanks. -/
theorem parts_split (hcore : Core core ls) (hline : ∀ l ∈ ls, '\n' ∉ l)
    (hseparator : ∀ l ∈ ls, ';' ∉ (parts l).1) :
    (Statement.split (unlines (write 0 (ls.map ofLine)))).map parts =
      (write 0 (core.map ofLine)).map parts := by
  have hcodes : ∀ r ∈ ls.map ofLine, ';' ∉ r.code := by
    intro r hr hmem
    obtain ⟨l, hl, rfl⟩ := List.mem_map.1 hr
    have hcode := mem_of_mem_code (sound_ofLine (hline l hl)) hmem
    rw [bare_ofLine, code_ofParts] at hcode
    exact hseparator l hl hcode
  have hwrite : ∀ l ∈ write 0 (ls.map ofLine), '\n' ∉ l := by
    intro l hl
    obtain ⟨n, r, hr, rfl⟩ := exists_of_mem_write hl
    exact (sound_map_ofLine hline r hr).not_mem_lifted
  have hcore' := (core_write hcore).1
  obtain ⟨joined, hjoined, hparts⟩ := hcore'.of_map (parts_joinReturns hcore'.ne_nil hwrite)
  have htrim := hjoined.parts_trim (not_mem_lines _)
  rwa [unlines_lines, hparts, ← Statement.split_of_not_mem (not_mem_unlines_write hcodes)] at htrim

/-- A line with one statement and without literals. -/
structure Simple (line : List Char) : Prop where
  feed : '\n' ∉ line
  quote : '"' ∉ line
  separator : ';' ∉ (parts line).1

theorem not_mem_unlines_simple (hs : ∀ l ∈ ls, Simple l) : '"' ∉ unlines ls := by
  intro hmem
  obtain ⟨l, hl, hmem⟩ := (mem_unlines (by decide)).1 hmem
  exact (hs l hl).quote hmem

theorem literals_unlines (hs : ∀ l ∈ ls, Simple l) :
    Literal.lift (unlines ls) = ⟨unlines ls, []⟩ :=
  Literal.lift_of_not_mem (not_mem_unlines_simple hs)

/-- The rows of simple lines are those of the lines but for blanks. -/
theorem Holds.map_bare (h : Holds (unlines ls) rows) (hcore : Core core ls)
    (hs : ∀ l ∈ ls, Simple l) : rows.map bare = (core.map ofLine).map bare := by
  have hsplit := h.split
  have hbodies := h.bodies
  rw [literals_unlines hs, lift_eq, ofText] at hsplit hbodies
  have hline := not_mem_lines (joinReturns (unlines ls))
  have hjoin := parts_joinReturns hcore.ne_nil fun l hl => (hs l hl).feed
  have hseparator : ∀ l ∈ lines (joinReturns (unlines ls)), ';' ∉ (parts l).1 := by
    intro l hl
    obtain ⟨l', hl', hparts⟩ := List.mem_map.1 (hjoin ▸ List.mem_map_of_mem hl)
    exact hparts ▸ (hs l' hl').separator
  obtain ⟨joined, hjoined, hparts⟩ := hcore.of_map hjoin
  have hrows := parts_split hjoined hline hseparator
  rw [hsplit] at hrows
  have hsound : ∀ r ∈ joined.map ofLine, r.Sound := by
    obtain ⟨before, after, heq, -⟩ := hjoined.exists_blanks
    exact sound_map_ofLine fun l hl => hline l (by simp [heq, hl])
  have hbare : bare ∘ ofLine = ofParts ∘ parts := funext bare_ofLine
  rw [map_bare_eq hsound h.sound hrows (hbodies.trans (core_write hjoined).2.symm), List.map_map,
    List.map_map, hbare, ← List.map_map, hparts, List.map_map]

/-- The lines of a layout are its rows, where no literal brings in other line feeds. -/
theorem Holds.lines_of_not_mem {text : List Char} (h : Holds text rows) (hquote : '"' ∉ text)
    {u : Indentation.Units} (hu : u.Spaces) :
    lines (layOut u text) = (lay u rows).map Row.text := by
  have hl := h.laysOut hu
  have hmarked := h.marked_laid hl
  rw [Literal.lift_of_not_mem hquote] at hmarked
  have hfeeds : ∀ l ∈ (lay u rows).map Row.text, '\n' ∉ l := by
    intro l hl'
    obtain ⟨r, hr, rfl⟩ := List.mem_map.1 hl'
    exact (clean_laid hl r hr).not_mem_text
  have hne : (lay u rows).map Row.text ≠ [] := by
    simpa using h.laid_ne_nil hl
  rw [h.layOut_eq hu, Literal.restore_of_not_mem (hmarked.not_mem rfl), lines_unlines hne hfeeds]

theorem lines_layOut_unlines (hcore : Core core ls) (hs : ∀ l ∈ ls, Simple l)
    {u : Indentation.Units} (hu : u.Spaces) :
    lines (layOut u (unlines ls)) = (lay u (core.map ofLine)).map Row.text := by
  obtain ⟨rows, h⟩ := exists_holds (unlines ls)
  rw [h.lines_of_not_mem (not_mem_unlines_simple hs) hu, ← lay_bare, h.map_bare hcore hs, lay_bare]

end Row
end MiniScriptLayout
