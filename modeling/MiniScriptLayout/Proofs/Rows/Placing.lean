import MiniScriptLayout.Layout
import MiniScriptLayout.Proofs.Indentation.Extent
import MiniScriptLayout.Proofs.MapColon
import MiniScriptLayout.Proofs.Rows.Lifted
import MiniScriptLayout.Proofs.Token.Slash
import MiniScriptLayout.Proofs.Token.Thinned

/-!
Rows in their places. A line that is laid out is its normalised code behind an indentation, with the
colons of maps in place, and the marker of its comment if there is one. So the layout of a text goes
row by row: every row of the text has one row in the layout, with the same comment.
-/

namespace MiniScriptLayout

namespace Row

open Text

/-- The code of a row up to a `//`. -/
def front (r : Row) : List Char :=
  (Comment.cut r.code).1

/-- What follows the `//` of a lifted row. -/
def tag (n : Nat) (body : Option (List Char)) : List Char :=
  (body.map fun _ => '$' :: decimal n).getD []

/-- Code behind an indentation. A space stands between code and a comment, and a row without either
is empty. -/
def place (indent code : List Char) : Option (List Char) → Row
  | none => ⟨if code.isEmpty then [] else indent ++ code, none⟩
  | some b => ⟨if code.isEmpty then indent else indent ++ code ++ [' '], some b⟩

variable {n : Nat} {r : Row} {rows : List Row} {indent code : List Char}
  {body : Option (List Char)}

theorem marker_eq : Comment.marker.write n = '/' :: '/' :: '$' :: decimal n := by
  simp [Comment.marker, Marker.write]

theorem not_isSpace_marker :
    ∀ c ∈ Comment.marker.write n, MapColon.isSpace c = false ∧ c ≠ ':' := by
  intro c hc
  have hnot : ∀ d, isAsciiDigit d = false → d ≠ '/' → d ≠ '$' → c ≠ d := by
    rintro d h₁ h₂ h₃ rfl
    exact not_mem_marker h₁ h₂ h₃ hc
  refine ⟨?_, hnot ':' rfl (by decide) (by decide)⟩
  simp [MapColon.isSpace, hnot ' ' rfl (by decide) (by decide),
    hnot '\t' rfl (by decide) (by decide)]

/-- A row is broken at its `//`, whether a comment follows or not. -/
theorem ofText_lifted (hr : r.Sound) :
    CodeLine.ofText (r.lifted n) = ⟨trim r.front, tag n r.body⟩ := by
  rw [CodeLine.ofText_eq hr.not_mem_lifted]
  cases hr with
  | @plain code hline hrest =>
      simp only [lifted, front, tag, Option.map_none, Option.getD_none, List.append_nil]
      cases hcut : Comment.cut code with
      | mk start rest =>
          cases rest with
          | none => rfl
          | some rest => simp [trimRight_eq_nil.2 (hrest start rest hcut)]
  | @comment code b h =>
      have htag : trimRight ('$' :: decimal n) = '$' :: decimal n := by
        refine trimRight_eq_self fun c hc => not_isBlank_of_getLast? (n := n) code ?_
        rw [marker_eq, List.getLast?_append]
        simpa [List.getLast?_cons] using hc
      simp only [lifted, front, tag, Option.map_some, Option.getD_some, marker_eq]
      rw [Comment.cut_append h.opens, Comment.cut_of_slashesApart h.opens.slashesApart]
      simp only [Option.getD_some, htag]

theorem trim_tag : trim (tag n body) = tag n body := by
  cases body with
  | none => rfl
  | some b =>
      refine trim_eq_self (by simp [tag, isBlank]) fun c hc => ?_
      refine not_isBlank_of_getLast? (n := n) [] ?_
      rw [marker_eq]
      simpa [tag, List.getLast?_cons] using hc

theorem trimRight_of_trim {code : List Char} (h : trim code = code) : trimRight code = code := by
  rw [← h]
  exact trimRight_eq_self (getLast?_trim code)

theorem render_place (hcode : trim code = code)
    (hindent : ∀ c ∈ indent, MapColon.isSpace c = true) :
    CodeLine.render indent ⟨code, tag n body⟩ = (place indent code body).lifted n := by
  have hblank : ∀ c ∈ indent, isBlank c = true :=
    fun c hc => MapColon.isBlank_of_isSpace (hindent c hc)
  cases body with
  | none =>
      simp only [CodeLine.render, tag, place, lifted, Option.map_none, Option.getD_none,
        List.isEmpty_nil, if_true, List.append_nil]
      cases code with
      | nil => simpa using trimRight_eq_nil.2 hblank
      | cons c code =>
          have := trimRight_of_trim hcode
          rw [trimRight_append_of_ne_nil indent (by simp [this]), this]
          rfl
  | some b =>
      simp only [CodeLine.render, tag, place, lifted, Option.map_some, Option.getD_some,
        List.isEmpty_cons, Bool.false_eq_true, if_false]
      rw [marker_eq]
      cases code with
      | nil =>
          rw [List.append_nil]
          refine trimRight_eq_self fun c hc => not_isBlank_of_getLast? (n := n) indent ?_
          rwa [marker_eq]
      | cons d code =>
          simp only [List.isEmpty_cons, Bool.false_eq_true, if_false, List.append_assoc,
            List.singleton_append]
          refine trimRight_eq_self fun c hc =>
            not_isBlank_of_getLast? (n := n) (indent ++ (d :: code ++ [' '])) ?_
          rw [marker_eq]
          simpa using hc

section Colons

open MapColon

/-- A trimmed line stays trimmed. -/
theorem trim_space (hcode : trim code = code) (bs : List Char) :
    trim ((⟨bs, .lineStart⟩ : State).space code) = (⟨bs, .lineStart⟩ : State).space code := by
  cases code with
  | nil => rfl
  | cons d code =>
      have hd : isBlank d = false := head?_trim (d :: code) d (by rw [hcode]; rfl)
      obtain ⟨e, he⟩ :=
        Option.isSome_iff_exists.1 (List.getLast?_isSome.2 (List.cons_ne_nil d code))
      have hlast : isBlank e = false := getLast?_trim (d :: code) e (by rw [hcode, he]; rfl)
      refine trim_eq_self (fun c hc => ?_) fun c hc => ?_
      · rw [head?_space rfl (not_isSpace_of_not_isBlank hd), Option.mem_some_iff] at hc
        exact hc ▸ hd
      · rw [getLast?_space he (not_isSpace_of_not_isBlank hlast), Option.mem_some_iff] at hc
        exact hc ▸ hlast

theorem space_eq_nil (hcode : trim code = code) (bs : List Char) :
    (⟨bs, .lineStart⟩ : State).space code = [] ↔ code = [] := by
  refine ⟨fun h => ?_, by rintro rfl; rfl⟩
  cases code with
  | nil => rfl
  | cons c code =>
      have hc : isBlank c = false := head?_trim (c :: code) c (by rw [hcode]; rfl)
      have := head?_space (s := c :: code) rfl (not_isSpace_of_not_isBlank hc) bs
      rw [h] at this
      cases this

theorem space_place (hcode : trim code = code)
    (hindent : ∀ c ∈ indent, isSpace c = true) (bs : List Char) :
    (⟨bs, .lineStart⟩ : State).space ((place indent code body).lifted n) =
      (place indent ((⟨bs, .lineStart⟩ : State).space code) body).lifted n := by
  by_cases hnil : code = []
  · subst hnil
    have hempty : (⟨bs, .lineStart⟩ : State).space [] = [] := rfl
    cases body with
    | none => rfl
    | some b =>
        simp only [place, lifted, List.isEmpty_nil, if_true, Option.map_some, Option.getD_some,
          hempty]
        rw [space_indented hindent, space_plain not_isSpace_marker (by simp)]
  · have hne := mt (space_eq_nil hcode bs).1 hnil
    cases body with
    | none =>
        simp only [place, lifted, List.isEmpty_iff, hnil, hne, if_false, Option.map_none,
          Option.getD_none, List.append_nil]
        exact space_indented hindent bs code
    | some b =>
        have hmarker := not_isSpace_marker (n := n)
        simp only [place, lifted, List.isEmpty_iff, hnil, hne, if_false, Option.map_some,
          Option.getD_some, List.append_assoc, List.singleton_append]
        rw [marker_eq] at hmarker ⊢
        rw [List.forall_mem_cons] at hmarker
        have hahead : Uncolon (' ' :: '/' :: '/' :: '$' :: decimal n) := by
          simp [Uncolon, isSpace]
        rw [space_indented hindent, space_append hahead,
          space_spaced hmarker.1.1 hmarker.1.2 hmarker.2 (by decide)]

/-- Neither the indentation nor the comment of a row changes which brackets are open. -/
theorem brackets_place (hindent : ∀ c ∈ indent, isSpace c = true) (st : State) :
    (st.after ((place indent code body).lifted n)).brackets = (st.after code).brackets := by
  have hmarker : ∀ c ∈ ' ' :: Comment.marker.write n, Lexical.isBracket c = false := by
    intro c hc
    simp only [Lexical.isBracket, Lexical.isOpener, Lexical.isCloser, Bool.or_eq_false_iff,
      decide_eq_false_iff_not, and_assoc]
    refine ⟨?_, ?_, ?_, ?_, ?_, ?_⟩ <;> rintro rfl <;>
      exact not_mem_marker rfl (by decide) (by decide) (List.mem_of_ne_of_mem (by decide) hc)
  cases body with
  | none => cases code <;> simp [place, lifted, after_append, after_spaces hindent]
  | some b =>
      have hbehind : (st.after (code ++ ' ' :: Comment.marker.write n)).brackets =
          (st.after code).brackets := by
        rw [after_append, brackets_after hmarker]
      cases code with
      | nil =>
          simp only [place, lifted, List.isEmpty_nil, if_true, Option.map_some, Option.getD_some]
          rw [after_append, after_spaces hindent, brackets_after fun c hc =>
            hmarker c (List.mem_cons_of_mem _ hc)]
          rfl
      | cons c code =>
          simp only [place, lifted, List.isEmpty_cons, Bool.false_eq_true, if_false,
            Option.map_some, Option.getD_some, List.append_assoc, List.singleton_append]
          rw [after_append, after_spaces hindent, hbehind]

end Colons

/-- The code of a row as it is normalised. -/
def normalized (continued : Bool) (r : Row) : List Char :=
  ((⟨trim r.front, []⟩ : CodeLine).normalize continued).code

/-- `out` is the row `r` in its place, with the colons of maps in place. -/
def LaysOut (r out : Row) : Prop :=
  r.Sound ∧ ∃ indent continued bs, (∀ c ∈ indent, MapColon.isSpace c = true) ∧
    out = place indent ((⟨bs, .lineStart⟩ : MapColon.State).space (r.normalized continued)) r.body

theorem trim_normalized (continued : Bool) (r : Row) :
    trim (r.normalized continued) = r.normalized continued :=
  trim_trim _

theorem normalize_lifted (hr : r.Sound) (continued : Bool) :
    (CodeLine.ofText (r.lifted n)).normalize continued =
      ⟨r.normalized continued, tag n r.body⟩ := by
  rw [ofText_lifted hr]
  simp only [CodeLine.normalize, normalized, trim_tag]

/-- Rows in their places: each has an indentation, a code and perhaps a comment. -/
def placeAll : List (List Char) → List (List Char) → List (Option (List Char)) → List Row
  | indent :: indents, code :: codes, body :: bodies =>
    place indent code body :: placeAll indents codes bodies
  | _, _, _ => []

theorem next_place : (place indent code r.body).next n = r.next n := by
  cases hb : r.body <;> simp [place, next, hb]

/-- The codes of lifted rows, with the colons of maps in place. -/
def codes (bs : List Char) (continued : Bool) (n : Nat) (rows : List Row) : List (List Char) :=
  MapColon.spaceLines bs ((CodeLine.ofLines continued (write n rows)).map (·.code))

theorem codes_cons (hr : r.Sound) (bs : List Char) (continued : Bool) :
    codes bs continued n (r :: rows) =
      (⟨bs, .lineStart⟩ : MapColon.State).space (r.normalized continued) ::
        codes ((⟨bs, .lineStart⟩ : MapColon.State).after (r.normalized continued)).brackets
          (Lexical.isIncomplete (r.normalized continued)) (r.next n) rows := by
  simp only [codes, write, CodeLine.ofLines, List.map_cons, MapColon.spaceLines,
    normalize_lifted hr]

variable {indents : List (List Char)}

/-- The lines of lifted rows, each behind its indentation, are the rows in their places. -/
theorem spaceLines_write (hs : ∀ r ∈ rows, r.Sound) (continued : Bool)
    (hindents : ∀ indent ∈ indents, ∀ c ∈ indent, MapColon.isSpace c = true) (bs : List Char) :
    MapColon.spaceLines bs ((indents.zip (CodeLine.ofLines continued (write n rows))).map
        fun row => row.2.render row.1) =
      write n (placeAll indents (codes bs continued n rows) (rows.map Row.body)) := by
  induction rows generalizing n continued indents bs with
  | nil => cases indents <;> rfl
  | cons r rows ih =>
      cases indents with
      | nil => rfl
      | cons indent indents =>
          rw [List.forall_mem_cons] at hs hindents
          have hcode := trim_normalized continued r
          rw [codes_cons hs.1]
          simp only [write, CodeLine.ofLines, List.zip_cons_cons, List.map_cons,
            MapColon.spaceLines, placeAll, normalize_lifted hs.1, render_place hcode hindents.1,
            space_place hcode hindents.1, brackets_place hindents.1, next_place]
          rw [ih hs.2 _ hindents.2]

theorem laysOut_placeAll (hs : ∀ r ∈ rows, r.Sound) (continued : Bool)
    (hindents : ∀ indent ∈ indents, ∀ c ∈ indent, MapColon.isSpace c = true)
    (hlength : indents.length = rows.length) (bs : List Char) :
    List.Forall₂ LaysOut rows
      (placeAll indents (codes bs continued n rows) (rows.map Row.body)) := by
  induction rows generalizing n continued indents bs with
  | nil =>
      rw [List.length_nil, List.length_eq_zero_iff] at hlength
      rw [hlength]
      exact .nil
  | cons r rows ih =>
      cases indents with
      | nil => simp at hlength
      | cons indent indents =>
          rw [List.forall_mem_cons] at hs hindents
          simp only [List.length_cons, Nat.add_right_cancel_iff] at hlength
          rw [codes_cons hs.1]
          exact .cons ⟨hs.1, _, _, _, hindents.1, rfl⟩ (ih hs.2 _ hindents.2 hlength _)

end Row

namespace Indentation

/-- The units of indentation are spaces and tabs. -/
def Units.Spaces (u : Units) : Prop :=
  ∀ c ∈ u.block ++ u.continuation, MapColon.isSpace c = true

theorem Depth.isSpace_render {u : Units} (hu : u.Spaces) (d : Depth) :
    ∀ c ∈ d.render u, MapColon.isSpace c = true := by
  intro c hc
  apply hu
  simp only [Depth.render, List.mem_append, List.mem_flatten, List.mem_replicate] at hc ⊢
  rcases hc with ⟨_, ⟨_, rfl⟩, hc⟩ | ⟨_, ⟨_, rfl⟩, hc⟩
  · exact .inl hc
  · exact .inr hc

end Indentation

theorem length_ofLines (continued : Bool) (ls : List (List Char)) :
    (CodeLine.ofLines continued ls).length = ls.length := by
  induction ls generalizing continued with
  | nil => rfl
  | cons l ls ih => simp [CodeLine.ofLines, ih]

namespace Layout

/-- The codes of the lines, with the colons of maps in place. -/
def codes (l : Layout) : List (List Char) :=
  MapColon.spaceLines [] (l.lines.map (·.code))

def indents (u : Indentation.Units) (l : Layout) : List (List Char) :=
  l.indentation.depths.map (·.render u)

/-- The rows of a text where its layout has them. -/
def place (u : Indentation.Units) (l : Layout) (rows : List Row) : List Row :=
  Row.placeAll (l.indents u) l.codes (rows.map Row.body)

variable {u : Indentation.Units} {text : List Char} {rows : List Row}

theorem isSpace_indents (hu : u.Spaces) (l : Layout) :
    ∀ indent ∈ l.indents u, ∀ c ∈ indent, MapColon.isSpace c = true := by
  intro indent hindent
  obtain ⟨d, -, rfl⟩ := List.mem_map.1 hindent
  exact d.isSpace_render hu

theorem lines_eq (hsplit : Statement.split (ofText text).comments.text = Row.write 0 rows) :
    (ofText text).lines = CodeLine.ofLines false (Row.write 0 rows) := by
  rw [← hsplit]
  rfl

theorem length_indents (hsplit : Statement.split (ofText text).comments.text = Row.write 0 rows)
    (u : Indentation.Units) : ((ofText text).indents u).length = rows.length := by
  have hlines : ((ofText text).indents u).length = (ofText text).lines.length := by
    simp [indents, ofText, Indentation.length_ofShapes]
  rw [hlines, lines_eq hsplit, length_ofLines, Row.length_write]

/-- A layout holds the rows of the text in their places. -/
theorem code_eq (hu : u.Spaces) (hs : ∀ r ∈ rows, r.Sound)
    (hsplit : Statement.split (ofText text).comments.text = Row.write 0 rows) :
    (ofText text).code u = Text.unlines (Row.write 0 ((ofText text).place u rows)) := by
  have h := Row.spaceLines_write (n := 0) hs false (isSpace_indents hu (ofText text)) []
  rw [code, MapColon.space, join, CodeLine.join, place, codes, lines_eq hsplit]
  exact (MapColon.space_unlines [] _).trans (congrArg Text.unlines h)

theorem laysOut (hu : u.Spaces) (hs : ∀ r ∈ rows, r.Sound)
    (hsplit : Statement.split (ofText text).comments.text = Row.write 0 rows) :
    List.Forall₂ Row.LaysOut rows ((ofText text).place u rows) := by
  rw [place, codes, lines_eq hsplit]
  exact Row.laysOut_placeAll hs false (isSpace_indents hu _) (length_indents hsplit u) []

end Layout

end MiniScriptLayout
