import Mathlib
import MiniScriptLayout.Proofs.Indentation.Rest
import MiniScriptLayout.Proofs.Preservation
import MiniScriptLayout.Proofs.Rows.Bare

/-!
Comments between the lines of a text. Behind lines that leave no statement open, such a comment has
a line of its own in the layout, and no other line changes. Behind all other lines it ends the
statement, and there is a line behind it that changes.
-/

namespace MiniScriptLayout

open Text

theorem Text.insertIdx_length {α : Type} (xs ys : List α) (a : α) :
    (xs ++ ys).insertIdx xs.length a = xs ++ a :: ys := by
  rw [List.insertIdx, ← Nat.add_zero xs.length, List.modifyTailIdx_add]
  rfl

/-- A line of a text without literals and separators. -/
structure PlainLine where
  text : List Char
  feed : '\n' ∉ text
  quote : '"' ∉ text
  separator : ';' ∉ text

theorem PlainLine.simple (ls : List PlainLine) : ∀ l ∈ ls.map text, Row.Simple l := by
  intro l hl
  obtain ⟨k, -, rfl⟩ := List.mem_map.1 hl
  refine ⟨k.feed, k.quote, fun hmem => k.separator ?_⟩
  exact (Row.isPrefix_front ⟨k.text, none⟩).subset (mem_of_mem_trim hmem)

/-- A line that holds nothing but a comment. -/
structure Note where
  gap : List Char
  body : List Char
  inline : ∀ c ∈ gap, isInlineBlank c = true
  feed : '\n' ∉ body
  quote : '"' ∉ body

namespace Note

def line (n : Note) : List Char :=
  n.gap ++ '/' :: '/' :: n.body

/-- The comment as it is laid out. -/
def text (n : Note) : List Char :=
  Comment.render (trimRight n.body)

/-- Between the lines of a text, the comment has a line of its own in the layout, and no other line
of the layout changes. -/
def Transparent (n : Note) (u : Indentation.Units) (before after : List (List Char)) : Prop :=
  ∃ indent, (∀ c ∈ indent, MapColon.isSpace c = true) ∧
    lines (layOut u (unlines (before ++ n.line :: after))) =
      (lines (layOut u (unlines (before ++ after)))).insertIdx
        (fromFirst before).length (indent ++ n.text)

def row (n : Note) : Row :=
  ⟨n.gap, some (trimRight n.body)⟩

theorem not_mem_gap (n : Note) {c : Char} (hc : isInlineBlank c = false) : c ∉ n.gap :=
  Text.not_mem_gap n.inline hc

theorem isBlank_gap (n : Note) : ∀ c ∈ n.gap, isBlank c = true :=
  Text.isBlank_gap n.inline

theorem cut_line (n : Note) : Comment.cut n.line = (n.gap, some n.body) := by
  rw [line, Comment.cut_blanks_append n.isBlank_gap]
  simp [Comment.cut]

theorem ofLine_line (n : Note) : Row.ofLine n.line = n.row := by
  have hall : n.gap.all isBlank = true := List.all_eq_true.2 n.isBlank_gap
  simp [Row.ofLine, Comment.ofLine?, n.cut_line, hall, row]

theorem simple_line (n : Note) : Row.Simple n.line where
  feed := by
    have hgap : '\n' ∉ n.gap := n.not_mem_gap rfl
    simp [line, hgap, n.feed]
  quote := by
    have hgap : '"' ∉ n.gap := n.not_mem_gap rfl
    simp [line, hgap, n.quote]
  separator hmem := by
    rw [Comment.parts, n.cut_line] at hmem
    exact n.not_mem_gap rfl (mem_of_mem_trim hmem)

theorem isBlankLine_line (n : Note) : isBlankLine n.line = false := by
  simp [line, isBlankLine, isBlank]

theorem isBlank_front (n : Note) : ∀ c ∈ n.row.front, isBlank c = true :=
  fun c hc => n.isBlank_gap c ((Row.isPrefix_front n.row).subset hc)

end Note

/-- The rows that a text begins with. -/
def firstRows (before : List (List Char)) : List Row :=
  (fromFirst before).map Row.ofLine

/-- The lines leave no statement open: the last of their codes is complete, and a line without code
behind them continues nothing. -/
def Complete (before : List (List Char)) : Prop :=
  Row.leaveOpen false (firstRows before) = false ∧
    Indentation.AtRest ((Row.normalizedAll false (firstRows before)).map .ofCode)

instance (before : List (List Char)) : Decidable (Complete before) :=
  inferInstanceAs (Decidable (_ ∧ _))

namespace Row

variable {rows : List Row} {r : Row}

/-- A row without code that continues nothing takes a place of its own. -/
theorem exists_lay_insert (hclosed : leaveOpen false rows = false)
    (hrest : Indentation.AtRest ((normalizedAll false rows).map .ofCode))
    (hr : ∀ c ∈ r.front, isBlank c = true) (u : Indentation.Units) (others : List Row) :
    ∃ (d : Indentation.Depth) (laid laid' : List Row), laid.length = rows.length ∧
      lay u (rows ++ others) = laid ++ laid' ∧
      lay u (rows ++ r :: others) = laid ++ place (d.render u) [] r.body :: laid' := by
  obtain ⟨d, hinsert⟩ := hrest.exists_insert
  obtain ⟨brackets, happend⟩ := exists_lay_append rows
  obtain ⟨ds, hold, hnew⟩ := hinsert ((normalizedAll false others).map .ofCode)
  have hnil : ∀ continued, r.normalized continued = [] :=
    fun continued => normalized_eq_nil continued hr
  have hcodes : normalizedAll false (rows ++ others) =
      normalizedAll false rows ++ normalizedAll false others := by
    rw [normalizedAll_append, hclosed]
  have hcodes' : normalizedAll false (rows ++ r :: others) =
      normalizedAll false rows ++ [] :: normalizedAll false others := by
    rw [normalizedAll_append, normalizedAll, hnil]
    rfl
  have hempty : Indentation.Shape.ofCode [] = .empty := rfl
  have hindents : Indentation.indents u (normalizedAll false (rows ++ others)) =
      Indentation.indents u (normalizedAll false rows) ++ ds.map (·.render u) := by
    rw [Indentation.indents, hcodes, List.map_append, hold, List.map_append]
    rfl
  have hindents' : Indentation.indents u (normalizedAll false (rows ++ r :: others)) =
      Indentation.indents u (normalizedAll false rows) ++
        (d.render u :: ds.map (·.render u)) := by
    rw [Indentation.indents, hcodes', List.map_append, List.map_cons, hempty, hnew,
      List.map_append]
    rfl
  have hlength : (Indentation.indents u (normalizedAll false rows)).length = rows.length := by
    rw [Indentation.length_indents, length_normalizedAll]
  refine ⟨d, _, _, ?_, happend u others hindents hlength, ?_⟩
  · rw [length_placeAll, hlength]
    · rw [MapColon.length_spaceLines, Indentation.length_indents]
    · rw [List.length_map, hlength]
  · rw [happend u (r :: others) hindents' hlength, normalizedAll, hnil, hclosed]
    rfl

end Row

namespace Note

variable {n : Note} {before after : List (List Char)} {u : Indentation.Units}
  (hb : ∀ l ∈ before, Row.Simple l) (hu : u.Spaces)
include hb hu

theorem lines_layOut_insert (n : Note) (ha : ∀ l ∈ after, Row.Simple l) :
    lines (layOut u (unlines (before ++ n.line :: after))) =
      (Row.lay u (firstRows before ++ n.row :: (upToLast after).map Row.ofLine)).map Row.text := by
  have hs : ∀ l ∈ before ++ n.line :: after, Row.Simple l := by
    rw [List.forall_mem_append, List.forall_mem_cons]
    exact ⟨hb, n.simple_line, ha⟩
  rw [Row.lines_layOut_unlines (.of_insert n.isBlankLine_line before after) hs hu,
    List.map_append, List.map_cons, n.ofLine_line, firstRows]

theorem lines_layOut_inside (ha : ∀ l ∈ after, Row.Simple l) (hinside : Inside before after) :
    lines (layOut u (unlines (before ++ after))) =
      (Row.lay u (firstRows before ++ (upToLast after).map Row.ofLine)).map Row.text := by
  have hs : ∀ l ∈ before ++ after, Row.Simple l := by
    rw [List.forall_mem_append]
    exact ⟨hb, ha⟩
  rw [Row.lines_layOut_unlines (.of_inside hinside) hs hu, List.map_append, firstRows]

theorem transparent_of_complete (n : Note) (ha : ∀ l ∈ after, Row.Simple l) (h : Complete before)
    (hinside : Inside before after) : n.Transparent u before after := by
  obtain ⟨d, laid, laid', hlength, hold, hnew⟩ :=
    Row.exists_lay_insert h.1 h.2 n.isBlank_front u ((upToLast after).map Row.ofLine)
  rw [firstRows, List.length_map] at hlength
  refine ⟨d.render u, d.isSpace_render hu, ?_⟩
  rw [lines_layOut_insert hb hu n ha, lines_layOut_inside hb hu ha hinside, hold, hnew,
    List.map_append, List.map_append, List.map_cons, ← hlength, ← List.length_map (f := Row.text),
    insertIdx_length]
  rfl

/-- In front of the last line, a comment is transparent only if that line stays as it is. -/
theorem Transparent.last_eq {l : List Char} (h : n.Transparent u before [l])
    (hl : isBlankLine l = false) (hs : Row.Simple l) {laid laid' : List Row} {r r' : Row}
    (hold : Row.lay u (firstRows before ++ [Row.ofLine l]) = laid ++ [r])
    (hnew : Row.lay u (firstRows before ++ [n.row] ++ [Row.ofLine l]) = laid' ++ [r']) :
    r'.text = r.text := by
  obtain ⟨indent, -, heq⟩ := h
  have ha : ∀ k ∈ [l], Row.Simple k := List.forall_mem_singleton.2 hs
  have hinside : Inside before [l] := ⟨.inr ⟨l, rfl, hl⟩, .inl ⟨l, by simp, hl⟩⟩
  have hlast : upToLast [l] = [l] := List.rdropWhile_eq_self_iff.2 (by simpa using hl)
  have hlength : (fromFirst before).length = laid.length := by
    have := congrArg List.length hold
    simpa [Row.length_lay, firstRows] using this
  rw [lines_layOut_insert hb hu n ha, lines_layOut_inside hb hu ha hinside, hlast,
    List.map_singleton, hold, List.map_append, hlength, ← List.length_map (f := Row.text),
    insertIdx_length, List.append_cons, hnew] at heq
  have := congrArg List.getLast? heq
  simpa using this

omit hb hu

/-- The call of a function without arguments. It keeps its parentheses only if it continues a
statement. -/
def call (continued : Bool) : List Char :=
  if continued then ['f', '(', ')'] else ['f']

theorem normalized_call (continued : Bool) :
    (Row.ofLine (call true)).normalized continued = call continued := by
  cases continued <;> cbv

theorem text_call (indent brackets : List Char) (continued : Bool) :
    let state : MapColon.State := ⟨brackets, .lineStart⟩
    (Row.place indent (state.space (call continued)) none).text = indent ++ call continued := by
  intro state
  have hcall : ∀ c ∈ call continued, MapColon.isSpace c = false ∧ c ≠ ':' := by
    cases continued <;> simp [call, MapColon.isSpace]
  rw [MapColon.space_plain hcall (by simp)]
  cases continued <;> simp [Row.place, Row.text, call]

theorem simple_call : Row.Simple (call true) where
  feed := by decide
  quote := by decide
  separator := by decide

/-- The depths of some lines of code. -/
def depths (codes : List (List Char)) : List Indentation.Depth :=
  (Indentation.ofShapes (codes.map .ofCode)).depths

theorem exists_depths (codes : List (List Char)) (code : List Char) :
    ∃ ds d, depths (codes ++ [code]) = ds ++ [d] := by
  have hne : depths (codes ++ [code]) ≠ [] := by
    rw [depths, ← List.length_pos_iff, Indentation.length_ofShapes]
    simp
  exact ⟨_, _, (List.dropLast_append_getLast hne).symm⟩

variable {continued : Bool} {ds ds' : List Indentation.Depth} {d d' : Indentation.Depth}

include hb hu in
/-- If a comment is transparent in front of a call, the call has the same indentation and the same
parentheses behind it. -/
theorem Transparent.call_eq (h : n.Transparent u before [call true])
    (hopen : Row.leaveOpen false (firstRows before) = continued)
    (hold : depths (Row.normalizedAll false (firstRows before) ++ [call continued]) = ds ++ [d])
    (hnew : depths (Row.normalizedAll false (firstRows before) ++ [[], call false]) =
      ds' ++ [d']) :
    d'.render u ++ call false = d.render u ++ call continued := by
  have hnil : ∀ continued, n.row.normalized continued = [] :=
    fun continued => Row.normalized_eq_nil continued n.isBlank_front
  have hopen' : Row.leaveOpen false (firstRows before ++ [n.row]) = false := by
    rw [Row.leaveOpen_append, Row.leaveOpen, hnil]
    rfl
  have hrows : depths (Row.normalizedAll false (firstRows before ++ [Row.ofLine (call true)])) =
      ds ++ [d] := by
    rw [Row.normalizedAll_append, hopen, Row.normalizedAll, normalized_call]
    exact hold
  have hrows' : depths (Row.normalizedAll false
      (firstRows before ++ [n.row] ++ [Row.ofLine (call true)])) = ds' ++ [d'] := by
    rw [Row.normalizedAll_append, hopen', Row.normalizedAll_append]
    simp only [Row.normalizedAll, hnil, normalized_call, List.append_assoc, List.singleton_append]
    exact hnew
  obtain ⟨laid, brackets, hlaid⟩ := Row.exists_lay_concat hrows u
  obtain ⟨laid', brackets', hlaid'⟩ := Row.exists_lay_concat hrows' u
  have hblank : isBlankLine (call true) = false := by decide
  have htext := h.last_eq hb hu hblank simple_call hlaid hlaid'
  rw [hopen, hopen', normalized_call, normalized_call] at htext
  exact (text_call _ brackets' false).symm.trans (htext.trans (text_call _ brackets continued))

include hb hu in
theorem complete_of_transparent (hunit : u.continuation ≠ [])
    (h : n.Transparent u before [call true]) : Complete before := by
  have hclosed : Row.leaveOpen false (firstRows before) = false := by
    by_contra hopen
    rw [Bool.not_eq_false] at hopen
    -- behind the comment the call has no parentheses
    obtain ⟨ds, d, hold⟩ := exists_depths (Row.normalizedAll false (firstRows before)) (call true)
    obtain ⟨ds', d', hnew⟩ :=
      exists_depths (Row.normalizedAll false (firstRows before) ++ [[]]) (call false)
    rw [List.append_assoc] at hnew
    have htext := congrArg List.getLast? (h.call_eq hb hu hopen hold hnew)
    simp [call] at htext
  refine ⟨hclosed, ?_⟩
  by_contra hrest
  -- behind the comment the call has fewer continuation units
  obtain ⟨-, -, ds, b, c, c', hlt, hold, hnew⟩ := Indentation.loses_of_not_atRest hrest
  have hold' : depths (Row.normalizedAll false (firstRows before) ++ [call false]) =
      ds ++ [⟨b, c⟩] := by
    rw [depths, List.map_append]
    exact hold
  have hnew' : depths (Row.normalizedAll false (firstRows before) ++ [[], call false]) =
      (ds ++ [⟨b, c⟩]) ++ [⟨b, c'⟩] := by
    rw [depths, List.map_append, List.append_assoc]
    exact hnew
  have hrender := List.append_cancel_right (h.call_eq hb hu hclosed hold' hnew')
  rw [Indentation.Depth.render, Indentation.Depth.render, List.append_cancel_left_eq] at hrender
  exact absurd (Indentation.flatten_replicate_injective hunit hrender) (Nat.ne_of_lt hlt)

end Note

/-- Behind some lines, comments that have a line of their own are transparent in every text exactly
if these lines leave no statement open. -/
theorem transparent_iff_complete (before : List PlainLine) :
    (∀ (o : Options) (n : Note) (after : List PlainLine),
        Inside (before.map PlainLine.text) (after.map PlainLine.text) →
          n.Transparent o.units (before.map PlainLine.text) (after.map PlainLine.text)) ↔
      Complete (before.map PlainLine.text) := by
  constructor
  · intro h
    let note : Note := ⟨[], ['a'], by simp, by decide, by decide⟩
    let call : PlainLine := ⟨Note.call true, by decide, by decide, by decide⟩
    have hcall : isBlankLine call.text = false := by decide
    have hinside : Inside (before.map PlainLine.text) [call.text] :=
      ⟨.inr ⟨_, rfl, hcall⟩, .inl ⟨_, List.mem_singleton_self _, hcall⟩⟩
    exact Note.complete_of_transparent (PlainLine.simple before) Options.standard.spaces_units
      (by decide) (h .standard note [call] hinside)
  · intro h o n after hinside
    exact Note.transparent_of_complete (PlainLine.simple before) o.spaces_units n
      (PlainLine.simple after) h hinside

/-- Without the comment the call continues the first line, with it the call is a statement. -/
theorem layOut_note_behind_operator :
    layOut Options.standard.units "a +\nf(x)".toList = "a +\n  f(x)".toList ∧
      layOut Options.standard.units "a +\n// note\nf(x)".toList =
        "a +\n  // note\nf x".toList := by
  constructor <;> cbv

end MiniScriptLayout
