import MiniScriptLayout.Proofs.Indentation.Prefix
import MiniScriptLayout.Proofs.Rows.Rereading

/-!
The layout of a text as a function of its rows. Rows behind others do not change how those are laid
out, and the text of a layout is that of its rows, with the literals of the text put back.
-/

namespace MiniScriptLayout

namespace MapColon

theorem exists_spaceLines_append (brackets : List Char) (ls : List (List Char)) :
    ∃ brackets', ∀ ms, spaceLines brackets (ls ++ ms) =
      spaceLines brackets ls ++ spaceLines brackets' ms := by
  induction ls generalizing brackets with
  | nil => exact ⟨brackets, fun ms => rfl⟩
  | cons l ls ih =>
      obtain ⟨brackets', h⟩ := ih ((⟨brackets, .lineStart⟩ : State).after l).brackets
      refine ⟨brackets', fun ms => ?_⟩
      rw [List.cons_append, spaceLines, h]
      rfl

end MapColon

namespace Row

open Text

variable {n : Nat} {rows others : List Row}

/-- The codes of some rows as they are normalised; `continued` says that the rows follow an
incomplete statement. -/
def normalizedAll (continued : Bool) : List Row → List (List Char)
  | [] => []
  | r :: rows =>
    r.normalized continued ::
      normalizedAll (Lexical.isIncomplete (r.normalized continued)) rows

/-- The rows leave a statement incomplete. -/
def leaveOpen (continued : Bool) : List Row → Bool
  | [] => continued
  | r :: rows => leaveOpen (Lexical.isIncomplete (r.normalized continued)) rows

/-- The rows in their places. -/
def lay (u : Indentation.Units) (rows : List Row) : List Row :=
  placeAll (Indentation.indents u (normalizedAll false rows))
    (MapColon.spaceLines [] (normalizedAll false rows)) (rows.map Row.body)

theorem length_normalizedAll (continued : Bool) :
    (normalizedAll continued rows).length = rows.length := by
  induction rows generalizing continued with
  | nil => rfl
  | cons r rows ih => simp [normalizedAll, ih]

theorem normalizedAll_append (continued : Bool) :
    normalizedAll continued (rows ++ others) =
      normalizedAll continued rows ++ normalizedAll (leaveOpen continued rows) others := by
  induction rows generalizing continued with
  | nil => rfl
  | cons r rows ih => simp [normalizedAll, leaveOpen, ih]

theorem leaveOpen_append (continued : Bool) :
    leaveOpen continued (rows ++ others) = leaveOpen (leaveOpen continued rows) others := by
  induction rows generalizing continued with
  | nil => rfl
  | cons r rows ih => simp [leaveOpen, ih]

theorem code_ofLines (hs : ∀ r ∈ rows, r.Sound) (continued : Bool) :
    (CodeLine.ofLines continued (write n rows)).map (·.code) = normalizedAll continued rows := by
  induction rows generalizing n continued with
  | nil => rfl
  | cons r rows ih =>
      rw [List.forall_mem_cons] at hs
      simp only [write, CodeLine.ofLines, List.map_cons, normalize_lifted hs.1, normalizedAll,
        ih hs.2]

theorem placeAll_append {is js cs ds : List (List Char)} {bs es : List (Option (List Char))}
    (hcs : cs.length = is.length) (hbs : bs.length = is.length) :
    placeAll (is ++ js) (cs ++ ds) (bs ++ es) = placeAll is cs bs ++ placeAll js ds es := by
  induction is generalizing cs bs with
  | nil =>
      obtain rfl := List.length_eq_zero_iff.1 hcs
      obtain rfl := List.length_eq_zero_iff.1 hbs
      rfl
  | cons i is ih =>
      obtain ⟨c, cs, rfl⟩ := List.exists_cons_of_length_eq_add_one hcs
      obtain ⟨b, bs, rfl⟩ := List.exists_cons_of_length_eq_add_one hbs
      simp only [List.length_cons, Nat.add_right_cancel_iff] at hcs hbs
      simp [placeAll, ih hcs hbs]

theorem length_placeAll {is cs : List (List Char)} {bs : List (Option (List Char))}
    (hcs : cs.length = is.length) (hbs : bs.length = is.length) :
    (placeAll is cs bs).length = is.length := by
  induction is generalizing cs bs with
  | nil => rfl
  | cons i is ih =>
      obtain ⟨c, cs, rfl⟩ := List.exists_cons_of_length_eq_add_one hcs
      obtain ⟨b, bs, rfl⟩ := List.exists_cons_of_length_eq_add_one hbs
      simp only [List.length_cons, Nat.add_right_cancel_iff] at hcs hbs
      simp [placeAll, ih hcs hbs]

theorem length_lay (u : Indentation.Units) (rows : List Row) :
    (lay u rows).length = rows.length := by
  rw [lay, length_placeAll] <;>
    simp [Indentation.length_indents, MapColon.length_spaceLines, length_normalizedAll]

/-- Rows and those behind them are laid out on their own, but for the indentations and the brackets
that the first ones leave open. -/
theorem exists_lay_append (rows : List Row) :
    ∃ brackets, ∀ (u : Indentation.Units) (others : List Row) {is js : List (List Char)},
      Indentation.indents u (normalizedAll false (rows ++ others)) = is ++ js →
      is.length = rows.length →
      lay u (rows ++ others) =
        placeAll is (MapColon.spaceLines [] (normalizedAll false rows)) (rows.map Row.body) ++
          placeAll js (MapColon.spaceLines brackets (normalizedAll (leaveOpen false rows) others))
            (others.map Row.body) := by
  obtain ⟨brackets, hcodes⟩ :=
    MapColon.exists_spaceLines_append [] (normalizedAll false rows)
  refine ⟨brackets, fun u others is js hindents hlength => ?_⟩
  rw [lay, hindents, normalizedAll_append, hcodes, List.map_append, placeAll_append]
  · simp [MapColon.length_spaceLines, length_normalizedAll, hlength]
  · simp [hlength]

/-- Rows are laid out alike whatever rows follow. -/
theorem isPrefix_lay (u : Indentation.Units) (rows others : List Row) :
    lay u rows <+: lay u (rows ++ others) := by
  obtain ⟨brackets, happend⟩ := exists_lay_append rows
  obtain ⟨more, hindents⟩ := Indentation.isPrefix_indents u (normalizedAll false rows)
    (normalizedAll (leaveOpen false rows) others)
  rw [← normalizedAll_append] at hindents
  rw [happend u others hindents.symm (by simp [Indentation.length_indents, length_normalizedAll])]
  exact List.prefix_append _ _

theorem exists_lay_concat {r : Row} {ds : List Indentation.Depth} {d : Indentation.Depth}
    (hdepths : (Indentation.ofShapes ((normalizedAll false (rows ++ [r])).map .ofCode)).depths =
      ds ++ [d]) (u : Indentation.Units) :
    ∃ laid brackets, lay u (rows ++ [r]) = laid ++ [place (d.render u)
      ((⟨brackets, .lineStart⟩ : MapColon.State).space (r.normalized (leaveOpen false rows)))
      r.body] := by
  obtain ⟨brackets, happend⟩ := exists_lay_append rows
  have hindents : Indentation.indents u (normalizedAll false (rows ++ [r])) =
      ds.map (·.render u) ++ [d.render u] := by
    rw [Indentation.indents, hdepths, List.map_append, List.map_singleton]
  have hlength := congrArg List.length hdepths
  rw [Indentation.length_ofShapes, List.length_map, length_normalizedAll, List.length_append,
    List.length_append, List.length_singleton, List.length_singleton, Nat.add_right_cancel_iff]
    at hlength
  exact ⟨_, brackets, happend u [r] hindents (by simp [hlength])⟩

theorem place_eq {text : List Char} (hs : ∀ r ∈ rows, r.Sound)
    (hsplit : Statement.split (Layout.ofText text).comments.text = write 0 rows)
    (u : Indentation.Units) : (Layout.ofText text).place u rows = lay u rows := by
  have hcodes : (Layout.ofText text).lines.map (·.code) = normalizedAll false rows := by
    rw [Layout.lines_eq hsplit, code_ofLines hs]
  have hindents : (Layout.ofText text).indents u =
      Indentation.indents u (normalizedAll false rows) := by
    rw [Indentation.indents, ← hcodes, List.map_map]
    rfl
  rw [Layout.place, Layout.codes, hcodes, hindents, lay]

theorem Holds.layOut_eq {text : List Char} (h : Holds text rows) {u : Indentation.Units}
    (hu : u.Spaces) :
    layOut u text =
      Literal.restore (Literal.lift text).table (unlines ((lay u rows).map Row.text)) := by
  rw [layOut, Layout.render, h.restore_code hu, place_eq h.sound h.split]
  rfl

theorem Holds.laysOut {text : List Char} (h : Holds text rows) {u : Indentation.Units}
    (hu : u.Spaces) : List.Forall₂ LaysOut rows (lay u rows) := by
  rw [← place_eq h.sound h.split u]
  exact Layout.laysOut hu h.sound h.split

end Row
end MiniScriptLayout
