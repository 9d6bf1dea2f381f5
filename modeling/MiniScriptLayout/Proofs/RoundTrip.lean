import MiniScriptLayout.Proofs.Lifting.Quote
import MiniScriptLayout.Proofs.Rows.Lifting

/-!
Lifting and putting back. The literals of a text come back where they were, whatever the text holds
that looks like a marker. Its comments come back as they are rendered, behind the code that they
were behind, and doing so again changes nothing.
-/

namespace MiniScriptLayout

namespace Literal

/-- A literal is closed, or it is without end and runs to the end of the text. -/
theorem entry_cases {s l : List Char} {i : Nat} (h : (lift s).table[i]? = some l) :
    ∃ body, Doubled body ∧ (l = '"' :: (body ++ ['"']) ∨
      l = '"' :: body ∧ i + 1 = (lift s).table.length ∧
        ∃ before, s = before ++ l ∧ (lift s).text = (lift before).text ++ marker.write i) := by
  rcases exists_open 0 s with hclosed | ⟨before, body, hbody, hbefore, hlast, rfl⟩
  · obtain ⟨body, hbody, hl⟩ := closed_iff.1 (hclosed l (List.mem_of_getElem? h))
    exact ⟨body, hbody, .inl hl⟩
  · rw [lift_open hbody hbefore hlast] at h ⊢
    rcases Nat.lt_or_ge i (lift before).table.length with hi | hi
    · rw [List.getElem?_append_left hi] at h
      obtain ⟨body', hbody', hl⟩ := closed_iff.1 (hbefore l (List.mem_of_getElem? h))
      exact ⟨body', hbody', .inl hl⟩
    · rw [List.getElem?_append_right hi, List.getElem?_singleton] at h
      split at h
      · obtain rfl : i = (lift before).table.length := by omega
        obtain rfl := Option.some.inj h
        exact ⟨body, hbody, .inr ⟨rfl, by simp, before, rfl, rfl⟩⟩
      · cases h

end Literal

namespace Comment

open Text

/-- Lifts the comments of a text and puts them back. -/
def rerender (s : List Char) : List Char :=
  restore (lift s).table (lift s).text

/-- The second lines are the first ones with their comments as they are rendered, and the third are
the bodies of these comments. A line without a comment stays, and so does the code before one. -/
inductive Renders : List (List Char) → List (List Char) → List (List Char) → Prop
  | nil : Renders [] [] []
  | line {line : List Char} {ls ms table : List (List Char)} :
      Uncommented line → Renders ls ms table → Renders (line :: ls) (line :: ms) table
  | comment {code rest : List Char} {ls ms table : List (List Char)} :
      OpensComment code → ((∀ c ∈ rest, isBlank c = true) → ∀ c ∈ code, isBlank c = true) →
      Renders ls ms table →
      Renders ((code ++ '/' :: '/' :: rest) :: ls) ((code ++ render (trimRight rest)) :: ms)
        (trimRight rest :: table)

end Comment

namespace Row

open Text Comment

variable {n : Nat} {rows : List Row}

/-- The markers of rows are numbered in order, and nothing else is one. -/
theorem slot_lt (hs : ∀ r ∈ rows, r.Sound) {k : Nat} {digits : List Char}
    (hk : .slot k digits ∈ Comment.marker.pieces (unlines (write n rows))) :
    k < n + (bodies rows).length := by
  induction rows generalizing n with
  | nil =>
      rw [write, show unlines [] = [] from rfl, Marker.pieces_nil] at hk
      cases hk
  | cons r rows ih =>
      rw [List.forall_mem_cons] at hs
      have hcode : .slot k digits ∉ r.code.map Marker.Piece.char := by simp
      have hrest : .slot k digits ∈ (if rows = [] then []
          else .char '\n' :: Comment.marker.pieces (unlines (write (r.next n) rows))) →
          k < r.next n + (bodies rows).length := by
        intro hmem
        split at hmem
        · cases hmem
        · exact ih hs.2 ((List.mem_cons.1 hmem).resolve_left (by simp))
      rw [pieces_write_cons hs.1, List.mem_append, List.mem_append] at hk
      rcases hk.resolve_left hcode with hslot | hmem
      · cases hr : r.body with
        | none => simp [hr] at hslot
        | some b =>
            have hslot : k = n ∧ digits = decimal n := by simpa [hr] using hslot
            simp [bodies, hr, hslot.1]
      · rw [← next_add_length]
        exact hrest hmem

theorem missing?_lift (s : List Char) :
    Comment.marker.missing? (Comment.lift s).table (Comment.lift s).text = none := by
  rw [Marker.missing?_eq_none_iff, lift_eq]
  intro k digits hk
  have hs : ∀ r ∈ ofText s, r.Sound := sound_map_ofLine (not_mem_lines _)
  simpa using slot_lt hs hk

theorem rerender_eq (s : List Char) : rerender s = unlines ((ofText s).map text) := by
  rw [rerender, lift_eq]
  exact restore_write (sound_map_ofLine (not_mem_lines _)) List.drop_zero

theorem not_mem_text_ofLine {line : List Char} {c : Char} (h : c ∉ line) (hslash : c ≠ '/')
    (hspace : c ≠ ' ') : c ∉ (ofLine line).text := by
  rcases ofLine_cases line with ⟨hrow, -⟩ | ⟨code, rest, rfl, -, -, hrow⟩
  · rw [hrow]
    exact not_mem_text h (by simp) hslash hspace
  · rw [List.mem_append, not_or, List.mem_cons, not_or, List.mem_cons, not_or] at h
    rw [hrow]
    refine not_mem_text h.1 ?_ hslash hspace
    rintro b ⟨⟩ hb
    exact h.2.2.2 ((trimRight_sublist rest).subset hb)

/-- The text of a line's row is read as a row with the same text. -/
theorem text_ofLine_text {line : List Char} (h : '\n' ∉ line) :
    (ofLine (ofLine line).text).text = (ofLine line).text := by
  rcases ofLine_cases line with ⟨hrow, -⟩ | ⟨code, rest, -, -, -, hrow⟩
  · have htext : (ofLine line).text = line := by simp [hrow, text]
    rw [htext, htext]
  · have hsound := sound_ofLine h
    rw [hrow] at hsound ⊢
    cases hsound with
    | comment hcomment =>
        rw [ofLine_text (.comment hcomment), reread, text, text, Option.map_some, Option.map_some,
          Option.map_some, Option.getD_some, Option.getD_some, render_rendered]

theorem renders_ofLine (ls : List (List Char)) :
    Renders ls ((ls.map ofLine).map text) (bodies (ls.map ofLine)) := by
  induction ls with
  | nil => exact .nil
  | cons line ls ih =>
      rw [List.map_cons, List.map_cons, bodies, List.filterMap_cons]
      rcases ofLine_cases line with ⟨hrow, hline⟩ | ⟨code, rest, rfl, hopen, hbare, hrow⟩
      · rw [hrow, text, Option.map_none, Option.getD_none, List.append_nil]
        exact .line hline ih
      · rw [hrow, text, Option.map_some, Option.getD_some]
        exact .comment hopen hbare ih

theorem lines_rerender (s : List Char) : lines (rerender s) = (ofText s).map text := by
  rw [rerender_eq]
  refine lines_unlines (by simpa [ofText] using lines_ne_nil (joinReturns s)) ?_
  rw [ofText, List.map_map, List.forall_mem_map]
  exact fun l hl => not_mem_text_ofLine (not_mem_lines _ l hl) (by decide) (by decide)

theorem renders_rerender (s : List Char) :
    Renders (lines (joinReturns s)) (lines (rerender s)) (Comment.lift s).table := by
  rw [lines_rerender, lift_eq]
  exact renders_ofLine _

/-- Without carriage returns the comments are rendered already. -/
theorem rerender_rerender {s : List Char} (h : '\r' ∉ s) :
    rerender (rerender s) = rerender s := by
  have hline : ∀ l ∈ lines s, '\r' ∉ l := by
    intro l hl hmem
    rw [← unlines_lines s, mem_unlines (by decide)] at h
    exact h ⟨l, hl, hmem⟩
  have hreturn : '\r' ∉ rerender s := by
    rw [← unlines_lines (rerender s), lines_rerender, ofText, joinReturns_of_not_mem_return h,
      mem_unlines (by decide), List.map_map]
    rintro ⟨l, hl, hmem⟩
    obtain ⟨line, hmap, rfl⟩ := List.mem_map.1 hl
    exact not_mem_text_ofLine (hline line hmap) (by decide) (by decide) hmem
  have hagain : ∀ r ∈ ofText s, (ofLine r.text).text = r.text := by
    intro r hr
    obtain ⟨line, hmap, rfl⟩ := List.mem_map.1 hr
    exact text_ofLine_text (not_mem_lines _ line hmap)
  calc rerender (rerender s)
      = unlines (((lines (rerender s)).map ofLine).map text) := by
        rw [rerender_eq, ofText, joinReturns_of_not_mem_return hreturn]
    _ = unlines ((ofText s).map text) := by
        rw [lines_rerender, List.map_map, List.map_map]
        exact congrArg unlines (List.map_congr_left hagain)
    _ = rerender s := (rerender_eq s).symm

end Row

/-- Literals are put back where they were, and comments as they are rendered. -/
theorem restore_lifted_text :
    (∀ t, Literal.marker.missing? (Literal.lift t).table (Literal.lift t).text = none ∧
      Literal.restore (Literal.lift t).table (Literal.lift t).text = t ∧
      Literal.Marked 0 (Literal.lift t).table.length (Literal.lift t).text ∧
      ∀ i l, (Literal.lift t).table[i]? = some l → ∃ body, Literal.Doubled body ∧
        (l = '"' :: (body ++ ['"']) ∨
          l = '"' :: body ∧ i + 1 = (Literal.lift t).table.length ∧ ∃ before, t = before ++ l ∧
            (Literal.lift t).text = (Literal.lift before).text ++ Literal.marker.write i)) ∧
    (∀ c, Comment.marker.missing? (Comment.lift c).table (Comment.lift c).text = none ∧
      Comment.Renders (Text.lines (Text.joinReturns c)) (Text.lines (Comment.rerender c))
        (Comment.lift c).table ∧
      ('\r' ∉ c → Comment.rerender (Comment.rerender c) = Comment.rerender c)) := by
  constructor
  · intro t
    have hmarked := Literal.marked_lift t
    exact ⟨hmarked.missing?_eq_none (Nat.le_refl _), Literal.restore_lift t, hmarked,
      fun i l hl => Literal.entry_cases hl⟩
  · intro c
    exact ⟨Row.missing?_lift c, Row.renders_rerender c, Row.rerender_rerender⟩

/-- The literal without end looks like a marker, and so does the first comment. -/
theorem restore_lifted_text_markers :
    (Literal.lift "$0 \"$1\" \"a\"\"b\" \"$0".toList).table[2]? = some "\"$0".toList ∧
      (∃ body, Literal.Doubled body ∧ ("\"$0".toList = '"' :: (body ++ ['"']) ∨
        "\"$0".toList = '"' :: body ∧
          2 + 1 = (Literal.lift "$0 \"$1\" \"a\"\"b\" \"$0".toList).table.length ∧
          ∃ before, "$0 \"$1\" \"a\"\"b\" \"$0".toList = before ++ "\"$0".toList ∧
            (Literal.lift "$0 \"$1\" \"a\"\"b\" \"$0".toList).text =
              (Literal.lift before).text ++ Literal.marker.write 2)) ∧
      '\r' ∉ "a //$1 \n//b // c\nf //".toList ∧
      Comment.rerender (Comment.rerender "a //$1 \n//b // c\nf //".toList) =
        Comment.rerender "a //$1 \n//b // c\nf //".toList := by
  have hentry : (Literal.lift "$0 \"$1\" \"a\"\"b\" \"$0".toList).table[2]? =
      some "\"$0".toList := by
    simp [Literal.lift, Literal.liftFrom, Literal.close]
  have hreturn : '\r' ∉ "a //$1 \n//b // c\nf //".toList := by decide
  exact ⟨hentry, (restore_lifted_text.1 _).2.2.2 2 _ hentry, hreturn,
    (restore_lifted_text.2 _).2.2 hreturn⟩

example : Comment.rerender "a //$1 \n//b // c\nf //".toList =
    "a // $1\n// b // c\nf //".toList := by
  cbv

end MiniScriptLayout
