import MiniScriptLayout.Proofs.Lifting.Comment
import MiniScriptLayout.Proofs.Text.Lines

/-!
Rows: the lines of a text whose literals are lifted, each taken apart into code and comment. Lifting
the comments of a text numbers the rows that have one, and rows whose comments are written out are
found again when they are lifted.
-/

namespace MiniScriptLayout

/-- A line's code, and the body of its comment if it has one. -/
structure Row where
  code : List Char
  body : Option (List Char)
  deriving DecidableEq, Repr

namespace Row

open Text

/-- The row with its comment written out. -/
def text (r : Row) : List Char :=
  r.code ++ (r.body.map Comment.render).getD []

/-- The row with a marker for its comment. -/
def lifted (n : Nat) (r : Row) : List Char :=
  r.code ++ (r.body.map fun _ => Comment.marker.write n).getD []

/-- The number of the comment behind a row. -/
def next (n : Nat) (r : Row) : Nat :=
  if r.body.isSome then n + 1 else n

/-- The lifted rows, with their comments numbered from `n` on. -/
def write (n : Nat) : List Row → List (List Char)
  | [] => []
  | r :: rows => r.lifted n :: write (r.next n) rows

def bodies (rows : List Row) : List (List Char) :=
  rows.filterMap Row.body

/-- The row of a line. -/
def ofLine (line : List Char) : Row :=
  match Comment.ofLine? line with
  | none => ⟨line, none⟩
  | some (code, body) => ⟨code, some body⟩

/-- A comment as it is lifted. A comment without a body stands behind nothing but blanks. -/
structure Commented (code body : List Char) : Prop where
  line : '\n' ∉ code
  bodyLine : '\n' ∉ body
  opens : OpensComment code
  trimmed : trimRight body = body
  bare : body = [] → ∀ c ∈ code, isBlank c = true

/-- A row as it is lifted. Code without a comment may end in a `//` that has no body. -/
inductive Sound : Row → Prop
  | plain {code : List Char} : '\n' ∉ code →
      (∀ front rest, Comment.cut code = (front, some rest) → ∀ c ∈ rest, isBlank c = true) →
      Sound ⟨code, none⟩
  | comment {code body : List Char} : Commented code body → Sound ⟨code, some body⟩

/-- A sound row whose only `//` opens its comment. -/
inductive Clean : Row → Prop
  | plain {code : List Char} : '\n' ∉ code → SlashesApart code → Clean ⟨code, none⟩
  | comment {code body : List Char} : Commented code body → Clean ⟨code, some body⟩

theorem Clean.sound {r : Row} (h : r.Clean) : r.Sound := by
  cases h with
  | plain hline hapart => exact .plain hline (by simp [Comment.cut_of_slashesApart hapart])
  | comment h => exact .comment h

theorem liftLines_eq (n : Nat) (ls : List (List Char)) :
    Comment.liftLines n ls = (write n (ls.map ofLine), bodies (ls.map ofLine)) := by
  fun_induction Comment.liftLines n ls with
  | case1 n => rfl
  | case2 n line ls hline lines table heq ih =>
      rw [heq] at ih
      cases ih
      simp [write, bodies, ofLine, hline, lifted, next]
  | case3 n line ls code body hline lines table heq ih =>
      rw [heq] at ih
      cases ih
      simp [write, bodies, ofLine, hline, lifted, next]

/-- A line is all code, or the code and the comment of its row. -/
theorem ofLine_cases (line : List Char) :
    ofLine line = ⟨line, none⟩ ∧ Comment.Uncommented line ∨
      ∃ code rest, line = code ++ '/' :: '/' :: rest ∧ OpensComment code ∧
        ((∀ c ∈ rest, isBlank c = true) → ∀ c ∈ code, isBlank c = true) ∧
        ofLine line = ⟨code, some (trimRight rest)⟩ := by
  unfold ofLine
  rcases Comment.ofLine?_cases line with ⟨h, hline⟩ | ⟨code, rest, hline, hopen, hbare, h⟩
  · exact .inl ⟨by rw [h], hline⟩
  · exact .inr ⟨code, rest, hline, hopen, hbare, by rw [h]⟩

theorem sound_ofLine {line : List Char} (h : '\n' ∉ line) : (ofLine line).Sound := by
  rcases ofLine_cases line with ⟨hrow, hline⟩ | ⟨code, rest, rfl, hopen, hbare, hrow⟩
  · rw [hrow]
    refine .plain h fun front rest hcut => ?_
    obtain ⟨hs, hopen⟩ := Comment.cut_eq_some hcut
    exact (hline front rest hopen hs).1
  · have hfeed : '\n' ∉ code ∧ '\n' ∉ rest := by simpa using h
    rw [hrow]
    exact .comment ⟨hfeed.1, fun hmem => hfeed.2 ((trimRight_sublist rest).subset hmem), hopen,
      trimRight_trimRight rest, fun hnil => hbare (trimRight_eq_nil.1 hnil)⟩

theorem sound_map_ofLine {ls : List (List Char)} (h : ∀ l ∈ ls, '\n' ∉ l) :
    ∀ r ∈ ls.map ofLine, r.Sound := by
  intro r hr
  obtain ⟨l, hl, rfl⟩ := List.mem_map.1 hr
  exact sound_ofLine (h l hl)

end Row
end MiniScriptLayout
