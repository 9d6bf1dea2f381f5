import MiniScriptLayout.Options
import MiniScriptLayout.Proofs.Rows.Rereading

/-!
What layout preserves. Reading a layout gives the literals of the text it was made from, and its
comments as they are rendered. Line by line, code differs from the statements of the text in blanks,
commas and parentheses only, and its words stay apart as they were, but for the words of a number in
scientific notation.
-/

namespace MiniScriptLayout

theorem Options.spaces_units (o : Options) : o.units.Spaces := by
  intro c hc
  have hspace : c = ' ' ∨ c = '\t' := by
    cases hs : o.indentStyle <;>
      simp only [units, hs, List.mem_append, List.mem_replicate, List.mem_singleton] at hc <;> tauto
  simpa [MapColon.isSpace] using hspace

/-- Literals are never touched: lifting those of a layout gives the table of the text. -/
theorem literals_layOut (o : Options) (text : List Char) :
    (Literal.lift (layOut o.units text)).table = (Literal.lift text).table := by
  obtain ⟨rows, -, -, hread⟩ := Row.exists_reread o.spaces_units text
  rw [hread]

/-- Lifting the comments of a layout gives those of the text, each as it is rendered. -/
theorem comments_layOut (o : Options) (text : List Char) :
    (Comment.lift (Literal.lift (layOut o.units text)).text).table =
      (Comment.lift (Literal.lift text).text).table.map fun body =>
        (Comment.render body).drop 2 := by
  have h := Layout.comments_ofText_layOut o.spaces_units text
  exact congrArg Lifted.table h

namespace Text

/-- A text without its blanks, commas and parentheses. -/
def strokes (s : List Char) : List Char :=
  s.filter fun c => !(isBlank c || c = ',' || c = '(' || c = ')')

end Text

namespace View

/-- The words: the runs of characters of identifiers that are no blanks. -/
def words : View where
  glued c := Lexical.isIdentifierChar c && !Text.isBlank c
  kept _ := false
  glued_blank c hc := by simp [hc]
  kept_blank _ _ := rfl

/-- The characters of `Text.strokes`. -/
def strokes : View :=
  .single fun c => !(c = ',' || c = '(' || c = ')')

theorem strokes_congr {s t : List Char} (h : strokes.tokens s = strokes.tokens t) :
    Text.strokes s = Text.strokes t := by
  have hkept : strokes.kept = fun c => !(Text.isBlank c || c = ',' || c = '(' || c = ')') := by
    funext c
    simp only [strokes, single]
    cases Text.isBlank c <;> simp
  have := filter_of_tokens h
  rwa [← strokes, hkept] at this

end View

/-- A line without a `//` that has no body. -/
def Comment.dropBare (line : List Char) : List Char :=
  match Comment.cut line with
  | (_, none) => line
  | (code, some rest) => if rest.all Text.isBlank then code else line

namespace Row

open Text

variable {n : Nat} {r out : Row} {rows laid : List Row}

/-- Only a row without a comment loses a `//`. -/
theorem dropBare_lifted (hr : r.Sound) :
    Comment.dropBare (r.lifted n) =
      r.front ++ (r.body.map fun _ => Comment.marker.write n).getD [] := by
  unfold Comment.dropBare front
  cases hr with
  | @plain code _ hrest =>
      simp only [lifted, Option.map_none, Option.getD_none, List.append_nil]
      cases hcut : Comment.cut code with
      | mk start rest =>
          cases rest with
          | none => exact (Comment.cut_eq_none hcut).1.symm
          | some rest =>
              have hall : rest.all isBlank = true := by simpa using hrest start rest hcut
              simp [hall]
  | @comment code b h =>
      simp only [lifted, Option.map_some, Option.getD_some]
      rw [marker_eq, Comment.cut_append h.opens,
        Comment.cut_of_slashesApart h.opens.slashesApart]
      simp [isBlank]

/-- A row that is laid out has the characters of its row but for blanks, commas and
parentheses. -/
theorem LaysOut.strokes (h : LaysOut r out) :
    Text.strokes (out.lifted n) = Text.strokes (Comment.dropBare (r.lifted n)) := by
  have hcode : View.strokes.tokens out.code = View.strokes.tokens r.front :=
    h.tokens (.of_signs rfl) rfl rfl rfl rfl nofun
  have hstop : ∀ s : List Char, View.strokes.continues s = false := by
    intro s
    cases s <;> rfl
  apply View.strokes_congr
  rw [dropBare_lifted h.1, lifted, h.body_eq, View.tokens_append (hstop _),
    View.tokens_append (hstop _), hcode]

theorem LaysOut.words (h : LaysOut r out) (hj : ¬ Spacing.JoinsWords (trim r.front)) :
    View.words.tokens (CodeLine.ofText (out.lifted n)).code =
      View.words.tokens (CodeLine.ofText (r.lifted n)).code := by
  rw [ofText_lifted h.clean.sound, ofText_lifted h.1, View.tokens_trim, View.tokens_trim,
    h.clean.front]
  exact h.tokens (.of_signs rfl) rfl rfl rfl rfl fun _ => hj

end Row

end MiniScriptLayout
