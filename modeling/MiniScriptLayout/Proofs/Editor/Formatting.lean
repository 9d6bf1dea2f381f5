import MiniScriptLayout.Proofs.Editor.Buffer
import MiniScriptLayout.Server.Store

/-!
The edit of a formatted document. Its range reaches from the first position to the last one, in the
document and in the editor's buffer, so that nothing of the old text is left.
-/

namespace MiniScriptLayout

open Utf16

variable {text : List Char}

/-- Nothing ends the last line. -/
theorem Document.Line.exists_last (text : List Char) :
    ∃ front last, ofText text = front ++ [⟨last, []⟩] := by
  fun_induction ofText text with
  | case1 => exact ⟨[], [], rfl⟩
  | case2 c => exact ⟨[⟨[], [c]⟩], [], rfl⟩
  | case3 c => exact ⟨[], [c], rfl⟩
  | case4 c d r _ ih =>
      obtain ⟨front, last, h⟩ := ih
      exact ⟨⟨[], [c, d]⟩ :: front, last, by rw [h, List.cons_append]⟩
  | case5 c d r _ _ ih =>
      obtain ⟨front, last, h⟩ := ih
      exact ⟨⟨[], [c]⟩ :: front, last, by rw [h, List.cons_append]⟩
  | case6 c d r _ _ ih =>
      obtain ⟨front, last, h⟩ := ih
      rw [h]
      cases front with
      | nil => exact ⟨[], c :: last, rfl⟩
      | cons l front => exact ⟨⟨c :: l.text, l.ending⟩ :: front, last, rfl⟩

namespace Buffer

theorem valid_first (text : List Char) : Valid ⟨0, 0⟩ (encode text) := by
  obtain ⟨l, ls, hlines⟩ := List.exists_cons_of_ne_nil (Document.Line.ofText_ne_nil text)
  refine ⟨⟨(encode l.text, encode l.ending), ?_, Nat.zero_le _⟩, rfl⟩
  rw [lines_encode, hlines]
  rfl

theorem offset_last (text : List Char) :
    offset (.last text) (encode text) = (encode text).length := by
  obtain ⟨front, last, hlines⟩ := Document.Line.exists_last text
  have htext := Document.Line.flatMap_chars_ofText text
  rw [hlines, List.flatMap_append] at htext
  rw [length_encode, offset, lineStart_encode]
  simp only [Position.last, hlines, List.length_append, List.length_singleton,
    Nat.add_sub_cancel, List.take_left, List.getLast?_concat]
  conv => rhs; rw [← htext]
  rw [Text.unitLength_append]
  simp [Document.Line.chars]

theorem valid_last (text : List Char) : Valid (.last text) (encode text) := by
  constructor
  · obtain ⟨front, last, hlines⟩ := Document.Line.exists_last text
    refine ⟨(encode last, []), ?_, ?_⟩
    · rw [lines_encode, hlines]
      simp [Position.last, hlines, encode]
    · rw [length_encode]
      simp [Position.last, hlines]
  · rw [splitsPair, offset_last, List.drop_length]
    exact Bool.and_false _

end Buffer

theorem Position.offset_first (text : List Char) : Position.offset ⟨0, 0⟩ text = 0 := by
  obtain ⟨q, r, -, hunits, hoffset⟩ := Position.exists_prefix (Buffer.valid_first text)
  have hq : q = [] := Text.eq_nil_of_unitLength hunits
  rw [hoffset, hq, List.length_nil]

theorem Position.offset_end (text : List Char) :
    Position.offset (.last text) text = text.length := by
  obtain ⟨q, r, htext, hunits, hoffset⟩ := Position.exists_prefix (Buffer.valid_last text)
  rw [Buffer.offset_last, length_encode] at hunits
  have hlength := congrArg Text.unitLength htext
  rw [Text.unitLength_append] at hlength
  have hr : r = [] := Text.eq_nil_of_unitLength (by omega)
  rw [hoffset, htext, hr, List.append_nil]

/-- The first position and the last one enclose the whole text. -/
theorem Range.replace_all (new text : List Char) :
    Range.replace ⟨⟨0, 0⟩, .last text⟩ new text = new := by
  rw [replace, Position.offset_first, Position.offset_end, Nat.max_zero, List.take_zero,
    List.drop_length]
  simp

theorem Change.allowed_all (new text : List Char) :
    Change.Allowed (encode text) (.within ⟨⟨0, 0⟩, .last text⟩ new) := by
  refine ⟨Buffer.valid_first text, Buffer.valid_last text, ?_⟩
  rcases Nat.eq_zero_or_pos (Position.last text).line with h | h
  · exact .inr ⟨h.symm, Nat.zero_le _⟩
  · exact .inl h

namespace Store

variable {s : Store} {uri : Uri} {d : Document}

theorem editOf_format (o : Options) (text : List Char) :
    editOf text (o.format text) =
      if (o.format text).text = text then none
      else some ⟨⟨⟨0, 0⟩, .last text⟩, (o.format text).text⟩ := by
  by_cases h : (o.format text).text = text
  · rw [editOf, if_pos h, if_neg]
    rw [Options.format] at h ⊢
    simpa using h
  · rw [editOf, if_neg h, if_pos]
    rw [Options.format] at h ⊢
    simpa using h

theorem fst_format (hd : s.get? uri = some d) (client : Option ClientOptions) :
    (s.format uri client).1 = editOf d.text ((s.optionsFor client d.text).format d.text) := by
  rw [format, hd]

/-- The editor can make the edit in its buffer, and has the formatted text then. -/
theorem splice_format {edit : Edit} {client : Option ClientOptions} (hd : s.get? uri = some d)
    (h : (s.format uri client).1 = some edit) :
    Change.Allowed (encode d.text) (.within edit.range edit.text) ∧
      Change.splice (encode d.text) (.within edit.range edit.text) =
        encode ((s.optionsFor client d.text).format d.text).text := by
  rw [fst_format hd, editOf_format] at h
  split at h
  · cases h
  · cases h
    have hallowed := Change.allowed_all ((s.optionsFor client d.text).format d.text).text d.text
    exact ⟨hallowed, by rw [← Change.encode_apply hallowed, Change.apply, Range.replace_all]⟩

end Store

/-- Formatting a document gives an edit if its text is not formatted yet, and the edit makes it the
formatted text. -/
theorem format_edit {s : Store} {uri : Uri} {d : Document} (hd : s.get? uri = some d)
    (client : Option ClientOptions) :
    let formatted := (s.optionsFor client d.text).format d.text
    ((s.format uri client).1 = none ↔ formatted.text = d.text) ∧
      (formatted.text ≠ d.text → ∃ edit, (s.format uri client).1 = some edit ∧
        (d.apply [.within edit.range edit.text]).text = formatted.text) := by
  intro formatted
  rw [Store.fst_format hd, Store.editOf_format]
  by_cases h : formatted.text = d.text
  · rw [if_pos h]
    exact ⟨⟨fun _ => h, fun _ => rfl⟩, fun hne => absurd h hne⟩
  · rw [if_neg h]
    refine ⟨⟨nofun, fun heq => absurd heq h⟩, fun _ => ⟨_, rfl, ?_⟩⟩
    rw [Document.apply, List.foldl_cons, List.foldl_nil, Change.apply, Range.replace_all]

/-- The last line ends behind a character of two units. -/
theorem format_edit_astral :
    let d : Document := ⟨['a'], "x=1\r\ny=\"😀\"".toList, 1⟩
    let s : Store := ⟨.ofLocation [], none, [d]⟩
    let formatted := (s.optionsFor none d.text).format d.text
    s.get? ['a'] = some d ∧
      ((s.format ['a'] none).1 = none ↔ formatted.text = d.text) ∧
      (formatted.text ≠ d.text → ∃ edit, (s.format ['a'] none).1 = some edit ∧
        (d.apply [.within edit.range edit.text]).text = formatted.text) := by
  intro d s formatted
  have hd : s.get? ['a'] = some d := rfl
  exact ⟨hd, format_edit hd none⟩

end MiniScriptLayout
