import MiniScriptLayout.Proofs.Editor.Formatting

/-!
Positions and offsets. A text is read line end by line end and character by character, and each of
them moves the offset of a position by its length or ends it there. So offsets stay in the text and
in the order of their positions, none is in the middle of a line end, and columns at the ends of
characters are exact.
-/

namespace MiniScriptLayout

namespace Document.Line

/-- What ends a line before the rest of a text. A carriage return does not part a pair. -/
inductive Ends : List Char → List Char → Prop
  | feed (rest : List Char) : Ends ['\n'] rest
  | pair (rest : List Char) : Ends ['\r', '\n'] rest
  | ret {rest : List Char} : rest.head? ≠ some '\n' → Ends ['\r'] rest

theorem ofText_end {ending rest : List Char} (h : Ends ending rest) :
    ofText (ending ++ rest) = ⟨[], ending⟩ :: ofText rest := by
  cases h with
  | feed => cases rest <;> rfl
  | pair => rfl
  | ret h =>
      cases rest with
      | nil => rfl
      | cons d rest =>
          have hd : ¬ ('\r' = '\r' ∧ d = '\n') := fun hpair => h (congrArg some hpair.2)
          rw [List.singleton_append, ofText, if_neg hd, if_pos (.inl rfl)]

theorem ofText_char {c : Char} (hreturn : c ≠ '\r') (hfeed : c ≠ '\n') (rest : List Char) :
    ofText (c :: rest) = consChar c (ofText rest) := by
  cases rest <;> simp [ofText, consChar, hreturn, hfeed]

/-- A pair behind a line end is that line end, or it stands in the rest of the text. -/
theorem Ends.exists_before {ending rest before after : List Char} (h : Ends ending rest)
    (htext : ending ++ rest = before ++ '\r' :: '\n' :: after) :
    before = [] ∧ ending.length = 2 ∨
      ∃ front, before = ending ++ front ∧ rest = front ++ '\r' :: '\n' :: after := by
  cases h with
  | feed =>
      obtain _ | ⟨c, front⟩ := before
      · simp at htext
      · simp only [List.cons_append, List.nil_append, List.cons.injEq] at htext
        exact .inr ⟨front, by rw [htext.1]; rfl, htext.2⟩
  | pair =>
      obtain _ | ⟨c, _ | ⟨d, front⟩⟩ := before
      · exact .inl ⟨rfl, rfl⟩
      · simp at htext
      · simp only [List.cons_append, List.nil_append, List.cons.injEq] at htext
        exact .inr ⟨front, by rw [htext.1, htext.2.1]; rfl, htext.2.2⟩
  | ret hhead =>
      obtain _ | ⟨c, front⟩ := before
      · simp only [List.cons_append, List.nil_append, List.cons.injEq, true_and] at htext
        exact absurd (by rw [htext]; rfl) hhead
      · simp only [List.cons_append, List.nil_append, List.cons.injEq] at htext
        exact .inr ⟨front, by rw [htext.1]; rfl, htext.2⟩

/-- A text is empty, or a line end or another character stands before the rest of it. -/
theorem end_induction {P : List Char → Prop} (nil : P [])
    (ending : ∀ ending rest : List Char, Ends ending rest → P rest → P (ending ++ rest))
    (char : ∀ (c : Char) (rest : List Char), c ≠ '\r' → c ≠ '\n' → P rest → P (c :: rest))
    (text : List Char) : P text := by
  fun_induction ofText text with
  | case1 => exact nil
  | case2 c h =>
      rcases h with rfl | rfl
      · exact ending ['\r'] [] (.ret (by simp)) nil
      · exact ending ['\n'] [] (.feed []) nil
  | case3 c h =>
      rw [not_or] at h
      exact char c [] h.1 h.2 nil
  | case4 c d r h ih =>
      obtain ⟨rfl, rfl⟩ := h
      exact ending _ r (.pair r) ih
  | case5 c d r hpair h ih =>
      rcases h with rfl | rfl
      · refine ending ['\r'] (d :: r) (.ret fun hd => hpair ⟨rfl, ?_⟩) ih
        exact Option.some.inj hd
      · exact ending ['\n'] (d :: r) (.feed _) ih
  | case6 c d r hpair h ih =>
      rw [not_or] at h
      exact char c (d :: r) h.1 h.2 ih

end Document.Line

namespace Position

open Document.Line

variable {c : Char} {ending rest : List Char} {p q : Position}

/-- The position as it is counted behind a line end. -/
def behindEnd (p : Position) : Position :=
  ⟨p.line - 1, p.character⟩

/-- The position as it is counted behind a character. -/
def behindChar (c : Char) (p : Position) : Position :=
  ⟨p.line, if p.line = 0 then p.character - Text.units c else p.character⟩

theorem NotAfter.behindEnd (h : p.NotAfter q) (hp : p.line ≠ 0) :
    p.behindEnd.NotAfter q.behindEnd := by
  simp only [NotAfter, Position.behindEnd] at h ⊢
  omega

theorem NotAfter.behindChar (h : p.NotAfter q) (c : Char) :
    (p.behindChar c).NotAfter (q.behindChar c) := by
  simp only [NotAfter, Position.behindChar] at h ⊢
  split_ifs <;> omega

theorem NotAfter.ne_first (h : p.NotAfter q) (hp : p ≠ ⟨0, 0⟩) : q ≠ ⟨0, 0⟩ := by
  rintro rfl
  obtain ⟨line, character⟩ := p
  have hfirst : line = 0 ∧ character = 0 := by simpa [NotAfter] using h
  exact hp (by rw [hfirst.1, hfirst.2])

theorem offset_nil (p : Position) : p.offset [] = 0 := by
  obtain ⟨_ | line, character⟩ := p <;> rfl

/-- A position in the line that ends here stands before its end. -/
theorem offset_ending (h : Ends ending rest) (p : Position) :
    p.offset (ending ++ rest) =
      if p.line = 0 then 0 else ending.length + p.behindEnd.offset rest := by
  obtain ⟨_ | line, character⟩ := p
  · simp [offset, ofText_end h, Text.unitIndex]
  · simp only [offset, ofText_end h, behindEnd, Nat.succ_ne_zero, if_false, Nat.add_sub_cancel,
      List.getElem?_cons_succ, List.take_succ_cons, List.flatMap_cons, List.length_append]
    cases (ofText rest)[line]? with
    | none => rfl
    | some l => simp [chars, Nat.add_assoc]

theorem offset_char (hreturn : c ≠ '\r') (hfeed : c ≠ '\n') (p : Position) :
    p.offset (c :: rest) = if p = ⟨0, 0⟩ then 0 else (p.behindChar c).offset rest + 1 := by
  obtain ⟨l, ls, hlines⟩ := List.exists_cons_of_ne_nil (ofText_ne_nil rest)
  have hline := ofText_char hreturn hfeed rest
  rw [hlines, consChar] at hline
  obtain ⟨_ | line, character⟩ := p
  · cases character with
    | zero => rw [if_pos rfl, offset_first]
    | succ character => simp [offset, hline, hlines, behindChar, Text.unitIndex]
  · simp only [offset, hline, hlines, behindChar, mk.injEq, Nat.succ_ne_zero, false_and, if_false,
      List.getElem?_cons_succ, List.take_succ_cons, List.flatMap_cons, List.length_append]
    cases ls[line]? with
    | none => simp
    | some m => simp only [chars, List.length_append, List.length_cons]; omega

theorem offset_le_length (p : Position) (text : List Char) : p.offset text ≤ text.length := by
  induction text using end_induction generalizing p with
  | nil => exact Nat.le_of_eq (offset_nil p)
  | ending ending rest h ih =>
      rw [offset_ending h, List.length_append]
      split
      · exact Nat.zero_le _
      · exact Nat.add_le_add_left (ih _) _
  | char c rest hreturn hfeed ih =>
      rw [offset_char hreturn hfeed]
      split
      · exact Nat.zero_le _
      · exact Nat.succ_le_succ (ih _)

theorem offset_mono (h : p.NotAfter q) (text : List Char) : p.offset text ≤ q.offset text := by
  induction text using end_induction generalizing p q with
  | nil => exact Nat.le_of_eq ((offset_nil p).trans (offset_nil q).symm)
  | ending ending rest hends ih =>
      rw [offset_ending hends, offset_ending hends]
      by_cases hp : p.line = 0
      · rw [if_pos hp]
        exact Nat.zero_le _
      · have hq : q.line ≠ 0 := by
          simp only [NotAfter] at h
          omega
        rw [if_neg hp, if_neg hq]
        exact Nat.add_le_add_left (ih (h.behindEnd hp)) _
  | char c rest hreturn hfeed ih =>
      rw [offset_char hreturn hfeed, offset_char hreturn hfeed]
      by_cases hp : p = ⟨0, 0⟩
      · rw [if_pos hp]
        exact Nat.zero_le _
      · rw [if_neg hp, if_neg (h.ne_first hp)]
        exact Nat.succ_le_succ (ih (h.behindChar c))

/-- No offset parts a carriage return from the line feed behind it. -/
theorem offset_ne_inside (p : Position) {text before after : List Char}
    (h : text = before ++ '\r' :: '\n' :: after) : p.offset text ≠ before.length + 1 := by
  induction text using end_induction generalizing p before with
  | nil => simp at h
  | ending ending rest hends ih =>
      rw [offset_ending hends]
      split
      · exact (Nat.succ_ne_zero _).symm
      · rcases hends.exists_before h with ⟨rfl, hlength⟩ | ⟨front, rfl, hrest⟩
        · rw [List.length_nil]
          omega
        · have := ih p.behindEnd hrest
          rw [List.length_append]
          omega
  | char c rest hreturn hfeed ih =>
      rw [offset_char hreturn hfeed]
      split
      · exact (Nat.succ_ne_zero _).symm
      · obtain _ | ⟨d, before⟩ := before
        · exact absurd (List.cons.inj h).1 hreturn
        · have := ih (p.behindChar c) (List.cons.inj h).2
          simpa using this

/-- The first part of a line ends as many characters behind the start of the line. -/
theorem offset_column {text column : List Char} {front back : List Document.Line}
    {line : Document.Line} (h : ofText text = front ++ line :: back)
    (hcolumn : column <+: line.text) :
    offset ⟨front.length, Text.unitLength column⟩ text =
      (front.flatMap chars).length + column.length := by
  obtain ⟨behind, hline⟩ := hcolumn
  have hget : (ofText text)[front.length]? = some line := by simp [h]
  have htake : (ofText text).take front.length = front := by rw [h, List.take_left]
  simp only [offset, hget, htake, ← hline, Text.unitIndex_unitLength]

end Position

/-- Offsets are in the text and in the order of their positions, and none is in the middle of a line
end. A column of as many units as the first part of a line has is at the end of this part, and the
last position is at the end of the text. -/
theorem Position.offset_exact (text : List Char) :
    (∀ p : Position, p.offset text ≤ text.length) ∧
      (∀ p q : Position, p.NotAfter q → p.offset text ≤ q.offset text) ∧
      (∀ (p : Position) (before after : List Char),
        text = before ++ '\r' :: '\n' :: after → p.offset text ≠ before.length + 1) ∧
      (∀ (front : List Document.Line) (line : Document.Line) (back : List Document.Line),
        Document.Line.ofText text = front ++ line :: back →
        ∀ column : List Char, column <+: line.text →
          Position.offset ⟨front.length, Text.unitLength column⟩ text =
            (front.flatMap Document.Line.chars).length + column.length) ∧
      Position.offset (.last text) text = text.length :=
  ⟨fun p => p.offset_le_length text, fun _ _ h => offset_mono h text,
    fun p _ _ h => p.offset_ne_inside h, fun _ _ _ h _ hcolumn => offset_column h hcolumn,
    offset_end text⟩

theorem Position.offset_exact_astral :
    Position.NotAfter ⟨0, 7⟩ ⟨1, 3⟩ ∧
      Position.offset ⟨0, 7⟩ "a\r\nb😀c".toList ≤ Position.offset ⟨1, 3⟩ "a\r\nb😀c".toList ∧
      Position.offset ⟨0, 7⟩ "a\r\nb😀c".toList ≠ 2 ∧
      Document.Line.ofText "a\r\nb😀c".toList =
        [⟨"a".toList, "\r\n".toList⟩, ⟨"b😀c".toList, []⟩] ∧
      "b😀".toList <+: "b😀c".toList ∧
      Position.offset ⟨1, 3⟩ "a\r\nb😀c".toList = 5 := by
  have hafter : Position.NotAfter ⟨0, 7⟩ ⟨1, 3⟩ := by decide
  have hlines : Document.Line.ofText "a\r\nb😀c".toList =
      [⟨"a".toList, "\r\n".toList⟩] ++ ⟨"b😀c".toList, []⟩ :: [] := rfl
  have hcolumn : "b😀".toList <+: "b😀c".toList := ⟨['c'], rfl⟩
  obtain ⟨-, hmono, hpair, hexact, -⟩ := Position.offset_exact "a\r\nb😀c".toList
  exact ⟨hafter, hmono _ _ hafter, hpair _ ['a'] "b😀c".toList rfl, hlines, hcolumn,
    hexact _ _ _ hlines _ hcolumn⟩

end MiniScriptLayout
