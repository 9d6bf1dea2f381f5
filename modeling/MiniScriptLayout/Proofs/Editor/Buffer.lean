import MiniScriptLayout.Document
import MiniScriptLayout.Proofs.Editor.Utf16

/-!
The buffer of an editor: the units of a text, with its lines and the offsets of positions in units.
Where an editor may point, a document finds the same place in its characters, and it replaces the
same part of the text.
-/

namespace MiniScriptLayout

/-- A text as an editor has it, in units of UTF-16. -/
abbrev Buffer := List UInt16

/-- The position is the other one or stands before it. -/
def Position.NotAfter (p q : Position) : Prop :=
  p.line < q.line ∨ p.line = q.line ∧ p.character ≤ q.character

instance (p q : Position) : Decidable (p.NotAfter q) :=
  inferInstanceAs (Decidable (_ ∨ _))

namespace Buffer

open Utf16

/-- A carriage return or a line feed. -/
def isEnd (u : UInt16) : Bool :=
  u = 0x0D || u = 0x0A

/-- Puts a unit before the first of some lines. -/
def consUnit (u : UInt16) : List (Buffer × Buffer) → List (Buffer × Buffer)
  | [] => [([u], [])]
  | l :: ls => (u :: l.1, l.2) :: ls

/-- The lines of a buffer, each with the units that end it. -/
def lines : Buffer → List (Buffer × Buffer)
  | [] => [([], [])]
  | [u] => if isEnd u then [([], [u]), ([], [])] else [([u], [])]
  | u :: v :: us =>
    if u = 0x0D ∧ v = 0x0A then ([], [u, v]) :: lines us
    else if isEnd u then ([], [u]) :: lines (v :: us)
    else consUnit u (lines (v :: us))

/-- The number of units before a line. -/
def lineStart (n : Nat) (b : Buffer) : Nat :=
  (((lines b).take n).flatMap fun l => l.1 ++ l.2).length

/-- The number of units before a position. -/
def offset (p : Position) (b : Buffer) : Nat :=
  lineStart p.line b + p.character

/-- The position is on a line of the buffer, and in the middle of no character. -/
def Valid (p : Position) (b : Buffer) : Prop :=
  (∃ l ∈ (lines b)[p.line]?, p.character ≤ l.1.length) ∧ splitsPair (offset p b) b = false

instance (p : Position) (b : Buffer) : Decidable (Valid p b) :=
  inferInstanceAs (Decidable (_ ∧ _))

variable {u : UInt16} {b : Buffer} {text : List Char}

theorem lines_cons_unit (h : isEnd u = false) (b : Buffer) :
    lines (u :: b) = consUnit u (lines b) := by
  cases b with
  | nil => simp [lines, h, consUnit]
  | cons v b =>
      have hu : u ≠ 0x0D := by
        rintro rfl
        cases h
      simp [lines, h, hu]

theorem lines_cons_end (h : isEnd u = true) (hb : u = 0x0D → b.head? ≠ some 0x0A) :
    lines (u :: b) = ([], [u]) :: lines b := by
  cases b with
  | nil => simp [lines, h]
  | cons v b =>
      have hv : ¬ (u = 0x0D ∧ v = 0x0A) := fun huv => hb huv.1 (by rw [huv.2]; rfl)
      rw [lines, if_neg hv, if_pos h]

theorem lines_append {w t e : Buffer} {ls : List (Buffer × Buffer)}
    (hw : ∀ u ∈ w, isEnd u = false) (h : lines b = (t, e) :: ls) :
    lines (w ++ b) = (w ++ t, e) :: ls := by
  induction w with
  | nil => exact h
  | cons u w ih =>
      rw [List.forall_mem_cons] at hw
      rw [List.cons_append, lines_cons_unit hw.1, ih hw.2]
      rfl

theorem eq_of_mem_ofChar {c d : Char} (h : u ∈ ofChar c) (hd : u.toNat = d.toNat)
    (hlt : d.toNat < 0xD800) : c = d := by
  have hc := toNat_of_mem_ofChar h (hd ▸ hlt)
  exact Char.toNat_inj.1 (hc.symm.trans hd)

theorem isEnd_of_mem_ofChar {c : Char} (hreturn : c ≠ '\r') (hfeed : c ≠ '\n')
    (h : u ∈ ofChar c) : isEnd u = false := by
  rw [isEnd, Bool.or_eq_false_iff, decide_eq_false_iff_not, decide_eq_false_iff_not]
  constructor
  · rintro rfl
    exact hreturn (eq_of_mem_ofChar h rfl (by decide))
  · rintro rfl
    exact hfeed (eq_of_mem_ofChar h rfl (by decide))

theorem head?_encode_ne {c : Char} (h : c ≠ '\n') (s : List Char) :
    (encode (c :: s)).head? ≠ some 0x0A := by
  intro hhead
  have hmem : (0x0A : UInt16) ∈ ofChar c := by
    apply List.mem_of_head?
    rw [encode_cons, List.head?_append] at hhead
    cases hc : (ofChar c).head? with
    | none =>
        have hlength := length_ofChar c
        rw [List.head?_eq_none_iff.1 hc] at hlength
        exact absurd hlength.symm (Nat.ne_of_gt (Text.units_pos c))
    | some u => rwa [hc, Option.some_or] at hhead
  exact h (eq_of_mem_ofChar hmem rfl (by decide))

/-- The lines of a document are those of its buffer. -/
theorem lines_encode (text : List Char) :
    lines (encode text) =
      (Document.Line.ofText text).map fun l => (encode l.text, encode l.ending) := by
  fun_induction Document.Line.ofText text with
  | case1 => rfl
  | case2 c h => rcases h with rfl | rfl <;> rfl
  | case3 c h =>
      rw [not_or] at h
      have hline := lines_append (fun u => isEnd_of_mem_ofChar h.1 h.2) (show lines [] = _ from rfl)
      simpa [encode] using hline
  | case4 c d r h ih =>
      obtain ⟨rfl, rfl⟩ := h
      rw [List.map_cons, ← ih]
      rfl
  | case5 c d r hpair h ih =>
      rw [List.map_cons, ← ih]
      rcases h with rfl | rfl
      · have hd : d ≠ '\n' := fun hd => hpair ⟨rfl, hd⟩
        exact lines_cons_end rfl fun _ => head?_encode_ne hd r
      · exact lines_cons_end rfl fun hreturn => absurd hreturn (by decide)
  | case6 c d r hpair h ih =>
      rw [not_or] at h
      obtain ⟨l, ls, hlines⟩ := List.exists_cons_of_ne_nil (Document.Line.ofText_ne_nil (d :: r))
      rw [hlines, List.map_cons] at ih
      rw [encode_cons, lines_append (fun u => isEnd_of_mem_ofChar h.1 h.2) ih, hlines]
      rfl

theorem lineStart_encode (n : Nat) (text : List Char) :
    lineStart n (encode text) =
      Text.unitLength (((Document.Line.ofText text).take n).flatMap Document.Line.chars) := by
  rw [lineStart, lines_encode, ← List.map_take, List.flatMap_map, ← length_encode, encode_flatMap]
  simp only [Document.Line.chars, encode_append]

theorem lineStart_mono {m n : Nat} (h : m ≤ n) (b : Buffer) : lineStart m b ≤ lineStart n b := by
  obtain ⟨k, rfl⟩ := Nat.exists_eq_add_of_le h
  rw [lineStart, lineStart, List.take_add, List.flatMap_append, List.length_append]
  exact Nat.le_add_right _ _

theorem lineStart_succ {n : Nat} {l : Buffer × Buffer} (h : (lines b)[n]? = some l) :
    lineStart (n + 1) b = lineStart n b + (l.1.length + l.2.length) := by
  rw [lineStart, List.take_add_one, h, List.flatMap_append, List.length_append, lineStart]
  simp

theorem offset_le {p q : Position} (hp : Valid p b) (h : p.NotAfter q) :
    offset p b ≤ offset q b := by
  rcases h with hline | ⟨hline, hcharacter⟩
  · obtain ⟨⟨l, hl, hcolumn⟩, -⟩ := hp
    have hnext := lineStart_succ hl
    have hmono := lineStart_mono (m := p.line + 1) hline b
    rw [offset, offset]
    omega
  · rw [offset, offset, hline]
    exact Nat.add_le_add_left hcharacter _

end Buffer

namespace Text

variable {p q s : List Char}

theorem eq_nil_of_unitLength (h : unitLength s = 0) : s = [] := by
  cases s with
  | nil => rfl
  | cons c s =>
      have hc := units_pos c
      rw [unitLength] at h
      omega

/-- Of two first parts of a text the shorter one is the first part of the other. -/
theorem prefix_of_unitLength_le (hp : p <+: s) (hq : q <+: s)
    (h : unitLength p ≤ unitLength q) : p <+: q := by
  rcases List.prefix_or_prefix_of_prefix hp hq with hpq | ⟨r, rfl⟩
  · exact hpq
  · rw [unitLength_append] at h
    have hr : r = [] := eq_nil_of_unitLength (by omega)
    exact ⟨[], by rw [hr, List.append_nil, List.append_nil]⟩

/-- A place that is not behind a part of a text, and not before it either, is in it. -/
theorem exists_column {front line rest r : List Char} {n : Nat}
    (h : front ++ (line ++ rest) = q ++ r) (hq : unitLength q = unitLength front + n)
    (hn : n ≤ unitLength line) :
    ∃ column behind, q = front ++ column ∧ line = column ++ behind ∧ n = unitLength column := by
  obtain ⟨column, rfl⟩ : front <+: q :=
    prefix_of_unitLength_le (List.prefix_append front _) ⟨r, h.symm⟩ (by omega)
  rw [unitLength_append, Nat.add_left_cancel_iff] at hq
  rw [List.append_assoc, List.append_right_inj] at h
  obtain ⟨behind, rfl⟩ : column <+: line :=
    prefix_of_unitLength_le ⟨r, h.symm⟩ (List.prefix_append line rest) (hq ▸ hn)
  exact ⟨column, behind, rfl, rfl, hq.symm⟩

end Text

namespace Position

open Utf16

variable {p : Position} {text : List Char}

/-- What stands before a line, the line, and what stands behind it. -/
theorem exists_line {line : Document.Line} {n : Nat}
    (h : (Document.Line.ofText text)[n]? = some line) :
    ∃ rest, text = ((Document.Line.ofText text).take n).flatMap Document.Line.chars ++
      (line.text ++ rest) := by
  obtain ⟨hn, hline⟩ := List.getElem?_eq_some_iff.1 h
  refine ⟨line.ending ++ ((Document.Line.ofText text).drop (n + 1)).flatMap Document.Line.chars, ?_⟩
  conv => lhs; rw [← Document.Line.flatMap_chars_ofText text,
    ← List.take_append_drop n (Document.Line.ofText text), List.drop_eq_getElem_cons hn, hline]
  rw [List.flatMap_append, List.flatMap_cons, Document.Line.chars, List.append_assoc]

/-- At a valid position the document and the buffer find the same place. -/
theorem exists_prefix (h : Buffer.Valid p (encode text)) :
    ∃ q r, text = q ++ r ∧ Text.unitLength q = Buffer.offset p (encode text) ∧
      p.offset text = q.length := by
  obtain ⟨⟨l, hl, hcolumn⟩, hpair⟩ := h
  rw [Buffer.lines_encode, List.getElem?_map, Option.mem_def, Option.map_eq_some_iff] at hl
  obtain ⟨line, hline, rfl⟩ := hl
  rw [length_encode] at hcolumn
  obtain ⟨rest, htext⟩ := exists_line hline
  have hoffset : p.offset text = (((Document.Line.ofText text).take p.line).flatMap
      Document.Line.chars).length + Text.unitIndex p.character line.text := by
    simp only [Position.offset, hline]
  rw [Buffer.offset, Buffer.lineStart_encode] at hpair ⊢
  generalize ((Document.Line.ofText text).take p.line).flatMap Document.Line.chars = front
    at htext hoffset hpair ⊢
  have hlength := congrArg Text.unitLength htext
  rw [Text.unitLength_append, Text.unitLength_append] at hlength
  obtain ⟨q, r, hq, hunits⟩ := Utf16.exists_prefix (by omega) hpair
  obtain ⟨column, behind, rfl, hbehind, hcharacter⟩ :=
    Text.exists_column (htext.symm.trans hq) hunits hcolumn
  refine ⟨front ++ column, r, hq, hunits, ?_⟩
  rw [hoffset, hcharacter, hbehind, Text.unitIndex_unitLength, List.length_append]

end Position

namespace Change

open Utf16

variable {text : List Char}

/-- What an editor may send for a buffer. -/
def Allowed (b : Buffer) : Change → Prop
  | whole _ => True
  | within range _ =>
    Buffer.Valid range.start b ∧ Buffer.Valid range.stop b ∧ range.start.NotAfter range.stop

instance (b : Buffer) : (change : Change) → Decidable (change.Allowed b)
  | whole _ => inferInstanceAs (Decidable True)
  | within _ _ => inferInstanceAs (Decidable (_ ∧ _))

/-- The buffer with a change spliced in. -/
def splice (b : Buffer) : Change → Buffer
  | whole new => encode new
  | within range new =>
    b.take (Buffer.offset range.start b) ++ encode new ++ b.drop (Buffer.offset range.stop b)

/-- A document and a buffer are changed alike. -/
theorem encode_apply {change : Change} (h : change.Allowed (encode text)) :
    encode (change.apply text) = change.splice (encode text) := by
  cases change with
  | whole new => rfl
  | within range new =>
      obtain ⟨hstart, hstop, hordered⟩ := h
      have hle := Buffer.offset_le hstart hordered
      obtain ⟨q, r, hq, hunits, hoffset⟩ := Position.exists_prefix hstart
      obtain ⟨q', r', hq', hunits', hoffset'⟩ := Position.exists_prefix hstop
      have hprefix : q <+: q' :=
        Text.prefix_of_unitLength_le ⟨r, hq.symm⟩ ⟨r', hq'.symm⟩ (by omega)
      have hmax : max q'.length q.length = q'.length := Nat.max_eq_left hprefix.length_le
      have htake : text.take q.length = q ∧
          (encode text).take (Buffer.offset range.start (encode text)) = encode q := by
        rw [← hunits, ← length_encode, hq, encode_append]
        exact ⟨List.take_left, List.take_left⟩
      have hdrop : text.drop q'.length = r' ∧
          (encode text).drop (Buffer.offset range.stop (encode text)) = encode r' := by
        rw [← hunits', ← length_encode, hq', encode_append]
        exact ⟨List.drop_left, List.drop_left⟩
      simp only [apply, Range.replace, splice, hoffset, hoffset', hmax, htake, hdrop, encode_append]

end Change

end MiniScriptLayout
