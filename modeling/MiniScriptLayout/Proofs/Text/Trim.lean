import Mathlib.Data.List.TakeWhile
import MiniScriptLayout.Text.Blank

/-!
Trimmed texts. A text is its blanks at the ends and its trimmed form between them; a text with
something other than a blank at an end is not trimmed there.
-/

namespace MiniScriptLayout
namespace Text

theorem not_mem_gap {gap : List Char} (hgap : ∀ c ∈ gap, isInlineBlank c = true) {c : Char}
    (hc : isInlineBlank c = false) : c ∉ gap := by
  intro hmem
  rw [hgap c hmem] at hc
  cases hc

theorem isBlank_gap {gap : List Char} (hgap : ∀ c ∈ gap, isInlineBlank c = true) :
    ∀ c ∈ gap, isBlank c = true := by
  intro c hc
  have hinline := hgap c hc
  rw [isInlineBlank, Bool.and_eq_true] at hinline
  exact hinline.1

theorem exists_blanks_trimLeft (s : List Char) :
    ∃ gap, (∀ c ∈ gap, isBlank c = true) ∧ s = gap ++ trimLeft s :=
  ⟨s.takeWhile isBlank, fun _ h => List.mem_takeWhile_imp h,
    (List.takeWhile_append_dropWhile).symm⟩

theorem exists_trimRight_blanks (s : List Char) :
    ∃ gap, (∀ c ∈ gap, isBlank c = true) ∧ s = trimRight s ++ gap := by
  obtain ⟨gap, hb, hs⟩ := exists_blanks_trimLeft s.reverse
  refine ⟨gap.reverse, fun c hc => hb c (List.mem_reverse.1 hc), ?_⟩
  rw [trimRight, ← List.reverse_append]
  exact List.reverse_eq_iff.1 hs

theorem trimRight_sublist (s : List Char) : (trimRight s).Sublist s := by
  obtain ⟨gap, -, hs⟩ := exists_trimRight_blanks s
  conv => arg 2; rw [hs]
  exact List.sublist_append_left _ gap

theorem trimLeft_eq_nil {s : List Char} : trimLeft s = [] ↔ ∀ c ∈ s, isBlank c = true := by
  simp [trimLeft, List.dropWhile_eq_nil_iff]

theorem trimRight_eq_nil {s : List Char} : trimRight s = [] ↔ ∀ c ∈ s, isBlank c = true := by
  simp [trimRight, List.dropWhile_eq_nil_iff]

theorem trimRight_append (s t : List Char) :
    trimRight (s ++ t) = if trimRight t = [] then trimRight s else s ++ trimRight t := by
  simp only [trimRight, List.reverse_append, List.dropWhile_append, List.isEmpty_iff,
    List.reverse_eq_nil_iff]
  split
  · rfl
  · rw [List.reverse_append, List.reverse_reverse]

theorem trimRight_append_blanks (s : List Char) {gap : List Char}
    (hb : ∀ c ∈ gap, isBlank c = true) : trimRight (s ++ gap) = trimRight s := by
  rw [trimRight_append, if_pos (trimRight_eq_nil.2 hb)]

theorem trimRight_append_of_ne_nil (s : List Char) {t : List Char} (h : trimRight t ≠ []) :
    trimRight (s ++ t) = s ++ trimRight t := by
  rw [trimRight_append, if_neg h]

theorem trimRight_eq_self {s : List Char} (h : ∀ c ∈ s.getLast?, isBlank c = false) :
    trimRight s = s := by
  rcases s.eq_nil_or_concat with rfl | ⟨t, c, rfl⟩
  · rfl
  · have hc : isBlank c = false := h c (by simp)
    have single : trimRight [c] = [c] := by simp [trimRight, hc]
    rw [List.concat_eq_append, trimRight_append_of_ne_nil t (by simp [single]), single]

/-- Trimming on the right takes the first character only with all others. -/
theorem trimRight_cons {c : Char} {s : List Char} (h : trimRight (c :: s) ≠ []) :
    trimRight (c :: s) = c :: trimRight s := by
  by_cases hs : trimRight s = []
  · have hsplit : trimRight (c :: s) = trimRight [c] :=
      trimRight_append_blanks [c] (trimRight_eq_nil.1 hs)
    have hc : isBlank c = false := by
      rw [hsplit, Ne, trimRight_eq_nil] at h
      simpa using h
    rw [hsplit, hs]
    exact trimRight_eq_self (by simpa using hc)
  · exact trimRight_append_of_ne_nil [c] hs

theorem getLast?_trimRight (s : List Char) : ∀ c ∈ (trimRight s).getLast?, isBlank c = false := by
  intro c hc
  simp only [trimRight, List.getLast?_reverse] at hc
  have := List.head?_dropWhile_not isBlank s.reverse
  rw [Option.mem_def.1 hc] at this
  simpa using this

theorem trimRight_trimRight (s : List Char) : trimRight (trimRight s) = trimRight s :=
  trimRight_eq_self (getLast?_trimRight s)

theorem head?_trimLeft (s : List Char) : ∀ c ∈ (trimLeft s).head?, isBlank c = false := by
  intro c hc
  have := List.head?_dropWhile_not isBlank s
  rw [trimLeft, Option.mem_def] at hc
  rw [hc] at this
  simpa using this

theorem trimLeft_eq_self {s : List Char} (h : ∀ c ∈ s.head?, isBlank c = false) :
    trimLeft s = s := by
  cases s with
  | nil => rfl
  | cons c s => simp [trimLeft, h c rfl]

theorem trimLeft_blanks_append {gap : List Char} (hb : ∀ c ∈ gap, isBlank c = true)
    (s : List Char) : trimLeft (gap ++ s) = trimLeft s :=
  List.dropWhile_append_of_pos hb

/-- Trimming on the right leaves the first character in place, unless nothing is left. -/
theorem head?_trim (s : List Char) : ∀ c ∈ (trim s).head?, isBlank c = false := by
  intro c hc
  obtain ⟨gap, -, hs⟩ := exists_trimRight_blanks (trimLeft s)
  apply head?_trimLeft s c
  rw [hs, Option.mem_def, List.head?_append]
  simp only [trim, Option.mem_def] at hc
  simp [hc]

theorem getLast?_trim (s : List Char) : ∀ c ∈ (trim s).getLast?, isBlank c = false :=
  getLast?_trimRight (trimLeft s)

theorem trim_eq_self {s : List Char} (hh : ∀ c ∈ s.head?, isBlank c = false)
    (hl : ∀ c ∈ s.getLast?, isBlank c = false) : trim s = s := by
  rw [trim, trimLeft_eq_self hh, trimRight_eq_self hl]

theorem trim_eq_self_iff {s : List Char} :
    trim s = s ↔ (∀ c ∈ s.head?, isBlank c = false) ∧ ∀ c ∈ s.getLast?, isBlank c = false := by
  constructor
  · intro h
    have hhead := head?_trim s
    have hlast := getLast?_trim s
    rw [h] at hhead hlast
    exact ⟨hhead, hlast⟩
  · rintro ⟨hhead, hlast⟩
    exact trim_eq_self hhead hlast

theorem trim_trim (s : List Char) : trim (trim s) = trim s :=
  trim_eq_self (head?_trim s) (getLast?_trim s)

/-- Gaps around a text are trimmed. -/
theorem trim_gaps {gap s t : List Char} (hgap : ∀ c ∈ gap, isBlank c = true)
    (ht : ∀ c ∈ t, isBlank c = true) : trim (gap ++ s ++ t) = trim s := by
  rw [List.append_assoc, trim, trimLeft_blanks_append hgap, trim, trimLeft,
    List.dropWhile_append]
  split
  · rename_i hs
    rw [List.isEmpty_iff] at hs
    rw [trimLeft, hs, List.dropWhile_eq_nil_iff.2 ht]
  · exact trimRight_append_blanks _ ht

/-- A text is its trimmed form between two gaps. -/
theorem exists_gaps_trim (s : List Char) :
    ∃ before after, (∀ c ∈ before, isBlank c = true) ∧ (∀ c ∈ after, isBlank c = true) ∧
      s = before ++ trim s ++ after := by
  obtain ⟨before, hb, hs⟩ := exists_blanks_trimLeft s
  obtain ⟨after, ha, ht⟩ := exists_trimRight_blanks (trimLeft s)
  refine ⟨before, after, hb, ha, ?_⟩
  rw [List.append_assoc, trim, ← ht, ← hs]

theorem trim_eq_nil {s : List Char} : trim s = [] ↔ ∀ c ∈ s, isBlank c = true := by
  constructor
  · intro h c hc
    obtain ⟨before, after, hbefore, hafter, hs⟩ := exists_gaps_trim s
    rw [hs, h, List.append_nil, List.mem_append] at hc
    exact hc.elim (hbefore c) (hafter c)
  · intro hb
    rw [trim, trimLeft_eq_nil.2 hb]
    rfl

theorem mem_of_mem_trim {s : List Char} {c : Char} (h : c ∈ trim s) : c ∈ s :=
  (List.dropWhile_sublist isBlank).subset ((trimRight_sublist (trimLeft s)).subset h)

end Text
end MiniScriptLayout
