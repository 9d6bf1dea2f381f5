import Mathlib.Data.List.DropRight
import MiniScriptLayout.Proofs.Lifting.Comment
import MiniScriptLayout.Proofs.Text.Lines

/-!
The parts of a line: its code and its comment, without the blanks around them. Joining carriage
returns to line feeds and trimming a text change nothing else but blank lines at its ends.
-/

namespace MiniScriptLayout
namespace Text

def isBlankLine (line : List Char) : Bool :=
  line.all isBlank

theorem isBlankLine_iff {line : List Char} :
    isBlankLine line = true ↔ ∀ c ∈ line, isBlank c = true :=
  List.all_eq_true

/-- The lines from the first one that is not blank. -/
def fromFirst (ls : List (List Char)) : List (List Char) :=
  ls.dropWhile isBlankLine

/-- The lines up to the last one that is not blank. -/
def upToLast (ls : List (List Char)) : List (List Char) :=
  ls.rdropWhile isBlankLine

/-- A place between lines that is not among the blank ones at an end of them. -/
def Inside (before after : List (List Char)) : Prop :=
  ((∃ l ∈ before, isBlankLine l = false) ∨ ∃ l ∈ after.head?, isBlankLine l = false) ∧
    ((∃ l ∈ after, isBlankLine l = false) ∨ ∃ l ∈ before.getLast?, isBlankLine l = false)

variable {ls : List (List Char)} {l : List Char}

theorem head?_fromFirst (ls : List (List Char)) :
    ∀ l ∈ (fromFirst ls).head?, isBlankLine l = false := by
  intro l hl
  have := List.head?_dropWhile_not isBlankLine ls
  rw [fromFirst, Option.mem_def] at hl
  rw [hl] at this
  simpa using this

theorem getLast?_upToLast (ls : List (List Char)) :
    ∀ l ∈ (upToLast ls).getLast?, isBlankLine l = false := by
  intro l hl
  obtain ⟨hne, rfl⟩ := List.mem_getLast?_eq_getLast hl
  have := List.rdropWhile_last_not isBlankLine ls hne
  rwa [Bool.not_eq_true] at this

theorem fromFirst_eq_nil : fromFirst ls = [] ↔ ∀ l ∈ ls, isBlankLine l = true :=
  List.dropWhile_eq_nil_iff

theorem upToLast_eq_nil : upToLast ls = [] ↔ ∀ l ∈ ls, isBlankLine l = true :=
  List.rdropWhile_eq_nil_iff

theorem head?_upToLast (hl : l ∈ ls.head?) (hblank : isBlankLine l = false) :
    l ∈ (upToLast ls).head? := by
  obtain ⟨rest, hrest⟩ : upToLast ls <+: ls := List.rdropWhile_prefix isBlankLine ls
  cases hk : upToLast ls with
  | nil =>
      rw [upToLast_eq_nil.1 hk l (List.mem_of_head? hl)] at hblank
      cases hblank
  | cons k tail =>
      rw [← hrest, hk] at hl
      exact hl

theorem getLast?_fromFirst (hl : l ∈ ls.getLast?) (hblank : isBlankLine l = false) :
    l ∈ (fromFirst ls).getLast? := by
  obtain ⟨front, hfront⟩ : fromFirst ls <:+ ls := List.dropWhile_suffix isBlankLine
  cases hk : (fromFirst ls).getLast? with
  | none =>
      rw [List.getLast?_eq_none_iff] at hk
      rw [fromFirst_eq_nil.1 hk l (List.mem_of_getLast? hl)] at hblank
      cases hblank
  | some k =>
      rwa [← hfront, List.getLast?_append, hk, Option.some_or] at hl

theorem isBlank_of_mem_unlines (h : ∀ l ∈ ls, isBlankLine l = true) :
    ∀ c ∈ unlines ls, isBlank c = true := by
  intro c hc
  by_cases hfeed : c = '\n'
  · exact hfeed ▸ rfl
  · obtain ⟨l, hl, hmem⟩ := (mem_unlines hfeed).1 hc
    exact isBlankLine_iff.1 (h l hl) c hmem

theorem lines_cons (h : '\n' ∉ l) (s : List Char) : lines (l ++ '\n' :: s) = l :: lines s :=
  split_append_cons h s

theorem trimLeft_unlines_cons (h : isBlankLine l = false)
    (ls : List (List Char)) : trimLeft (unlines (l :: ls)) = unlines (trimLeft l :: ls) := by
  have hne : trimLeft l ≠ [] := by
    rw [Ne, trimLeft_eq_nil, ← isBlankLine_iff, h]
    exact Bool.false_ne_true
  cases ls with
  | nil => rfl
  | cons m ls =>
      rw [unlines_cons l (by simp), unlines_cons (trimLeft l) (by simp), trimLeft,
        List.dropWhile_append, if_neg (by rwa [List.isEmpty_iff])]
      rfl

theorem trimRight_unlines_concat (h : isBlankLine l = false)
    (ls : List (List Char)) :
    trimRight (unlines (ls ++ [l])) = unlines (ls ++ [trimRight l]) := by
  have hne : trimRight l ≠ [] := by
    rw [Ne, trimRight_eq_nil, ← isBlankLine_iff, h]
    exact Bool.false_ne_true
  by_cases hls : ls = []
  · rw [hls]
    rfl
  · rw [unlines_append hls (by simp), unlines_append hls (by simp)]
    have hline : trimRight ('\n' :: l) = '\n' :: trimRight l :=
      trimRight_append_of_ne_nil ['\n'] hne
    exact (trimRight_append_of_ne_nil _ (by rw [unlines, join, hline]; simp)).trans
      (congrArg _ hline)

end Text

namespace Comment

open Text

/-- The code of a line and what follows its `//`, without the blanks around them. -/
def parts (line : List Char) : List Char × Option (List Char) :=
  (trim (cut line).1, (cut line).2.map trimRight)

variable {gap line : List Char} {ls ms core : List (List Char)}

theorem parts_blanks_append (hb : ∀ c ∈ gap, isBlank c = true) (line : List Char) :
    parts (gap ++ line) = parts line := by
  simp only [parts, cut_blanks_append hb, trim, trimLeft_blanks_append hb]

theorem parts_append_blanks (line : List Char) (hb : ∀ c ∈ gap, isBlank c = true) :
    parts (line ++ gap) = parts line := by
  cases hcut : cut line with
  | mk code rest =>
      cases rest with
      | none =>
          obtain ⟨rfl, hapart⟩ := cut_eq_none hcut
          have hgap : cut gap = (gap, none) := by
            simpa [cut] using cut_blanks_append hb []
          have hslash : gap.head? ≠ some '/' :=
            fun hhead => ne_slash_of_isBlank (hb '/' (List.mem_of_head? hhead)) rfl
          have happend : SlashesApart (code ++ gap) :=
            hapart.append (cut_eq_none hgap).2 (.inr hslash)
          have hnil : ∀ c ∈ ([] : List Char), isBlank c = true := by simp
          have htrim : trim (code ++ gap) = trim code := trim_gaps hnil hb
          simp [parts, hcut, cut_of_slashesApart happend, htrim]
      | some rest =>
          obtain ⟨rfl, hopen⟩ := cut_eq_some hcut
          rw [parts, parts, List.append_assoc, List.cons_append, List.cons_append,
            cut_append hopen, cut_append hopen]
          simp [trimRight_append_blanks rest hb]

theorem parts_trimLeft (line : List Char) : parts (trimLeft line) = parts line := by
  obtain ⟨gap, hb, hline⟩ := exists_blanks_trimLeft line
  conv => rhs; rw [hline]
  exact (parts_blanks_append hb _).symm

theorem parts_trimRight (line : List Char) : parts (trimRight line) = parts line := by
  obtain ⟨gap, hb, hline⟩ := exists_trimRight_blanks line
  conv => rhs; rw [hline]
  exact (parts_append_blanks _ hb).symm

theorem isBlankLine_eq (line : List Char) :
    isBlankLine line = decide (parts line = ([], none)) := by
  rw [Bool.eq_iff_iff, isBlankLine_iff, decide_eq_true_eq]
  constructor
  · intro hb
    have := parts_append_blanks [] hb
    rwa [List.nil_append] at this
  · intro h
    rw [parts, Prod.mk.injEq, Option.map_eq_none_iff] at h
    have hcut : cut line = ((cut line).1, none) := Prod.ext rfl h.2
    rw [(cut_eq_none hcut).1] at h
    exact trim_eq_nil.1 h.1

theorem isBlankLine_congr {line line' : List Char} (h : parts line = parts line') :
    isBlankLine line = isBlankLine line' := by
  rw [isBlankLine_eq, isBlankLine_eq, h]

theorem isBlankLine_of_map (hms : ms.map parts = ls.map parts)
    (h : ∀ l ∈ ls, isBlankLine l = true) : ∀ m ∈ ms, isBlankLine m = true := by
  intro m hm
  obtain ⟨l, hl, hparts⟩ := List.mem_map.1 (hms ▸ List.mem_map_of_mem hm)
  rw [← isBlankLine_congr hparts]
  exact h l hl

theorem not_isBlankLine_of_map {l m : Option (List Char)} (hm : m.map parts = l.map parts)
    (h : ∀ k ∈ l, isBlankLine k = false) : ∀ k ∈ m, isBlankLine k = false := by
  rintro k rfl
  rw [Option.map_some, eq_comm, Option.map_eq_some_iff] at hm
  obtain ⟨k', hk', hparts⟩ := hm
  rw [← isBlankLine_congr hparts]
  exact h k' hk'

/-- Joining carriage returns to line feeds takes blanks from the ends of lines. -/
theorem parts_joinReturns (hne : ls ≠ []) (hline : ∀ l ∈ ls, '\n' ∉ l) :
    (lines (joinReturns (unlines ls))).map parts = ls.map parts := by
  induction ls with
  | nil => exact absurd rfl hne
  | cons l ls ih =>
      rw [List.forall_mem_cons] at hline
      cases ls with
      | nil =>
          have hsingle : joinReturns (unlines [l]) = l := joinReturns_of_not_mem hline.1
          rw [hsingle, lines, split_of_not_mem hline.1]
      | cons m ls =>
          rw [unlines_cons l (by simp), List.map_cons, ← ih (by simp) hline.2]
          by_cases hreturn : l.getLast? = some '\r'
          · obtain ⟨front, rfl⟩ := List.getLast?_eq_some_iff.1 hreturn
            have hfront : '\n' ∉ front := fun hmem => hline.1 (by simp [hmem])
            have hparts : parts (front ++ ['\r']) = parts front :=
              parts_append_blanks front (by simp [isBlank])
            rw [List.append_assoc, List.singleton_append, joinReturns_return hfront,
              lines_cons hfront, List.map_cons, hparts]
          · rw [joinReturns_append hline.1 hreturn, lines_cons hline.1, List.map_cons]

/-- `core` are the lines from the first to the last one that is not blank. -/
structure Core (core ls : List (List Char)) : Prop where
  exists_blanks : ∃ before after, ls = before ++ core ++ after ∧
    (∀ l ∈ before, isBlankLine l = true) ∧ ∀ l ∈ after, isBlankLine l = true
  core_ne_nil : core ≠ []
  first : ∀ l ∈ core.head?, isBlankLine l = false
  last : ∀ l ∈ core.getLast?, isBlankLine l = false

namespace Core

theorem ne_nil (h : Core core ls) : ls ≠ [] := by
  obtain ⟨before, after, rfl, -⟩ := h.exists_blanks
  simp [h.core_ne_nil]

theorem of_map (h : Core core ls) (hms : ms.map parts = ls.map parts) :
    ∃ core', Core core' ms ∧ core'.map parts = core.map parts := by
  obtain ⟨before, after, rfl, hbefore, hafter⟩ := h.exists_blanks
  rw [List.map_append, List.map_append, List.map_eq_append_iff] at hms
  obtain ⟨front, after', rfl, hfront, hafter'⟩ := hms
  rw [List.map_eq_append_iff] at hfront
  obtain ⟨before', core', rfl, hbefore', hcore⟩ := hfront
  refine ⟨core',
    ⟨⟨before', after', rfl, isBlankLine_of_map hbefore' hbefore, isBlankLine_of_map hafter' hafter⟩,
      ?_, ?_, ?_⟩, hcore⟩
  · rintro rfl
    exact h.core_ne_nil (List.map_eq_nil_iff.1 hcore.symm)
  · refine not_isBlankLine_of_map ?_ h.first
    rw [← List.head?_map, ← List.head?_map, hcore]
  · refine not_isBlankLine_of_map ?_ h.last
    rw [← List.getLast?_map, ← List.getLast?_map, hcore]

/-- Blank lines are blanks around the other lines of a text. -/
theorem exists_gaps (h : Core core ls) :
    ∃ gap gap', (∀ c ∈ gap, isBlank c = true) ∧ (∀ c ∈ gap', isBlank c = true) ∧
      unlines ls = gap ++ unlines core ++ gap' := by
  obtain ⟨before, after, rfl, hbefore, hafter⟩ := h.exists_blanks
  have hne := h.core_ne_nil
  obtain ⟨gap, hgap, hleft⟩ : ∃ gap, (∀ c ∈ gap, isBlank c = true) ∧
      ∀ ks : List (List Char), ks ≠ [] → unlines (before ++ ks) = gap ++ unlines ks := by
    by_cases hnil : before = []
    · exact ⟨[], by simp, fun ks _ => by rw [hnil]; rfl⟩
    · refine ⟨unlines before ++ ['\n'], ?_, fun ks hks => ?_⟩
      · rw [List.forall_mem_append, List.forall_mem_singleton]
        exact ⟨isBlank_of_mem_unlines hbefore, rfl⟩
      · rw [unlines_append hnil hks, List.append_assoc]
        rfl
  obtain ⟨gap', hgap', hright⟩ : ∃ gap', (∀ c ∈ gap', isBlank c = true) ∧
      unlines (core ++ after) = unlines core ++ gap' := by
    by_cases hnil : after = []
    · exact ⟨[], by simp, by rw [hnil, List.append_nil, List.append_nil]⟩
    · refine ⟨'\n' :: unlines after, ?_, unlines_append hne hnil⟩
      rw [List.forall_mem_cons]
      exact ⟨rfl, isBlank_of_mem_unlines hafter⟩
  refine ⟨gap, gap', hgap, hgap', ?_⟩
  rw [List.append_assoc, hleft _ (by simp [hne]), hright, List.append_assoc]

/-- Trimming a text leaves the parts of its lines, but for blank lines at the ends. -/
theorem parts_trim (h : Core core ls) (hline : ∀ l ∈ ls, '\n' ∉ l) :
    (lines (trim (unlines ls))).map parts = core.map parts := by
  obtain ⟨gap, gap', hgap, hgap', hls⟩ := h.exists_gaps
  obtain ⟨before, after, rfl, -, -⟩ := h.exists_blanks
  have hcore : ∀ l ∈ core, '\n' ∉ l := fun l hl => hline l (by simp [hl])
  obtain ⟨l, rest, rfl⟩ := List.exists_cons_of_ne_nil h.core_ne_nil
  have hleft := trimLeft_unlines_cons (h.first l rfl) rest
  have hmap : (trimLeft l :: rest).map parts = (l :: rest).map parts := by
    rw [List.map_cons, parts_trimLeft, List.map_cons]
  -- the last line of those that are trimmed on the left is not blank either
  obtain ⟨init, k, hlast⟩ := List.eq_nil_or_concat (trimLeft l :: rest) |>.resolve_left (by simp)
  rw [List.concat_eq_append] at hlast
  have hk : isBlankLine k = false := by
    refine not_isBlankLine_of_map ?_ h.last k rfl
    rw [← List.getLast?_map, ← hmap, hlast, List.map_append, List.map_singleton,
      List.getLast?_concat, Option.map_some]
  have hfeeds : ∀ l ∈ init ++ [trimRight k], '\n' ∉ l := by
    have hmem : ∀ l ∈ init ++ [k], '\n' ∉ l := by
      rw [← hlast, List.forall_mem_cons]
      rw [List.forall_mem_cons] at hcore
      exact ⟨fun hmem => hcore.1 ((List.dropWhile_sublist _).subset hmem), hcore.2⟩
    rw [List.forall_mem_append, List.forall_mem_singleton] at hmem ⊢
    exact ⟨hmem.1, fun hfeed => hmem.2 ((trimRight_sublist k).subset hfeed)⟩
  rw [hls, trim_gaps hgap hgap', trim, hleft, hlast, trimRight_unlines_concat hk,
    lines_unlines (by simp) hfeeds, ← hmap, hlast, List.map_append, List.map_append,
    List.map_singleton, List.map_singleton, parts_trimRight]

variable {before after mid : List (List Char)} {l : List Char}

theorem around
    (hfirst : fromFirst before = [] → ∃ l ∈ (mid ++ upToLast after).head?, isBlankLine l = false)
    (hlast : upToLast after = [] →
      ∃ l ∈ (fromFirst before ++ mid).getLast?, isBlankLine l = false) :
    Core (fromFirst before ++ (mid ++ upToLast after)) (before ++ (mid ++ after)) where
  exists_blanks := by
    refine ⟨before.takeWhile isBlankLine, after.rtakeWhile isBlankLine, ?_,
      fun l => List.mem_takeWhile_imp, fun l => List.mem_rtakeWhile_imp⟩
    conv => lhs; rw [← List.takeWhile_append_dropWhile (p := isBlankLine) (l := before),
      ← List.rdropWhile_append_rtakeWhile (p := isBlankLine) (l := after)]
    simp only [List.append_assoc, fromFirst, upToLast]
  core_ne_nil := by
    intro hnil
    rw [List.append_eq_nil_iff] at hnil
    obtain ⟨l, hl, -⟩ := hfirst hnil.1
    rw [hnil.2] at hl
    cases hl
  first := by
    intro l hl
    rw [List.head?_append, Option.mem_def, Option.or_eq_some_iff, List.head?_eq_none_iff] at hl
    rcases hl with hl | ⟨hnil, hl⟩
    · exact head?_fromFirst before l hl
    · obtain ⟨k, hk, hblank⟩ := hfirst hnil
      rwa [Option.mem_unique hl hk]
  last := by
    intro l hl
    rw [← List.append_assoc, List.getLast?_append, Option.mem_def, Option.or_eq_some_iff,
      List.getLast?_eq_none_iff] at hl
    rcases hl with hl | ⟨hnil, hl⟩
    · exact getLast?_upToLast after l hl
    · obtain ⟨k, hk, hblank⟩ := hlast hnil
      rwa [Option.mem_unique hl hk]

theorem of_insert (hl : isBlankLine l = false) (before after : List (List Char)) :
    Core (fromFirst before ++ l :: upToLast after) (before ++ l :: after) := by
  change Core (fromFirst before ++ ([l] ++ upToLast after)) (before ++ ([l] ++ after))
  exact around (fun _ => ⟨l, rfl, hl⟩) fun _ => ⟨l, by simp, hl⟩

theorem of_inside (h : Inside before after) :
    Core (fromFirst before ++ upToLast after) (before ++ after) := by
  obtain ⟨hhead, hlast⟩ := h
  change Core (fromFirst before ++ ([] ++ upToLast after)) (before ++ ([] ++ after))
  refine around (fun hnil => ?_) fun hnil => ?_
  · rcases hhead with ⟨l, hl, hblank⟩ | ⟨l, hl, hblank⟩
    · rw [fromFirst_eq_nil.1 hnil l hl] at hblank
      cases hblank
    · exact ⟨l, head?_upToLast hl hblank, hblank⟩
  · rw [List.append_nil]
    rcases hlast with ⟨l, hl, hblank⟩ | ⟨l, hl, hblank⟩
    · rw [upToLast_eq_nil.1 hnil l hl] at hblank
      cases hblank
    · exact ⟨l, getLast?_fromFirst hl hblank, hblank⟩

end Core

end Comment
end MiniScriptLayout
