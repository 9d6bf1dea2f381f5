import Mathlib.Data.List.Basic
import MiniScriptLayout.Text.Lines

/-!
Pieces of a text between the places of a character. Pieces without that character come back when
the text that joins them is split; lines are the pieces between line feeds.
-/

namespace MiniScriptLayout
namespace Text

theorem split_of_not_mem {d : Char} {p : List Char} (h : d ∉ p) : split d p = [p] := by
  induction p with
  | nil => rfl
  | cons c p ih =>
      rw [List.mem_cons, not_or] at h
      simp only [split, if_neg (Ne.symm h.1), ih h.2, consPiece]

theorem split_append_cons {d : Char} {p : List Char} (h : d ∉ p) (s : List Char) :
    split d (p ++ d :: s) = p :: split d s := by
  induction p with
  | nil => simp [split]
  | cons c p ih =>
      rw [List.mem_cons, not_or] at h
      simp only [List.cons_append, split, if_neg (Ne.symm h.1), ih h.2, consPiece]

/-- What holds no separator goes to the first piece behind it. -/
theorem split_append {d : Char} {p s q : List Char} {qs : List (List Char)} (h : d ∉ p)
    (hs : split d s = q :: qs) : split d (p ++ s) = (p ++ q) :: qs := by
  induction p with
  | nil => exact hs
  | cons c p ih =>
      rw [List.mem_cons, not_or] at h
      simp only [List.cons_append, split, if_neg (Ne.symm h.1), ih h.2, consPiece]

theorem join_cons {d : Char} (p : List Char) {ps : List (List Char)} (h : ps ≠ []) :
    join d (p :: ps) = p ++ d :: join d ps := by
  cases ps with
  | nil => exact absurd rfl h
  | cons q ps => rfl

theorem split_join {d : Char} {ps : List (List Char)} (hne : ps ≠ []) (h : ∀ p ∈ ps, d ∉ p) :
    split d (join d ps) = ps := by
  induction ps with
  | nil => exact absurd rfl hne
  | cons p ps ih =>
      cases ps with
      | nil => exact split_of_not_mem (h p (by simp))
      | cons q ps =>
          rw [join_cons p (by simp), split_append_cons (h p (by simp)),
            ih (by simp) fun r hr => h r (by simp [hr])]

theorem not_mem_split {d : Char} (s : List Char) : ∀ p ∈ split d s, d ∉ p := by
  induction s with
  | nil => simp [split]
  | cons c r ih =>
      simp only [split]
      split
      · simpa using ih
      · rename_i hc
        cases hr : split d r with
        | nil => exact absurd hr (split_ne_nil d r)
        | cons q qs =>
            rw [hr] at ih
            simp only [consPiece, List.forall_mem_cons] at ih ⊢
            refine ⟨?_, ih.2⟩
            rw [List.mem_cons, not_or]
            exact ⟨Ne.symm hc, ih.1⟩

theorem join_append {d : Char} {ps qs : List (List Char)} (hp : ps ≠ []) (hq : qs ≠ []) :
    join d (ps ++ qs) = join d ps ++ d :: join d qs := by
  induction ps with
  | nil => exact absurd rfl hp
  | cons p ps ih =>
      cases ps with
      | nil => exact join_cons p hq
      | cons q ps =>
          rw [List.cons_append, join_cons p (by simp), ih (by simp), join_cons p (by simp),
            List.append_assoc, List.cons_append]

theorem unlines_cons (l : List Char) {ls : List (List Char)} (h : ls ≠ []) :
    unlines (l :: ls) = l ++ '\n' :: unlines ls :=
  join_cons l h

theorem lines_unlines {ls : List (List Char)} (hne : ls ≠ []) (h : ∀ l ∈ ls, '\n' ∉ l) :
    lines (unlines ls) = ls :=
  split_join hne h

theorem not_mem_lines (s : List Char) : ∀ l ∈ lines s, '\n' ∉ l :=
  not_mem_split s

theorem isPrefix_of_lines {s l : List Char} {ls : List (List Char)} (h : lines s = l :: ls) :
    l <+: s := by
  rw [← unlines_lines s, h]
  cases ls with
  | nil => exact List.prefix_refl l
  | cons m ls =>
      rw [unlines_cons l (List.cons_ne_nil m ls)]
      exact List.prefix_append l _

theorem unlines_append {ls ms : List (List Char)} (hl : ls ≠ []) (hm : ms ≠ []) :
    unlines (ls ++ ms) = unlines ls ++ '\n' :: unlines ms :=
  join_append hl hm

theorem mem_unlines {ls : List (List Char)} {c : Char} (hc : c ≠ '\n') :
    c ∈ unlines ls ↔ ∃ l ∈ ls, c ∈ l := by
  induction ls with
  | nil => simp [unlines, join]
  | cons k ls ih =>
      cases ls with
      | nil => simp [unlines, join]
      | cons m ls =>
          rw [unlines_cons k (List.cons_ne_nil m ls), List.mem_append, List.mem_cons, ih]
          simp only [hc, false_or, List.mem_cons, exists_eq_or_imp]

theorem joinReturns_cons (c : Char) (r : List Char) :
    joinReturns (c :: r) =
      if c = '\r' ∧ r.head? = some '\n' then '\n' :: joinReturns r.tail
      else c :: joinReturns r := by
  cases r with
  | nil => simp [joinReturns]
  | cons d r => simp [joinReturns]

theorem joinReturns_of_not_mem {l : List Char} (h : '\n' ∉ l) : joinReturns l = l := by
  induction l with
  | nil => rfl
  | cons c r ih =>
      rw [List.mem_cons, not_or] at h
      have hhead : r.head? ≠ some '\n' := fun hr => h.2 (List.mem_of_head? hr)
      rw [joinReturns_cons, if_neg fun hc => hhead hc.2, ih h.2]

theorem mem_of_mem_joinReturns {s : List Char} {c : Char} (hc : c ≠ '\n')
    (h : c ∈ joinReturns s) : c ∈ s := by
  fun_induction joinReturns s with
  | case1 => exact h
  | case2 d => exact h
  | case3 d e r _ ih =>
      have hr := ih ((List.mem_cons.1 h).resolve_left hc)
      exact List.mem_cons_of_mem d (List.mem_cons_of_mem e hr)
  | case4 d e r _ ih =>
      rcases List.mem_cons.1 h with rfl | hr
      · exact List.mem_cons_self
      · exact List.mem_cons_of_mem d (ih hr)

/-- A line that does not end in a carriage return stays as it is. -/
theorem joinReturns_append {l : List Char} (h : '\n' ∉ l) (hlast : l.getLast? ≠ some '\r')
    (s : List Char) : joinReturns (l ++ '\n' :: s) = l ++ '\n' :: joinReturns s := by
  induction l with
  | nil => simp [joinReturns_cons]
  | cons c r ih =>
      rw [List.mem_cons, not_or] at h
      rw [List.cons_append, joinReturns_cons, if_neg]
      · cases r with
        | nil => simp [joinReturns_cons]
        | cons d r =>
            rw [List.getLast?_cons_cons] at hlast
            rw [ih h.2 hlast]
            rfl
      · rintro ⟨rfl, hr⟩
        cases r with
        | nil => simp at hlast
        | cons d r => exact h.2 (by simpa using Or.inl (Option.some.inj hr).symm)

theorem joinReturns_return {l : List Char} (h : '\n' ∉ l) (s : List Char) :
    joinReturns (l ++ '\r' :: '\n' :: s) = l ++ '\n' :: joinReturns s := by
  induction l with
  | nil => simp [joinReturns_cons]
  | cons c r ih =>
      rw [List.mem_cons, not_or] at h
      rw [List.cons_append, joinReturns_cons, if_neg, ih h.2]
      · rfl
      · rintro ⟨rfl, hr⟩
        cases r with
        | nil => simp at hr
        | cons d r => exact h.2 (by simpa using Or.inl (Option.some.inj hr).symm)

theorem not_mem_toLineFeeds (s : List Char) : '\r' ∉ toLineFeeds s := by
  intro h
  obtain ⟨c, -, hc⟩ := List.mem_map.1 h
  split at hc
  · cases hc
  · exact absurd hc ‹_›

theorem mem_of_mem_toLineFeeds {s : List Char} {c : Char} (hc : c ≠ '\n')
    (h : c ∈ toLineFeeds s) : c ∈ s := by
  obtain ⟨d, hd, hcd⟩ := List.mem_map.1 h
  split at hcd
  · exact absurd hcd.symm hc
  · exact mem_of_mem_joinReturns hc (hcd ▸ hd)

/-- A carriage return alone splits a line. -/
theorem lines_toLineFeeds (s : List Char) :
    lines (toLineFeeds s) = (lines (joinReturns s)).flatMap (split '\r') := by
  suffices h : ∀ t, lines (t.map fun c => if c = '\r' then '\n' else c) =
      (lines t).flatMap (split '\r') from h (joinReturns s)
  intro t
  induction t with
  | nil => rfl
  | cons c t ih =>
      obtain ⟨l, ls, ht⟩ := List.exists_cons_of_ne_nil (lines_ne_nil t)
      obtain ⟨p, ps, hl⟩ := List.exists_cons_of_ne_nil (split_ne_nil '\r' l)
      rw [ht] at ih
      rw [lines] at ht ih ⊢
      rw [lines, List.map_cons]
      by_cases hfeed : c = '\n'
      · simp [hfeed, split, ih, ht]
      · by_cases hreturn : c = '\r'
        · simp [hreturn, split, ih, ht, consPiece]
        · simp [hfeed, hreturn, split, ih, ht, hl, consPiece]

/-- Where all carriage returns stand before line feeds, these are the line ends. -/
theorem toLineFeeds_eq_joinReturns {s : List Char} (h : '\r' ∉ joinReturns s) :
    toLineFeeds s = joinReturns s := by
  refine (List.map_congr_left fun c hc => if_neg ?_).trans (List.map_id _)
  rintro rfl
  exact h hc

theorem joinReturns_of_not_mem_return {s : List Char} (h : '\r' ∉ s) : joinReturns s = s := by
  fun_induction joinReturns s with
  | case1 => rfl
  | case2 c => rfl
  | case3 c d r hc _ => exact absurd (by rw [hc.1]; exact List.mem_cons_self) h
  | case4 c d r _ ih => rw [ih fun hr => h (List.mem_cons_of_mem c hr)]

theorem toLineFeeds_of_not_mem {s : List Char} (h : '\r' ∉ s) : toLineFeeds s = s := by
  have hjoin := joinReturns_of_not_mem_return h
  rw [toLineFeeds_eq_joinReturns (by rwa [hjoin]), hjoin]

end Text
end MiniScriptLayout
