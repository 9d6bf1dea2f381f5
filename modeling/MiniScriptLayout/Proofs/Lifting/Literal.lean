import MiniScriptLayout.Proofs.Lifting.Marked

/-!
Lifting literals and putting them back. What is lifted leaves a marked text behind, and a marked
text whose literals are put back gives the same markers and the same literals when it is lifted
again. A literal may lack its closing quote only if it is the last one and ends the text.
-/

namespace MiniScriptLayout
namespace Literal

/-- The literal ends with its last quote in every text that goes on with something else. -/
def Closed (l : List Char) : Prop :=
  ∃ body, l = '"' :: body ∧
    ∀ rest : List Char, rest.head? ≠ some '"' → close (body ++ rest) = (body, rest)

/-- The literal takes all of a text that it begins. -/
def Open (l : List Char) : Prop :=
  ∃ body, l = '"' :: body ∧ close body = (body, [])

/-- Every literal of the table from `n` on is closed, but for the last one if a quote ends the
text. -/
def Fits (n : Nat) (table : List (List Char)) (s : List Char) : Prop :=
  ∀ i l, n ≤ i → table[i]? = some l →
    Closed l ∨ Open l ∧ i + 1 = table.length ∧ s.getLast? = some '"'

theorem head?_close (s : List Char) : (close s).2.head? ≠ some '"' := by
  fun_induction close s <;> simp_all

theorem close_ne_nil {s : List Char} (h : s ≠ []) : (close s).1 ≠ [] := by
  fun_induction close s <;> simp_all

theorem close_body (s : List Char) : close (close s).1 = ((close s).1, []) := by
  fun_induction close s with
  | case1 => rfl
  | case2 c => rfl
  | case3 r body rest heq ih =>
      rw [heq] at ih
      simp [close, ih]
  | case4 d r hd => rfl
  | case5 c d r hc body rest heq ih =>
      rw [heq] at ih
      cases hb : body with
      | nil => rfl
      | cons e t =>
          rw [hb] at ih
          simp [close, hc, ih]

theorem close_close_append {s rest : List Char} (hs : (close s).2 ≠ [])
    (hr : rest.head? ≠ some '"') : close ((close s).1 ++ rest) = ((close s).1, rest) := by
  fun_induction close s with
  | case1 => exact absurd rfl hs
  | case2 c => exact absurd rfl hs
  | case3 r body t heq ih =>
      rw [heq] at ih
      simp [close, ih hs]
  | case4 d r hd =>
      cases rest with
      | nil => rfl
      | cons e t => simpa [close] using hr
  | case5 c d r hc body t heq ih =>
      rw [heq] at ih
      have hne : body ++ rest ≠ [] := by
        have hbody := close_ne_nil (s := d :: r) (by simp)
        rw [heq] at hbody
        simp [hbody]
      obtain ⟨e, u, he⟩ := List.exists_cons_of_ne_nil hne
      have ih := ih hs
      rw [List.cons_append, he]
      rw [he] at ih
      simp [close, hc, ih]

/-- A literal that does not take the rest of the text ends in a quote. -/
theorem getLast?_close {s : List Char} (h : (close s).2 ≠ []) :
    (close s).1.getLast? = some '"' := by
  fun_induction close s with
  | case1 => exact absurd rfl h
  | case2 c => exact absurd rfl h
  | case3 r body rest heq ih =>
      rw [heq] at ih
      simp [List.getLast?_cons, ih h]
  | case4 d r hd => rfl
  | case5 c d r hc body rest heq ih =>
      rw [heq] at ih
      simp [List.getLast?_cons, ih h]

theorem Closed.getLast?_eq {l : List Char} (h : Closed l) : l.getLast? = some '"' := by
  obtain ⟨body, rfl, hclosed⟩ := h
  have hclose := hclosed [' '] (by simp)
  have hbody : (close (body ++ [' '])).1.getLast? = some '"' := getLast?_close (by simp [hclose])
  rw [hclose] at hbody
  simp [List.getLast?_cons, hbody]

theorem open_cons_close (s : List Char) : Open ('"' :: (close s).1) :=
  ⟨_, rfl, close_body s⟩

theorem closed_cons_close {s : List Char} (h : (close s).2 ≠ []) : Closed ('"' :: (close s).1) :=
  ⟨_, rfl, fun _ hr => close_close_append h hr⟩

theorem head?_liftFrom {n : Nat} {s : List Char} (h : s.head? ≠ some '"') :
    (liftFrom n s).text.head? ≠ some '"' := by
  cases s with
  | nil => simp [liftFrom]
  | cons c r =>
      rw [liftFrom]
      split
      · rename_i hc
        exact absurd (by rw [hc]; rfl) h
      · simpa using h

theorem liftFrom_quote (n : Nat) (r : List Char) :
    liftFrom n ('"' :: r) =
      ⟨marker.write n ++ (liftFrom (n + 1) (close r).2).text,
        ('"' :: (close r).1) :: (liftFrom (n + 1) (close r).2).table⟩ := by
  rw [liftFrom, if_pos rfl]

theorem liftFrom_char (n : Nat) {c : Char} (hc : c ≠ '"') (r : List Char) :
    liftFrom n (c :: r) = ⟨c :: (liftFrom n r).text, (liftFrom n r).table⟩ := by
  rw [liftFrom, if_neg hc]

theorem marked_liftFrom (n : Nat) (s : List Char) :
    Marked n (n + (liftFrom n s).table.length) (liftFrom n s).text := by
  induction n, s using liftFrom.induct with
  | case1 n =>
      rw [liftFrom]
      exact .nil n
  | case2 n r ih =>
      rw [liftFrom_quote]
      refine .slot (head?_liftFrom (head?_close r)) ?_
      rwa [List.length_cons, ← Nat.add_assoc, Nat.add_right_comm]
  | case3 n c r hc ih =>
      rw [liftFrom_char n hc]
      exact .char hc ih

theorem marked_lift (s : List Char) : Marked 0 (lift s).table.length (lift s).text := by
  have h := marked_liftFrom 0 s
  rwa [Nat.zero_add] at h

theorem fits_liftFrom (n : Nat) (s : List Char) :
    Fits 0 (liftFrom n s).table (liftFrom n s).text := by
  induction n, s using liftFrom.induct with
  | case1 n => simp [Fits, liftFrom]
  | case2 n r ih =>
      rw [liftFrom_quote]
      intro i l _ hl
      cases i with
      | zero =>
          simp only [List.getElem?_cons_zero, Option.some.injEq] at hl
          rw [← hl]
          by_cases hr : (close r).2 = []
          · refine .inr ⟨open_cons_close r, ?_, ?_⟩
            · simp [hr, liftFrom]
            · simp [hr, liftFrom, write_eq, List.getLast?_cons, List.getLast?_append]
          · exact .inl (closed_cons_close hr)
      | succ i =>
          rw [List.getElem?_cons_succ] at hl
          refine (ih i l (Nat.zero_le i) hl).imp_right fun h => ⟨h.1, ?_, ?_⟩
          · rw [List.length_cons, h.2.1]
          · simp [List.getLast?_append, h.2.2]
  | case3 n c r hc ih =>
      rw [liftFrom_char n hc]
      intro i l hi hl
      refine (ih i l hi hl).imp_right fun h => ⟨h.1, h.2.1, ?_⟩
      simp [List.getLast?_cons, h.2.2]

theorem getLast?_liftFrom_of_closed {n : Nat} {s : List Char}
    (h : ∀ l ∈ (liftFrom n s).table, Closed l) :
    (liftFrom n s).text.getLast? = s.getLast? := by
  induction n, s using liftFrom.induct with
  | case1 n => simp [liftFrom]
  | case2 n r ih =>
      rw [liftFrom_quote] at h ⊢
      rw [List.forall_mem_cons] at h
      have hlast := h.1.getLast?_eq
      have hr : r.getLast? = ((close r).2.getLast?).or (close r).1.getLast? := by
        conv => lhs; rw [← close_append r]
        exact List.getLast?_append
      rw [List.getLast?_cons] at hlast ⊢
      rw [List.getLast?_append, ih h.2, hr]
      cases (close r).2.getLast? with
      | none => simpa [write_eq, List.getLast?_cons] using hlast.symm
      | some c => rfl
  | case3 n c r hc ih =>
      rw [liftFrom_char n hc] at h ⊢
      rw [List.getLast?_cons, List.getLast?_cons, ih h]

/-- Closed literals are lifted alike whatever follows them, unless two quotes meet. -/
theorem liftFrom_append {n : Nat} {s t : List Char} (h : ∀ l ∈ (liftFrom n s).table, Closed l)
    (ht : s.getLast? = some '"' → t.head? ≠ some '"') :
    liftFrom n (s ++ t) =
      ⟨(liftFrom n s).text ++ (liftFrom (n + (liftFrom n s).table.length) t).text,
        (liftFrom n s).table ++ (liftFrom (n + (liftFrom n s).table.length) t).table⟩ := by
  induction n, s using liftFrom.induct with
  | case1 n => simp [liftFrom]
  | case2 n r ih =>
      rw [liftFrom_quote] at h ⊢
      rw [List.forall_mem_cons] at h
      obtain ⟨body, hbody, hclosed⟩ := h.1
      have hlast := h.1.getLast?_eq
      cases hbody
      have hr : r = (close r).1 ++ (close r).2 := (close_append r).symm
      have hhead : ((close r).2 ++ t).head? ≠ some '"' := by
        have := head?_close r
        cases hq : (close r).2 with
        | nil =>
            rw [hq, List.append_nil] at hr
            rw [← hr] at hlast
            exact ht hlast
        | cons c q => simpa [hq] using this
      have ht' : (close r).2.getLast? = some '"' → t.head? ≠ some '"' := by
        intro hq
        refine ht ?_
        rw [hr, ← List.cons_append, List.getLast?_append, hq, Option.some_or]
      have hclose := hclosed _ hhead
      rw [← List.append_assoc, close_append] at hclose
      rw [List.cons_append, liftFrom_quote, hclose, ih h.2 ht']
      simp [Nat.add_assoc, Nat.add_comm 1]
  | case3 n c r hc ih =>
      rw [liftFrom_char n hc] at h ⊢
      have ht' : r.getLast? = some '"' → t.head? ≠ some '"' := by
        intro hr
        exact ht (by rw [List.getLast?_cons, hr, Option.getD_some])
      rw [List.cons_append, liftFrom_char n hc, ih h ht']
      rfl

theorem pieces_cons {c : Char} {s : List Char} (h : c ≠ '"') :
    marker.pieces (c :: s) = .char c :: marker.pieces s := by
  apply Marker.pieces_cons
  rintro ⟨t, ht⟩
  simp only [marker, List.cons_append, List.cons.injEq] at ht
  exact h ht.1.symm

theorem pieces_write (n : Nat) (s : List Char) :
    marker.pieces (marker.write n ++ s) = .slot n (Text.decimal n) :: marker.pieces s := by
  refine Marker.pieces_write (by simp [marker]) fun d hd => ?_
  simp only [marker, List.cons_append, List.head?_cons, Option.mem_some_iff] at hd
  rw [← hd]
  rfl

theorem restore_cons {table : List (List Char)} {c : Char} {s : List Char} (h : c ≠ '"') :
    restore table (c :: s) = c :: restore table s := by
  rw [restore, Marker.fill, pieces_cons h]
  rfl

theorem restore_write {table : List (List Char)} {n : Nat} {l s : List Char}
    (h : table[n]? = some l) : restore table (marker.write n ++ s) = l ++ restore table s := by
  rw [restore, Marker.fill, pieces_write, List.flatMap_cons, Marker.Piece.fill, h]
  rfl

theorem head?_restore {table : List (List Char)} {s : List Char} (h : s.head? ≠ some '"') :
    (restore table s).head? ≠ some '"' := by
  cases s with
  | nil => simp [restore, Marker.fill_nil]
  | cons c r =>
      have hc : c ≠ '"' := by simpa using h
      rw [restore_cons hc]
      simpa using hc

/-- A text whose literals are put back lifts to the same text and the same literals. -/
theorem liftFrom_restore {table : List (List Char)} {n m : Nat} {s : List Char}
    (h : Marked n m s) (hm : m = table.length) (hfits : Fits n table s) :
    liftFrom n (restore table s) = ⟨s, table.drop n⟩ := by
  induction h with
  | nil n =>
      rw [hm, List.drop_length]
      simp [restore, Marker.fill_nil, liftFrom]
  | @char n m c s hc _ ih =>
      have hs : Fits n table s := by
        intro i l hi hl
        refine (hfits i l hi hl).imp_right fun h => ⟨h.1, h.2.1, ?_⟩
        have hlast := h.2.2
        cases s with
        | nil => exact absurd (by simpa using hlast) hc
        | cons d s => rwa [List.getLast?_cons_cons] at hlast
      rw [restore_cons hc, liftFrom_char n hc, ih hm hs]
  | @slot n m s hhead hmarked ih =>
      have hn : n < table.length := by
        have := hmarked.le
        omega
      have hl : table[n]? = some table[n] := List.getElem?_eq_getElem hn
      have hs : Fits (n + 1) table s := by
        intro i l hi hl
        refine (hfits i l (by omega) hl).imp_right fun h => ⟨h.1, h.2.1, ?_⟩
        have hlast := h.2.2
        cases s with
        | nil =>
            have := marked_nil_iff.1 hmarked
            omega
        | cons d s => simpa [List.getLast?_append] using hlast
      have ih := ih hm hs
      rw [restore_write hl, List.drop_eq_getElem_cons hn]
      rcases hfits n _ (Nat.le_refl n) hl with
        ⟨body, hbody, hclosed⟩ | ⟨⟨body, hbody, hopen⟩, hlast, hquote⟩
      · rw [hbody, List.cons_append, liftFrom_quote, hclosed _ (head?_restore hhead), ih]
      · -- no marker follows, so the quote that ends the text is the one of this marker
        have hs : s = [] := by
          cases s with
          | nil => rfl
          | cons d s =>
              have hmem : '"' ∈ d :: s := by
                apply List.mem_of_getLast?
                simpa [List.getLast?_append] using hquote
              exact absurd hmem (hmarked.not_mem (by omega))
        rw [hs, restore, Marker.fill_nil] at ih ⊢
        rw [hbody, List.append_nil, liftFrom_quote, hopen, ih, List.append_nil]

theorem lift_restore {table : List (List Char)} {s : List Char}
    (h : Marked 0 table.length s) (hfits : Fits 0 table s) :
    lift (restore table s) = ⟨s, table⟩ :=
  liftFrom_restore h rfl hfits

section Restoring

variable {table : List (List Char)} {n m : Nat} {s : List Char}

theorem restore_nil : restore table [] = [] :=
  Marker.fill_nil

/-- Only the markers of the range are found. -/
theorem Marked.slot_lt (h : Marked n m s) {k : Nat} {digits : List Char}
    (hk : .slot k digits ∈ marker.pieces s) : k < m := by
  induction h with
  | nil n =>
      rw [Marker.pieces_nil] at hk
      cases hk
  | char hc _ ih =>
      rw [pieces_cons hc] at hk
      exact ih ((List.mem_cons.1 hk).resolve_left (by simp))
  | @slot n m s _ hmarked ih =>
      rw [pieces_write, List.mem_cons, Marker.Piece.slot.injEq] at hk
      rcases hk with ⟨rfl, -⟩ | hk
      · exact hmarked.le
      · exact ih hk

theorem Marked.missing?_eq_none (h : Marked n m s) (hm : m ≤ table.length) :
    marker.missing? table s = none :=
  Marker.missing?_eq_none_iff.2 fun _ _ hk => Nat.lt_of_lt_of_le (h.slot_lt hk) hm

/-- What was lifted is put back where it was. -/
theorem restore_liftFrom (h : table.drop n = (liftFrom n s).table) :
    restore table (liftFrom n s).text = s := by
  induction n, s using liftFrom.induct with
  | case1 n =>
      rw [liftFrom]
      exact restore_nil
  | case2 n r ih =>
      rw [liftFrom_quote] at h ⊢
      have hl : table[n]? = some ('"' :: (close r).1) := by
        rw [← List.head?_drop, h, List.head?_cons]
      have hrest : table.drop (n + 1) = (liftFrom (n + 1) (close r).2).table := by
        rw [← List.tail_drop, h, List.tail_cons]
      rw [restore_write hl, ih hrest, List.cons_append, close_append]
  | case3 n c r hc ih =>
      rw [liftFrom_char n hc] at h ⊢
      rw [restore_cons hc, ih h]

theorem restore_lift (s : List Char) : restore (lift s).table (lift s).text = s :=
  restore_liftFrom List.drop_zero

/-- The entries of a table are put back alike when the table and the text go on. -/
theorem restore_append (h : Marked n m s) (hm : m ≤ table.length) (more : List (List Char))
    (t : List Char) :
    restore (table ++ more) (s ++ t) = restore table s ++ restore (table ++ more) t := by
  induction h with
  | nil n => rw [restore_nil, List.nil_append, List.nil_append]
  | @char n m c s hc _ ih =>
      rw [List.cons_append, restore_cons hc, restore_cons hc, ih hm]
      rfl
  | @slot n m s _ hmarked ih =>
      have hn : n < table.length := Nat.lt_of_lt_of_le hmarked.le hm
      have hl : table[n]? = some table[n] := List.getElem?_eq_getElem hn
      have hl' : (table ++ more)[n]? = some table[n] := by rw [List.getElem?_append_left hn, hl]
      rw [List.append_assoc, restore_write hl', restore_write hl, ih hm, List.append_assoc]

/-- A marker and its literal begin alike. -/
theorem Marked.head?_restore (h : Marked n m s) (hm : m ≤ table.length)
    (hclosed : ∀ l ∈ table, Closed l) : (restore table s).head? = s.head? := by
  cases h with
  | nil n => rw [restore_nil]
  | char hc _ => rw [restore_cons hc, List.head?_cons, List.head?_cons]
  | slot _ hmarked =>
      have hn : n < table.length := Nat.lt_of_lt_of_le hmarked.le hm
      obtain ⟨body, hbody, -⟩ := hclosed _ (List.getElem_mem hn)
      rw [restore_write (List.getElem?_eq_getElem hn), hbody, write_eq]
      rfl

/-- A marker and its literal end alike. -/
theorem Marked.getLast?_restore (h : Marked n m s) (hm : m ≤ table.length)
    (hclosed : ∀ l ∈ table, Closed l) : (restore table s).getLast? = s.getLast? := by
  induction h with
  | nil n => rw [restore_nil]
  | char hc _ ih => rw [restore_cons hc, List.getLast?_cons, List.getLast?_cons, ih hm]
  | @slot n m s _ hmarked ih =>
      have hn : n < table.length := Nat.lt_of_lt_of_le hmarked.le hm
      have hquote : (marker.write n).getLast? = some '"' := by
        simp [write_eq, List.getLast?_cons, List.getLast?_append]
      rw [restore_write (List.getElem?_eq_getElem hn), List.getLast?_append, List.getLast?_append,
        ih hm, (hclosed _ (List.getElem_mem hn)).getLast?_eq, hquote]

theorem Marked.mem_restore (h : Marked n m s) (hm : m ≤ table.length) {c : Char}
    (hc : c ∈ restore table s) : c ∈ s ∨ ∃ l ∈ table, c ∈ l := by
  induction h with
  | nil n => rw [restore_nil] at hc; exact .inl hc
  | @char n m d s hd _ ih =>
      rw [restore_cons hd, List.mem_cons] at hc
      rcases hc with rfl | hc
      · exact .inl List.mem_cons_self
      · exact (ih hm hc).imp_left (List.mem_cons_of_mem d)
  | @slot n m s _ hmarked ih =>
      have hn : n < table.length := Nat.lt_of_lt_of_le hmarked.le hm
      rw [restore_write (List.getElem?_eq_getElem hn), List.mem_append] at hc
      rcases hc with hc | hc
      · exact .inr ⟨_, List.getElem_mem hn, hc⟩
      · exact (ih hm hc).imp_left (List.mem_append_right _)

/-- The lines of a marked text are marked. -/
theorem Marked.exists_of_mem {ls : List (List Char)} (h : Marked n m (Text.unlines ls)) :
    ∀ l ∈ ls, ∃ j k, k ≤ m ∧ Marked j k l := by
  induction ls generalizing n with
  | nil => simp
  | cons l ls ih =>
      cases ls with
      | nil =>
          rw [List.forall_mem_singleton]
          exact ⟨n, m, Nat.le_refl m, h⟩
      | cons l' ls =>
          rw [Text.unlines_cons l (List.cons_ne_nil l' ls), marked_append_cons_iff rfl] at h
          obtain ⟨k, hl, hls⟩ := h
          rw [List.forall_mem_cons]
          exact ⟨⟨n, k, hls.le, hl⟩, ih hls⟩

/-- Literals are put back line by line. -/
theorem Marked.restore_unlines {ls : List (List Char)} (h : Marked n m (Text.unlines ls))
    (hm : m ≤ table.length) :
    restore table (Text.unlines ls) = Text.unlines (ls.map (restore table)) := by
  induction ls generalizing n with
  | nil => exact restore_nil
  | cons l ls ih =>
      cases ls with
      | nil => rfl
      | cons l' ls =>
          rw [Text.unlines_cons l (List.cons_ne_nil l' ls), marked_append_cons_iff rfl] at h
          obtain ⟨k, hl, hls⟩ := h
          have happend := restore_append hl (Nat.le_trans hls.le hm) []
            ('\n' :: Text.unlines (l' :: ls))
          rw [List.append_nil, restore_cons (by decide), ih hls] at happend
          rw [Text.unlines_cons l (List.cons_ne_nil l' ls), happend]
          exact (Text.unlines_cons _ (by simp)).symm

end Restoring

end Literal
end MiniScriptLayout
