import MiniScriptLayout.Proofs.Rows.Separators

/-!
Breaking a text into statements keeps its rows: every step of `Statement.split` turns lifted rows
into lifted rows with the same comments. No separator is left, and a text without separators has its
lines as statements.
-/

namespace MiniScriptLayout

namespace Statement

open Text

theorem not_mem_breakAtSeparators (s : List Char) : ';' ∉ breakAtSeparators s := by
  fun_induction breakAtSeparators s with
  | case1 => simp
  | case2 r ih => simpa using ih
  | case3 c r hc ih => simpa [Ne.symm hc] using ih

theorem not_mem_split (s : List Char) : ∀ l ∈ split s, ';' ∉ l := by
  intro l hl hmem
  have := (mem_unlines (by decide)).2 ⟨l, hl, hmem⟩
  rw [split, unlines_lines] at this
  exact not_mem_breakAtSeparators _ (mem_of_mem_trim this)

/-- Without separators the statements are the lines. -/
theorem split_of_not_mem {s : List Char} (h : ';' ∉ s) :
    split s = lines (trim (joinReturns s)) := by
  have hjoin : ';' ∉ joinReturns s := fun hmem => h (mem_of_mem_joinReturns (by decide) hmem)
  have hdrop : dropBeforeComments (joinReturns s) = joinReturns s := by
    simpa [dropBeforeComments] using Row.dropBeforeComments_append hjoin []
  have hbreak : breakAtSeparators (joinReturns s) = joinReturns s := by
    simpa [breakAtSeparators] using Row.breakAtSeparators_append hjoin []
  rw [split, hdrop, hbreak]

end Statement

namespace Row

open Text

theorem keepsRows_joinReturns : KeepsRows joinReturns := by
  refine .of_row rfl (fun s => by simp [joinReturns_cons]) ?_
  intro n r tail hs htail
  have hline := hs.not_mem_lifted (n := n)
  cases tail with
  | nil =>
      refine ⟨[r], by simp, .refl _, ?_⟩
      rw [List.append_nil, joinReturns_of_not_mem hline]
      simp [joinReturns, unlines_write_single]
  | cons c s =>
      obtain rfl : c = '\n' := htail c rfl
      have hfeed : joinReturns ('\n' :: s) = '\n' :: joinReturns s := by simp [joinReturns_cons]
      by_cases hlast : (r.lifted n).getLast? = some '\r'
      · obtain ⟨code, body⟩ := r
        cases body with
        | some b =>
            exact absurd (isAsciiDigit_of_getLast? hlast) (by decide)
        | none =>
            simp only [lifted, Option.map_none, Option.getD_none, List.append_nil] at hlast hline
            obtain ⟨front, rfl⟩ := List.getLast?_eq_some_iff.1 hlast
            refine ⟨[⟨front, none⟩], by simp, .drop_end (by simp [isBlank]), ?_⟩
            rw [hfeed]
            simp only [lifted, Option.map_none, Option.getD_none, List.append_nil,
              List.append_assoc, List.singleton_append, unlines_write_single]
            exact joinReturns_return (fun hmem => hline (by simp [hmem])) s
      · exact ⟨[r], by simp, .refl _, by
          rw [joinReturns_append hline hlast, hfeed, unlines_write_single]⟩

theorem keepsRows_trimLeft : KeepsRows trimLeft := by
  intro n rows hne hs
  clear hs
  induction rows generalizing n with
  | nil => exact absurd rfl hne
  | cons r rows ih =>
      obtain ⟨code, body⟩ := r
      obtain ⟨gap, hb, hcode⟩ := exists_blanks_trimLeft code
      have hkeeps : Keeps [⟨code, body⟩] [⟨trimLeft code, body⟩] := by
        conv => arg 1; rw [hcode]
        exact Keeps.drop_start hb
      have trimmed : ∀ tail : List Char, (trimLeft code = [] → body = none → tail = []) →
          trimLeft ((⟨code, body⟩ : Row).lifted n ++ tail) =
            (⟨trimLeft code, body⟩ : Row).lifted n ++ tail := by
        intro tail htail
        conv => lhs; rw [lifted, hcode, List.append_assoc, List.append_assoc,
          trimLeft_blanks_append hb, ← List.append_assoc]
        refine trimLeft_eq_self (head?_lifted_append (head?_trimLeft code) (fun _ => rfl) ?_)
        intro hnil hbody
        simp [htail hnil hbody]
      cases rows with
      | nil =>
          refine ⟨[⟨trimLeft code, body⟩], by simp, hkeeps, ?_⟩
          rw [unlines_write_single, unlines_write_single]
          simpa using trimmed [] fun _ _ => rfl
      | cons q rows =>
          rw [unlines_write_cons (by simp)]
          by_cases hblank : trimLeft code = [] ∧ body = none
          · obtain ⟨hnil, rfl⟩ := hblank
            obtain ⟨rows', hne', hk, hf⟩ := ih n (by simp)
            rw [trimLeft_eq_nil] at hnil
            refine ⟨rows', hne', (Keeps.drop_blank hnil).append hk, ?_⟩
            rw [← hf]
            simp only [lifted, Option.map_none, Option.getD_none, List.append_nil]
            rw [trimLeft_blanks_append hnil]
            exact trimLeft_blanks_append (List.forall_mem_singleton.2 rfl) _
          · refine ⟨⟨trimLeft code, body⟩ :: q :: rows, by simp, hkeeps.append (.refl _), ?_⟩
            rw [trimmed _ fun hnil hbody => absurd ⟨hnil, hbody⟩ hblank]
            exact (unlines_write_cons (List.cons_ne_nil q rows)).symm

theorem keepsRows_trimRight : KeepsRows trimRight := by
  intro n rows hne hs
  clear hs
  induction rows using List.reverseRecOn generalizing n with
  | nil => exact absurd rfl hne
  | append_singleton init r ih =>
      obtain ⟨code, body⟩ := r
      have front : ∃ front, ∀ r : Row, unlines (write n (init ++ [r])) =
          front ++ r.lifted (n + (bodies init).length) ∧
          (init ≠ [] → front = unlines (write n init) ++ ['\n']) := by
        by_cases hinit : init = []
        · exact ⟨[], fun r => ⟨by simp [hinit, unlines_write_single, bodies], absurd hinit⟩⟩
        · exact ⟨_, fun r => ⟨by simp [unlines_write_append hinit, unlines_write_single],
            fun _ => rfl⟩⟩
      obtain ⟨front, hfront⟩ := front
      cases body with
      | some b =>
          -- the text ends in the number of the last comment
          refine ⟨init ++ [⟨code, some b⟩], by simp, .refl _, trimRight_eq_self ?_⟩
          intro c hc
          rw [(hfront _).1, lifted, Option.map_some, Option.getD_some, ← List.append_assoc] at hc
          exact not_isBlank_of_getLast? _ hc
      | none =>
          obtain ⟨gap, hb, hcode⟩ := exists_trimRight_blanks code
          have hkeeps : Keeps [⟨code, none⟩] [⟨trimRight code, none⟩] := by
            conv => arg 1; rw [hcode]
            exact Keeps.drop_end hb
          by_cases hblank : trimRight code = [] ∧ init ≠ []
          · obtain ⟨hnil, hinit⟩ := hblank
            obtain ⟨rows', hne', hk, hf⟩ := ih n hinit
            rw [trimRight_eq_nil] at hnil
            refine ⟨rows', hne', ?_, ?_⟩
            · simpa using hk.append (Keeps.drop_blank hnil)
            · rw [← hf, (hfront _).1, (hfront ⟨code, none⟩).2 hinit, List.append_assoc]
              exact trimRight_append_blanks _ (by simpa [lifted, isBlank] using hnil)
          · refine ⟨init ++ [⟨trimRight code, none⟩], by simp, (Keeps.refl _).append hkeeps, ?_⟩
            rw [(hfront _).1, (hfront _).1]
            simp only [lifted, Option.map_none, Option.getD_none, List.append_nil]
            by_cases hnil : trimRight code = []
            · have hinit : init = [] := by
                by_contra hinit
                exact hblank ⟨hnil, hinit⟩
              have := (hfront ⟨[], none⟩).1
              simp only [hinit, List.nil_append, unlines_write_single, lifted, Option.map_none,
                Option.getD_none, List.append_nil] at this
              rw [← this, List.nil_append, List.nil_append]
            · exact trimRight_append_of_ne_nil front hnil

theorem exists_split {n : Nat} {rows : List Row} (hne : rows ≠ [])
    (hs : ∀ r ∈ rows, r.Sound) :
    ∃ rows', Keeps rows rows' ∧ Statement.split (unlines (write n rows)) = write n rows' := by
  obtain ⟨rows', hne', hk, hf⟩ := ((((keepsRows_joinReturns.comp
    keepsRows_dropBeforeComments).comp keepsRows_breakAtSeparators).comp
    keepsRows_trimLeft).comp keepsRows_trimRight) n rows hne hs
  refine ⟨rows', hk, ?_⟩
  exact (congrArg lines hf).trans (lines_unlines_write hne' (hk.sound hs))

end Row
end MiniScriptLayout
