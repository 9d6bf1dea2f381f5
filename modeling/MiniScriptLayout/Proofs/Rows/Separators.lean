import MiniScriptLayout.Proofs.Rows.Lifted
import MiniScriptLayout.Statement

/-!
Separators. A semicolon right before a comment becomes a space, which keeps the row of the comment
as it is; every other one cuts its row in two.
-/

namespace MiniScriptLayout

namespace Row

open Text

variable {n : Nat}

theorem breakAtSeparators_cons {c : Char} (hc : c ≠ ';') (s : List Char) :
    Statement.breakAtSeparators (c :: s) = c :: Statement.breakAtSeparators s := by
  rw [Statement.breakAtSeparators, if_neg hc]

theorem breakAtSeparators_append {front : List Char} (h : ';' ∉ front) (s : List Char) :
    Statement.breakAtSeparators (front ++ s) = front ++ Statement.breakAtSeparators s := by
  induction front with
  | nil => rfl
  | cons c front ih =>
      rw [List.mem_cons, not_or] at h
      rw [List.cons_append, breakAtSeparators_cons (Ne.symm h.1), ih h.2, List.cons_append]

theorem skipLineFeed_of_head? {s : List Char} (h : s.head? ≠ some '\n') :
    Statement.skipLineFeed s = s := by
  unfold Statement.skipLineFeed
  split
  · simp at h
  · rfl

theorem dropWhile_of_head? {p : Char → Bool} {s : List Char} (h : ∀ c ∈ s.head?, p c = false) :
    s.dropWhile p = s := by
  cases s with
  | nil => rfl
  | cons c s => simp [h c rfl]

/-- The blanks of a line in front of its other characters. -/
theorem exists_inline_gap (s : List Char) :
    ∃ gap behind, s = gap ++ behind ∧ (∀ c ∈ gap, isInlineBlank c = true) ∧
      (∀ c ∈ gap, isBlank c = true) ∧ ∀ c ∈ behind.head?, isInlineBlank c = false := by
  have hgap : ∀ c ∈ s.takeWhile isInlineBlank, isInlineBlank c = true :=
    fun _ h => List.mem_takeWhile_imp h
  refine ⟨s.takeWhile isInlineBlank, s.dropWhile isInlineBlank,
    List.takeWhile_append_dropWhile.symm, hgap, isBlank_gap hgap, fun c hc => ?_⟩
  have := List.head?_dropWhile_not isInlineBlank s
  rw [Option.mem_def.1 hc] at this
  simpa using this

theorem skipLineFeed_lifted {code tail : List Char} {body : Option (List Char)}
    (hs : Sound ⟨code, body⟩) (htail : code = [] → body = none → tail = []) :
    Statement.skipLineFeed ((⟨code, body⟩ : Row).lifted n ++ tail) =
      (⟨code, body⟩ : Row).lifted n ++ tail := by
  refine skipLineFeed_of_head? fun h => ?_
  have hfeed : decide ('\n' = '\n') = false :=
    head?_lifted_append (p := fun c => decide (c = '\n')) ?_ (fun _ => rfl) ?_ '\n' h
  · simp at hfeed
  · intro c hc
    rw [decide_eq_false_iff_not]
    rintro rfl
    exact hs.line (List.mem_of_head? hc)
  · intro hcode hbody c hc
    rw [htail hcode hbody] at hc
    cases hc

/-- A text is broken at its first separator. -/
theorem breakAtSeparators_separator {front gap s : List Char} (hfront : ';' ∉ front)
    (hgap : ∀ c ∈ gap, isInlineBlank c = true) (hhead : ∀ c ∈ s.head?, isInlineBlank c = false) :
    Statement.breakAtSeparators (front ++ ';' :: (gap ++ s)) =
      front ++ '\n' :: Statement.breakAtSeparators (Statement.skipLineFeed s) := by
  have hdrop : (gap ++ s).dropWhile isInlineBlank = s := by
    rw [List.dropWhile_append_of_pos hgap, dropWhile_of_head? hhead]
  rw [breakAtSeparators_append hfront, Statement.breakAtSeparators, if_pos rfl, hdrop]

theorem breakAtSeparators_lifted {front gap behind tail : List Char} {body : Option (List Char)}
    (hfront : ';' ∉ front) (hgap : ∀ c ∈ gap, isInlineBlank c = true)
    (hhead : ∀ c ∈ behind.head?, isInlineBlank c = false) (htail : ∀ c ∈ tail.head?, c = '\n') :
    Statement.breakAtSeparators ((⟨front ++ ';' :: (gap ++ behind), body⟩ : Row).lifted n ++ tail) =
      front ++ '\n' :: Statement.breakAtSeparators
        (Statement.skipLineFeed ((⟨behind, body⟩ : Row).lifted n ++ tail)) := by
  have hinline : ∀ c ∈ ((⟨behind, body⟩ : Row).lifted n ++ tail).head?,
      isInlineBlank c = false := by
    refine head?_lifted_append hhead (fun _ => rfl) fun _ _ c hc => ?_
    rw [htail c hc]
    rfl
  rw [← breakAtSeparators_separator hfront hgap hinline]
  simp only [lifted, List.append_assoc, List.cons_append]

theorem dropBeforeComments_cons {c : Char} (hc : c ≠ ';') (s : List Char) :
    Statement.dropBeforeComments (c :: s) = c :: Statement.dropBeforeComments s := by
  rw [Statement.dropBeforeComments, if_neg hc]

theorem dropBeforeComments_append {front : List Char} (h : ';' ∉ front) (s : List Char) :
    Statement.dropBeforeComments (front ++ s) = front ++ Statement.dropBeforeComments s := by
  induction front with
  | nil => rfl
  | cons c front ih =>
      rw [List.mem_cons, not_or] at h
      rw [List.cons_append, dropBeforeComments_cons (Ne.symm h.1), ih h.2, List.cons_append]

theorem dropBeforeComments_opened {s rest : List Char}
    (h : s.dropWhile isInlineBlank = '/' :: '/' :: rest) :
    Statement.dropBeforeComments (';' :: s) =
      ' ' :: '/' :: '/' :: Statement.dropBeforeComments rest := by
  rw [Statement.dropBeforeComments, if_pos rfl]
  split
  · rename_i rest' heq
    rw [h] at heq
    cases heq
    rfl
  · rename_i hno
    exact absurd h (hno rest)

theorem dropBeforeComments_not_opened {s : List Char}
    (h : ∀ rest, s.dropWhile isInlineBlank ≠ '/' :: '/' :: rest) :
    Statement.dropBeforeComments (';' :: s) = ';' :: Statement.dropBeforeComments s := by
  rw [Statement.dropBeforeComments, if_pos rfl]
  split
  · rename_i rest heq
    exact absurd heq (h rest)
  · rfl

/-- No comment opens at the seam of two texts that does not bring slashes together. -/
theorem not_opened {d : Char} {s t : List Char} (hs : SlashesApart (d :: s))
    (ht : s = [] → d = '/' → t.head? ≠ some '/') (rest : List Char) :
    d :: (s ++ t) ≠ '/' :: '/' :: rest := by
  intro heq
  simp only [List.cons.injEq] at heq
  obtain ⟨rfl, heq⟩ := heq
  cases s with
  | nil =>
      rw [List.nil_append] at heq
      exact ht rfl rfl (by rw [heq]; rfl)
  | cons e s =>
      simp only [List.cons_append, List.cons.injEq] at heq
      exact hs.not_pair ⟨s, by rw [heq.1]; rfl⟩

/-- No comment opens behind the blanks of a text that keeps slashes apart, up to the next line. -/
theorem dropWhile_not_opened {s tail : List Char} (hs : SlashesApart s)
    (htail : ∀ c ∈ tail.head?, c = '\n') :
    ∀ rest, (s ++ tail).dropWhile isInlineBlank ≠ '/' :: '/' :: rest := by
  intro rest heq
  obtain ⟨gap, behind, rfl, hgap, -, hhead⟩ := exists_inline_gap s
  have hbehind : SlashesApart behind := hs.right
  rw [List.append_assoc, List.dropWhile_append_of_pos hgap] at heq
  cases behind with
  | nil =>
      cases tail with
      | nil => simp at heq
      | cons c tail =>
          obtain rfl : c = '\n' := htail c rfl
          simp [isInlineBlank] at heq
  | cons c behind =>
      rw [List.cons_append, List.dropWhile_cons_of_neg (by simp [hhead c rfl])] at heq
      refine not_opened hbehind (fun _ _ hslash => ?_) rest heq
      exact absurd (htail '/' hslash) (by decide)

theorem dropBeforeComments_plain {s tail : List Char} (hs : SlashesApart s)
    (htail : ∀ c ∈ tail.head?, c = '\n') :
    Statement.dropBeforeComments (s ++ tail) = s ++ Statement.dropBeforeComments tail := by
  induction s with
  | nil => rfl
  | cons c s ih =>
      rw [List.cons_append, List.cons_append]
      by_cases hc : c = ';'
      · rw [hc, dropBeforeComments_not_opened (dropWhile_not_opened hs.tail htail), ih hs.tail]
      · rw [dropBeforeComments_cons hc, ih hs.tail]

/-- Only blanks of the line stand behind the last separator. -/
def EndsInSeparator (code : List Char) : Prop :=
  ∃ front gap, (∀ c ∈ gap, isInlineBlank c = true) ∧ code = front ++ ';' :: gap

theorem EndsInSeparator.of_cons {c : Char} {code : List Char}
    (hc : c = ';' → ∃ d ∈ code, isInlineBlank d = false) (h : EndsInSeparator (c :: code)) :
    EndsInSeparator code := by
  obtain ⟨front, gap, hgap, heq⟩ := h
  cases front with
  | nil =>
      simp only [List.nil_append, List.cons.injEq] at heq
      obtain ⟨d, hd, hblank⟩ := hc heq.1
      rw [hgap d (heq.2 ▸ hd)] at hblank
      cases hblank
  | cons e front =>
      simp only [List.cons_append, List.cons.injEq] at heq
      exact ⟨front, gap, hgap, heq.2⟩

/-- A separator is dropped if it stands right before the comment, and no other one is. -/
theorem dropBeforeComments_comment {code rest : List Char} (hopen : OpensComment code)
    (hrest : ';' ∉ rest) (tail : List Char) :
    ∃ code', Statement.dropBeforeComments (code ++ '/' :: '/' :: (rest ++ tail)) =
        code' ++ '/' :: '/' :: (rest ++ Statement.dropBeforeComments tail) ∧
      (code' = code ∧ ¬ EndsInSeparator code ∨ ∃ front gap, (∀ c ∈ gap, isBlank c = true) ∧
        code = front ++ ';' :: gap ∧ code' = front ++ [' ']) := by
  induction code with
  | nil =>
      refine ⟨[], ?_, .inl ⟨rfl, by simp [EndsInSeparator]⟩⟩
      simp only [List.nil_append]
      rw [dropBeforeComments_cons (by decide), dropBeforeComments_cons (by decide),
        dropBeforeComments_append hrest]
  | cons c code ih =>
      obtain ⟨code', hcode', hcases⟩ := ih hopen.tail
      have goesOn : Statement.dropBeforeComments (c :: (code ++ '/' :: '/' :: (rest ++ tail))) =
          c :: Statement.dropBeforeComments (code ++ '/' :: '/' :: (rest ++ tail)) →
          (c = ';' → ∃ d ∈ code, isInlineBlank d = false) →
          ∃ code'', Statement.dropBeforeComments (c :: code ++ '/' :: '/' :: (rest ++ tail)) =
              code'' ++ '/' :: '/' :: (rest ++ Statement.dropBeforeComments tail) ∧
            (code'' = c :: code ∧ ¬ EndsInSeparator (c :: code) ∨
              ∃ front gap, (∀ d ∈ gap, isBlank d = true) ∧
                c :: code = front ++ ';' :: gap ∧ code'' = front ++ [' ']) := by
        intro heq hc
        refine ⟨c :: code', by rw [List.cons_append, heq, hcode']; rfl, ?_⟩
        rcases hcases with ⟨rfl, hends⟩ | ⟨front, gap, hb, rfl, rfl⟩
        · exact .inl ⟨rfl, fun h => hends (h.of_cons hc)⟩
        · exact .inr ⟨c :: front, gap, hb, rfl, rfl⟩
      by_cases hc : c = ';'
      · obtain ⟨gap, behind, rfl, hgap, hblank, hhead⟩ := exists_inline_gap code
        subst hc
        cases behind with
        | nil =>
            refine ⟨[' '], ?_, .inr ⟨[], gap, hblank, by simp, rfl⟩⟩
            have hopened : (gap ++ '/' :: '/' :: (rest ++ tail)).dropWhile isInlineBlank =
                '/' :: '/' :: (rest ++ tail) := by
              rw [List.dropWhile_append_of_pos hgap]
              rfl
            rw [List.append_nil, List.cons_append, dropBeforeComments_opened hopened,
              dropBeforeComments_append hrest]
            rfl
        | cons d behind =>
            refine goesOn (dropBeforeComments_not_opened fun rest' heq => ?_)
              fun _ => ⟨d, by simp, hhead d rfl⟩
            have hopen' : OpensComment (d :: behind) := by
              have h := hopen
              rw [OpensComment, List.cons_append, List.append_assoc] at h
              exact h.tail.right
            rw [List.append_assoc, List.dropWhile_append_of_pos hgap, List.cons_append,
              List.dropWhile_cons_of_neg (by simp [hhead d rfl])] at heq
            refine not_opened hopen'.slashesApart (fun hnil hd => ?_) rest' heq
            rw [hnil, hd] at hopen'
            exact absurd ⟨[], rfl⟩ hopen'.not_pair
      · exact goesOn (dropBeforeComments_cons hc _) fun h => absurd h hc

theorem keepsRows_dropBeforeComments : KeepsRows Statement.dropBeforeComments := by
  refine .of_row (by rw [Statement.dropBeforeComments]) (dropBeforeComments_cons (by decide)) ?_
  rintro n ⟨code, body⟩ tail hs htail
  cases hs with
  | plain hline hrest =>
      simp only [lifted, Option.map_none, Option.getD_none, List.append_nil]
      cases hcut : Comment.cut code with
      | mk front rest =>
          cases rest with
          | none =>
              refine ⟨[⟨code, none⟩], by simp, .refl _, ?_⟩
              rw [dropBeforeComments_plain (Comment.cut_eq_none hcut).2 htail]
              simp [unlines_write_single, lifted]
          | some rest =>
              obtain ⟨rfl, hopen⟩ := Comment.cut_eq_some hcut
              have hblank := hrest front rest hcut
              have hrest : ';' ∉ rest := fun hmem => by simpa [isBlank] using hblank ';' hmem
              obtain ⟨front', heq, hcases⟩ := dropBeforeComments_comment hopen hrest tail
              refine ⟨[⟨front' ++ '/' :: '/' :: rest, none⟩], by simp, ?_, ?_⟩
              · rcases hcases with ⟨rfl, -⟩ | ⟨start, gap, hb, rfl, rfl⟩
                · exact .refl _
                · simpa using Keeps.space_at start ('/' :: '/' :: rest) hb
              · simpa [unlines_write_single, lifted] using heq
  | @comment _ b h =>
      have hmarker : Comment.marker.write n = '/' :: '/' :: '$' :: decimal n := by
        simp [Comment.marker, Marker.write]
      have hrest : ';' ∉ '$' :: decimal n := by
        have := not_mem_marker (n := n) (c := ';') rfl (by decide) (by decide)
        rw [hmarker] at this
        simp_all
      obtain ⟨code', heq, hcases⟩ := dropBeforeComments_comment h.opens hrest tail
      refine ⟨[⟨code', some b⟩], by simp, ?_, ?_⟩
      · rcases hcases with ⟨rfl, -⟩ | ⟨front, gap, hb, rfl, rfl⟩
        · exact .refl _
        · simpa using Keeps.space_at front [] hb
      · simpa [unlines_write_single, lifted, hmarker] using heq

theorem keepsRows_breakAtSeparators : KeepsRows Statement.breakAtSeparators := by
  refine .of_row (by rw [Statement.breakAtSeparators]) (breakAtSeparators_cons (by decide)) ?_
  rintro n ⟨code, body⟩ tail hs htail
  induction hk : code.length using Nat.strongRecOn generalizing code with
  | ind k ih =>
      by_cases hmem : ';' ∈ code
      · obtain ⟨front, rest, rfl, hfront⟩ := List.eq_append_cons_of_mem hmem
        obtain ⟨gap, behind, rfl, hgap, hblank, hhead⟩ := exists_inline_gap rest
        have hkeeps : Keeps [⟨front ++ ';' :: (gap ++ behind), body⟩]
            [⟨front, none⟩, ⟨behind, body⟩] :=
          Keeps.break_at.trans ((Keeps.drop_start hblank).cons _)
        have hsound : Sound ⟨behind, body⟩ := hkeeps.sound (by simpa using hs) _ (by simp)
        rw [breakAtSeparators_lifted hfront hgap hhead htail]
        by_cases hend : behind = [] ∧ body = none ∧ tail ≠ []
        · -- the line ends here already, and the separator brings no line of its own
          obtain ⟨rfl, rfl, hne⟩ := hend
          refine ⟨[⟨front, none⟩], by simp, hkeeps.trans ((Keeps.drop_blank (by simp)).cons _), ?_⟩
          cases tail with
          | nil => exact absurd rfl hne
          | cons c s =>
              obtain rfl : c = '\n' := htail c rfl
              rw [breakAtSeparators_cons (by decide), unlines_write_single]
              simp [lifted, Statement.skipLineFeed]
        · have hlt : behind.length < k := by
            rw [← hk]
            simp only [List.length_append, List.length_cons]
            omega
          obtain ⟨rows, hne, hk₂, hf⟩ := ih behind.length hlt behind hsound rfl
          have htail' : behind = [] → body = none → tail = [] := by
            intro hbehind hbody
            by_contra hne
            exact hend ⟨hbehind, hbody, hne⟩
          refine ⟨⟨front, none⟩ :: rows, by simp, hkeeps.trans (hk₂.cons _), ?_⟩
          rw [skipLineFeed_lifted hsound htail', hf, unlines_write_cons hne]
          simp [lifted, next]
      · refine ⟨[⟨code, body⟩], by simp, .refl _, ?_⟩
        rw [unlines_write_single]
        exact breakAtSeparators_append (not_mem_lifted hmem rfl (by decide) (by decide)) tail

end Row
end MiniScriptLayout
