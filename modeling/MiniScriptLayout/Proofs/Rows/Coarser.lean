import MiniScriptLayout.Proofs.Rows.Entry

/-!
Texts with more line ends than others. A line end that is added splits a statement, leaves a blank
line behind or ends a comment. The layout then has more lines or other comments, or it is the same.
-/

namespace MiniScriptLayout

open Text

namespace Comment

variable {comment : Option (List Char)} {ps qs : List (List Char)} {e : Entry} {es : List Entry}

/-- Pieces are taken up to one separator after the other. -/
theorem separator_induction {P : List (List Char) → Prop} (plain : ∀ ps, [';'] ∉ ps → P ps)
    (ends : ∀ front, [';'] ∉ front → P (front ++ [[';']]))
    (goesOn : ∀ front rest, [';'] ∉ front → rest ≠ [] → P rest → P (front ++ [';'] :: rest))
    (ps : List (List Char)) : P ps := by
  induction hn : ps.length using Nat.strongRecOn generalizing ps with
  | ind n ih =>
      by_cases hmem : [';'] ∈ ps
      · obtain ⟨front, rest, rfl, hfront⟩ := List.eq_append_cons_of_mem hmem
        by_cases hrest : rest = []
        · rw [hrest]
          exact ends front hfront
        · refine goesOn front rest hfront hrest (ih _ ?_ rest rfl)
          rw [← hn, List.length_append, List.length_cons]
          omega
      · exact plain ps hmem

theorem statements_separator (h : [';'] ∉ ps) (hqs : ¬ (qs = [] ∧ comment = none)) :
    statements comment (ps ++ [';'] :: qs) = (ps, none) :: statements comment qs := by
  rw [statements_append comment h, if_neg hqs]

theorem merged_append (hqs : qs ≠ []) (comment : Option (List Char)) :
    merged (ps ++ qs, comment) = (ps ++ (merged (qs, comment)).1, comment) := by
  cases comment with
  | none => rfl
  | some body =>
      have hlast : (ps ++ qs).getLast? = qs.getLast? := List.getLast?_append_of_ne_nil ps hqs
      simp only [merged, hlast]
      split
      · rw [List.dropLast_append_of_ne_nil hqs]
      · rfl

/-- A comment goes to the last statement before it. -/
theorem exists_statements_concat (ps : List (List Char)) :
    ∃ init last, statements none ps = init ++ [(last, none)] ∧
      ∀ body, statements (some body) (merged (ps, some body)).1 = init ++ [(last, some body)] := by
  induction ps using separator_induction with
  | plain ps h =>
      refine ⟨[], ps, statements_of_not_mem none h, fun body => ?_⟩
      have hmerged : (merged (ps, some body)).1 = ps :=
        if_neg fun hlast => h (List.mem_of_getLast? hlast)
      rw [hmerged, statements_of_not_mem _ h]
      rfl
  | ends front h =>
      refine ⟨[], front, ?_, fun body => ?_⟩
      · rw [statements_append none h, if_pos ⟨rfl, rfl⟩]
        rfl
      · have hmerged : (merged (front ++ [[';']], some body)).1 = front := by simp [merged]
        rw [hmerged, statements_of_not_mem _ h]
        rfl
  | goesOn front rest h hrest ih =>
      obtain ⟨init, last, hnone, hsome⟩ := ih
      refine ⟨(front, none) :: init, last, ?_, fun body => ?_⟩
      · rw [statements_separator h fun hnil => hrest hnil.1, hnone, List.cons_append]
      · have hmerged : (merged (front ++ [';'] :: rest, some body)).1 =
            front ++ [';'] :: (merged (rest, some body)).1 := by
          have hfront : front ++ [';'] :: rest = (front ++ [[';']]) ++ rest := by simp
          rw [hfront, merged_append hrest, List.append_assoc, List.singleton_append]
        rw [hmerged, statements_separator h (by simp), hsome, List.cons_append]

/-- Pieces behind others begin a statement, or they go on with the last one. -/
theorem statements_append_statements (hps : ps ≠ []) (hqs : ¬ (qs = [] ∧ comment = none))
    (h : statements comment qs = e :: es) :
    statements comment (ps ++ qs) = statements none ps ++ e :: es ∨
      ∃ init last, last ≠ [] ∧ statements none ps = init ++ [(last, none)] ∧
        statements comment (ps ++ qs) = init ++ (last ++ e.1, e.2) :: es := by
  induction ps using separator_induction with
  | plain ps hmem =>
      exact .inr ⟨[], ps, hps, statements_of_not_mem none hmem, statements_run hmem h⟩
  | ends front hfront =>
      refine .inl ?_
      rw [List.append_assoc, List.singleton_append, statements_separator hfront hqs,
        statements_append none hfront, if_pos ⟨rfl, rfl⟩, h]
      rfl
  | goesOn front rest hfront hrest ih =>
      have hne : ¬ (rest ++ qs = [] ∧ comment = none) := fun hnil =>
        hrest (List.append_eq_nil_iff.1 hnil.1).1
      rw [List.append_assoc, List.cons_append, statements_separator hfront hne,
        statements_separator hfront fun hnil => hrest hnil.1]
      rcases ih hrest with heq | ⟨init, last, hlast, hnone, heq⟩
      · exact .inl (congrArg ((front, none) :: ·) heq)
      · exact .inr ⟨(front, none) :: init, last, hlast, congrArg ((front, none) :: ·) hnone,
          congrArg ((front, none) :: ·) heq⟩

end Comment

namespace Entry

open Comment

/-- The number of characters in the comments of some entries that are no blanks. -/
def ink (es : List Entry) : Nat :=
  ((bodies es).flatMap squeeze).length

/-- The comments of `fs` take less text than those of `es`, or there are more of them. -/
def Freed (es fs : List Entry) : Prop :=
  ink fs < ink es ∨ ink fs = ink es ∧ (bodies es).length < (bodies fs).length

/-- There are more lines in `fs` than in `es`, or as many with other comments. -/
def Fewer (es fs : List Entry) : Prop :=
  (trimAll es).length < (trimAll fs).length ∨
    (trimAll es).length = (trimAll fs).length ∧ Freed es fs

/-- Whatever is around them, `fs` has more lines than `es`, or other comments, or is laid out
alike. -/
def Coarser (es fs : List Entry) : Prop :=
  ∀ before after, trimAll (before ++ (es ++ after)) = trimAll (before ++ (fs ++ after)) ∨
    Fewer (before ++ (es ++ after)) (before ++ (fs ++ after))

variable {e f : Entry} {es es' fs fs' gs : List Entry}

theorem ink_append (es fs : List Entry) : ink (es ++ fs) = ink es + ink fs := by
  rw [ink, bodies_append, List.flatMap_append, List.length_append]
  rfl

theorem ink_trimAll (es : List Entry) : ink (trimAll es) = ink es := by
  rw [ink, bodies_trimAll]
  rfl

theorem Fewer.trans (h : Fewer es fs) (k : Fewer fs gs) : Fewer es gs := by
  unfold Fewer Freed at *
  omega

theorem Fewer.congr (h : trimAll es = trimAll es') (k : trimAll fs = trimAll fs')
    (hless : Fewer es fs) : Fewer es' fs' := by
  unfold Fewer Freed at *
  rwa [← ink_trimAll es', ← ink_trimAll fs', ← bodies_trimAll es', ← bodies_trimAll fs', ← h, ← k,
    ink_trimAll, ink_trimAll, bodies_trimAll, bodies_trimAll]

theorem not_fewer (hlength : (trimAll es).length = (trimAll fs).length) (hink : ink es = ink fs)
    (hbodies : (bodies es).length = (bodies fs).length) : ¬ Fewer es fs := by
  unfold Fewer Freed
  omega

namespace Coarser

theorem refl (es : List Entry) : Coarser es es :=
  fun _ _ => .inl rfl

theorem eq_or_fewer (h : Coarser es fs) : trimAll es = trimAll fs ∨ Fewer es fs := by
  simpa using h [] []

theorem trans (h : Coarser es fs) (k : Coarser fs gs) : Coarser es gs := by
  intro before after
  rcases h before after with h | h
  · rcases k before after with k | k
    · exact .inl (h.trans k)
    · exact .inr (k.congr h.symm rfl)
  · rcases k before after with k | k
    · exact .inr (h.congr rfl k)
    · exact .inr (h.trans k)

theorem append_right (h : Coarser es fs) (gs : List Entry) : Coarser (es ++ gs) (fs ++ gs) := by
  intro before after
  rw [List.append_assoc, List.append_assoc]
  exact h before (gs ++ after)

theorem append_left (gs : List Entry) (h : Coarser es fs) : Coarser (gs ++ es) (gs ++ fs) := by
  intro before after
  have h := h (before ++ gs) after
  simpa using h

theorem append (h : Coarser es fs) (k : Coarser es' fs') : Coarser (es ++ es') (fs ++ fs') :=
  (h.append_right es').trans (k.append_left fs)

theorem flatMap {α : Type} {f g : α → List Entry} {items : List α}
    (h : ∀ a ∈ items, Coarser (f a) (g a)) : Coarser (items.flatMap f) (items.flatMap g) := by
  induction items with
  | nil => exact .refl []
  | cons a items ih =>
      rw [List.forall_mem_cons] at h
      exact h.1.append (ih h.2)

end Coarser

theorem rdropWhile_append_of_isBlank (es : List Entry) (h : ∀ e ∈ fs, isBlank e = true) :
    (es ++ fs).rdropWhile isBlank = es.rdropWhile isBlank := by
  rw [List.rdropWhile, List.rdropWhile, List.reverse_append, List.dropWhile_append_of_pos]
  simpa using h

theorem trimAll_append_of_isBlank (es : List Entry) (h : ∀ e ∈ fs, isBlank e = true) :
    trimAll (es ++ fs) = trimAll es := by
  rcases exists_around es with hes | ⟨before, e, after, rfl, he⟩
  · rw [trimAll_of_isBlank hes, trimAll_of_isBlank (List.forall_mem_append.2 ⟨hes, h⟩)]
  · rw [List.append_assoc, List.cons_append, trimAll_around he, trimAll_around he,
      rdropWhile_append_of_isBlank after h]

theorem trimAll_of_isBlank_append (h : ∀ e ∈ es, isBlank e = true) (fs : List Entry) :
    trimAll (es ++ fs) = trimAll fs := by
  rw [trimAll, trimAll, List.dropWhile_append_of_pos h]

theorem length_rdropWhile_append (es fs : List Entry) :
    (es.rdropWhile isBlank).length + (fs.rdropWhile isBlank).length ≤
      ((es ++ fs).rdropWhile isBlank).length := by
  rcases exists_around fs with h | ⟨before, e, after, rfl, he⟩
  · rw [rdropWhile_append_of_isBlank es h, List.rdropWhile_eq_nil_iff.2 h]
    simp
  · have hlength := (List.rdropWhile_prefix isBlank (l := es)).length_le
    rw [rdropWhile_around he, ← List.append_assoc, rdropWhile_around he]
    simp only [List.length_append]
    omega

/-- A line that is not blank may have other lines that are not blank behind it. -/
theorem length_trimAll_cons (he : isBlank e = false) (hf : isBlank f = false)
    (before es after : List Entry) :
    (trimAll (before ++ e :: after)).length + (es.rdropWhile isBlank).length ≤
      (trimAll (before ++ f :: (es ++ after))).length := by
  have hlength := length_rdropWhile_append es after
  rw [trimAll_around he, trimAll_around hf, List.length_append, List.length_append,
    List.length_cons, List.length_cons]
  omega

namespace Coarser

/-- A blank line that is added is lost only at an end of a text. -/
theorem blank : Coarser [] [([], none)] := by
  intro before after
  have hblank : ∀ e ∈ [(([], none) : Entry)], isBlank e = true := List.forall_mem_singleton.2 rfl
  rw [List.nil_append]
  rcases exists_around before with hbefore | ⟨front, e, middle, rfl, he⟩
  · refine .inl ?_
    rw [trimAll_of_isBlank_append hbefore, trimAll_of_isBlank_append hbefore,
      trimAll_of_isBlank_append hblank]
  · rcases exists_around after with hafter | ⟨middle', f, back, rfl, hf⟩
    · refine .inl ?_
      rw [← List.append_assoc, trimAll_append_of_isBlank _ hafter,
        trimAll_append_of_isBlank _ hafter, trimAll_append_of_isBlank _ hblank]
    · refine .inr (.inl ?_)
      rw [List.append_assoc, List.append_assoc, List.cons_append, List.cons_append,
        trimAll_around he, trimAll_around he, ← List.append_assoc middle, rdropWhile_around hf,
        ← List.append_assoc, ← List.append_assoc, rdropWhile_around hf]
      simp only [List.length_append, List.length_cons]
      omega

theorem append_blank (es : List Entry) : Coarser es (es ++ [([], none)]) := by
  have h := append_left es blank
  rwa [List.append_nil] at h

/-- A line is split in two. -/
theorem split (he : isBlank e = false) (hf : isBlank f = false)
    (hes : ∃ g ∈ es, isBlank g = false) : Coarser [e] (f :: es) := by
  intro before after
  obtain ⟨g, hg, hblank⟩ := hes
  have hlength := length_trimAll_cons he hf before es after
  have hne : es.rdropWhile isBlank ≠ [] := by
    rw [Ne, List.rdropWhile_eq_nil_iff]
    intro h
    rw [h g hg] at hblank
    cases hblank
  have hpos := List.length_pos_iff.2 hne
  refine .inr (.inl ?_)
  rw [List.singleton_append, List.cons_append]
  omega

/-- A comment ends. -/
theorem comment (he : isBlank e = false) (hf : isBlank f = false) (h : Freed [e] (f :: es)) :
    Coarser [e] (f :: es) := by
  intro before after
  have hlength := length_trimAll_cons he hf before es after
  refine .inr ?_
  have hink : ∀ gs, ink (before ++ (gs ++ after)) = ink before + (ink gs + ink after) := by
    intro gs
    rw [ink_append, ink_append]
  have hbodies : ∀ gs, (bodies (before ++ (gs ++ after))).length =
      (bodies before).length + ((bodies gs).length + (bodies after).length) := by
    intro gs
    rw [bodies_append, bodies_append, List.length_append, List.length_append]
  unfold Fewer Freed at *
  rw [hink, hink, hbodies, hbodies, List.singleton_append, List.cons_append]
  omega

end Coarser

variable {ps : List (List Char)} {body body' : List Char} {g : Entry}

/-- The entries of a line with a comment are those of its code, the last one with the comment. -/
theorem exists_entries_concat (ps : List (List Char)) :
    ∃ init last, entries (ps, none) = init ++ [(last, none)] ∧
      ∀ body, entries (ps, some body) =
        init ++ [(last, some (marked ps body))] := by
  obtain ⟨init, last, hnone, hsome⟩ := exists_statements_concat ps
  exact ⟨init, last, hnone, fun body => hsome _⟩

/-- The comment of a line counts with the pieces right before it. -/
theorem exists_entries_append (hg : g.1 ≠ []) :
    ∃ comment qs, ¬ (qs = [] ∧ comment = none) ∧ entries g = statements comment qs ∧
      ∀ ps, entries (ps ++ g.1, g.2) = statements comment (ps ++ qs) := by
  have hmark : ∀ ps, mark (ps ++ g.1, g.2) = (ps ++ g.1, (mark g).2) := by
    intro ps
    obtain ⟨qs, _ | body⟩ := g
    · rfl
    · have hempty : (ps ++ qs).isEmpty = qs.isEmpty := by
        rw [List.isEmpty_eq_false_iff.2 hg, List.isEmpty_eq_false_iff]
        exact fun h => hg (List.append_eq_nil_iff.1 h).2
      simp only [mark, marked, hempty]
  refine ⟨(mark g).2, (merged (g.1, (mark g).2)).1, ?_, ?_, fun ps => ?_⟩
  · rintro ⟨hnil, hnone⟩
    rw [hnone] at hnil
    exact hg hnil
  · have h := hmark []
    rw [List.nil_append] at h
    rw [entries, show mark g = (g.1, (mark g).2) from h, comment_merged]
  · rw [entries, hmark, merged_append hg]

theorem isBlank_of_comment (ps : List (List Char)) (body : List Char) :
    isBlank (ps, some body) = false := by
  simp [isBlank]

theorem isBlank_of_code (hps : ps ≠ []) (comment : Option (List Char)) :
    isBlank (ps, comment) = false := by
  simp [isBlank, hps]

/-- Only a comment without a body is not lifted. -/
theorem ink_comment (ps qs : List (List Char)) (body : List Char) :
    ink [(qs, some (marked ps body))] = (squeeze body).length := by
  unfold marked
  split
  · rename_i h
    rw [Bool.and_eq_true, List.isEmpty_iff] at h
    rw [h.1]
    rfl
  · simp [ink, bodies]

theorem ink_entries (g : Entry) :
    ink (entries g) = (g.2.map fun body => (squeeze body).length).getD 0 := by
  rw [ink, bodies_entries, ← bodies_singleton]
  obtain ⟨ps, _ | body⟩ := g
  · rfl
  · exact ink_comment ps ps body

/-- A comment that goes on behind a line end is cut there. -/
theorem coarser_comment (h : (squeeze body).length + ink (entries g) < (squeeze body').length)
    (ps : List (List Char)) :
    Coarser (entries (ps, some body')) (entries (ps, some body) ++ entries g) := by
  obtain ⟨init, last, -, hsome⟩ := exists_entries_concat ps
  rw [hsome, hsome, List.append_assoc]
  refine Coarser.append_left init (.comment (isBlank_of_comment _ _) (isBlank_of_comment _ _) ?_)
  have hink := ink_append [(last, some (marked ps body))] (entries g)
  rw [ink_comment] at hink
  refine .inl ?_
  rw [ink_comment]
  exact hink.trans_lt h

/-- A comment goes with the code before it, or it has a line for itself. -/
theorem coarser_append_comment (ps : List (List Char)) (body : List Char) :
    Coarser (entries (ps, some body)) (entries (ps, none) ++ entries ([], some body)) := by
  obtain ⟨init, last, hnone, hsome⟩ := exists_entries_concat ps
  have hline : entries ([], some body) = [([], some ('$' :: body))] := by
    simp [entries, mark, marked, merged, statements]
  rw [hnone, hsome, hline, List.append_assoc]
  refine Coarser.append_left init ?_
  by_cases hlast : last = []
  · subst hlast
    refine Coarser.trans ?_ (Coarser.blank.append_right [([], some ('$' :: body))])
    unfold marked
    split
    · rename_i h
      rw [Bool.and_eq_true, List.isEmpty_iff] at h
      rw [h.1]
      exact .comment (isBlank_of_comment _ _) (isBlank_of_comment _ _)
        (.inr ⟨rfl, Nat.zero_lt_one⟩)
    · exact .refl _
  · exact .split (isBlank_of_comment _ _) (isBlank_of_code hlast none)
      ⟨_, List.mem_singleton_self _, isBlank_of_comment _ _⟩

/-- Code that goes on behind a line end is split there, unless it is a statement of its own. -/
theorem coarser_append (ps : List (List Char)) (g : Entry) :
    Coarser (entries (ps ++ g.1, g.2)) (entries (ps, none) ++ entries g) := by
  by_cases hps : ps = []
  · subst hps
    exact Coarser.blank.append_right (entries g)
  by_cases hg : g.1 = []
  · obtain ⟨qs, comment⟩ := g
    obtain rfl : qs = [] := hg
    rw [List.append_nil]
    cases comment with
    | none => exact .append_blank (entries (ps, none))
    | some body => exact coarser_append_comment ps body
  · obtain ⟨comment, qs, hqs, hentries, happend⟩ := exists_entries_append hg
    obtain ⟨e, es, he⟩ := exists_statements_cons comment qs
    rw [happend, hentries, he]
    rcases statements_append_statements hps hqs he with heq | ⟨init, last, hlast, hnone, heq⟩
    · rw [heq]
      exact .refl _
    · rw [heq, show entries (ps, none) = init ++ [(last, none)] from hnone, List.append_assoc]
      refine Coarser.append_left init (@Coarser.append_right [_] [(last, none), e] ?_ es)
      cases hblank : isBlank e with
      | true =>
          rw [of_decide_eq_true hblank, List.append_nil]
          exact .append_blank [(last, none)]
      | false =>
          exact .split (isBlank_of_code (by simp [hlast]) e.2) (isBlank_of_code hlast none)
            ⟨e, List.mem_singleton_self e, hblank⟩

end Entry
end MiniScriptLayout
