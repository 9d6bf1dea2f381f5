import MiniScriptLayout.Proofs.Lifting.Comment

/-!
Breaking a line and writing it. A line breaks at its first `//`, however many follow, and a line
that was written breaks into the code and the comment that it was written from. Only code with a
line feed in it is not found again, as what holds it is no single line.
-/

namespace MiniScriptLayout

namespace Text

variable {c : Char} {s t : List Char}

theorem slashesApart_iff : SlashesApart s ↔ ¬ ['/', '/'] <:+: s := by
  constructor
  · rintro h ⟨before, after, rfl⟩
    rw [List.append_assoc] at h
    exact h.right.not_pair ⟨after, rfl⟩
  · intro h
    induction s with
    | nil => exact List.isChain_nil
    | cons c s ih =>
        rw [SlashesApart, apart_cons]
        refine ⟨?_, ih fun hs => h (hs.trans (List.suffix_cons c s).isInfix)⟩
        intro d hd hc
        simp only [decide_eq_true_eq, decide_eq_false_iff_not] at hc ⊢
        rintro rfl
        obtain ⟨rest, rfl⟩ := List.head?_eq_some_iff.1 hd
        exact h ⟨[], rest, by rw [hc]; rfl⟩

/-- What ends in something other than a blank is not trimmed on the right. -/
theorem trimRight_append_eq_self (hne : t ≠ []) (h : ∀ c ∈ t.getLast?, isBlank c = false)
    (s : List Char) : trimRight (s ++ t) = s ++ t :=
  trimRight_eq_self (by rwa [List.getLast?_append_of_ne_nil s hne])

theorem trim_trimRight (s : List Char) : trim (trimRight s) = trim s := by
  obtain ⟨gap, hgap, hs⟩ := exists_trimRight_blanks s
  have hgaps : trim ([] ++ trimRight s ++ gap) = trim (trimRight s) := trim_gaps (by simp) hgap
  rw [List.nil_append, ← hs] at hgaps
  exact hgaps.symm

theorem trimLeft_ne_nil (hne : s ≠ []) (h : ∀ c ∈ s.getLast?, isBlank c = false) :
    trimLeft s ≠ [] := by
  intro hnil
  have hlast := h _ (List.getLast?_eq_getLast_of_ne_nil hne)
  rw [trimLeft_eq_nil.1 hnil _ (List.getLast_mem hne)] at hlast
  cases hlast

theorem trimLeft_append (h : trimLeft s ≠ []) : trimLeft (s ++ t) = trimLeft s ++ t := by
  rw [trimLeft, List.dropWhile_append, if_neg (by simpa [trimLeft] using h)]
  rfl

theorem isBlank_of_indent (h : ∀ c ∈ s, c = ' ' ∨ c = '\t') : ∀ c ∈ s, isBlank c = true := by
  intro c hc
  rcases h c hc with rfl | rfl <;> rfl

end Text

namespace CodeLine

open Text Comment

variable {line before after code comment indentation tail : List Char}

/-- A line breaks at its first `//`. -/
theorem ofText_opener (h : '\n' ∉ before ++ '/' :: '/' :: after)
    (hfirst : ¬ ['/', '/'] <:+: before ++ ['/']) :
    ofText (before ++ '/' :: '/' :: after) = ⟨trim before, trimRight after⟩ := by
  have hopens : OpensComment before := slashesApart_iff.2 hfirst
  rw [ofText_eq h, cut_append hopens]
  rfl

/-- A line without `//` is code. -/
theorem ofText_plain (h : '\n' ∉ line) (hplain : ¬ ['/', '/'] <:+: line) :
    ofText line = ⟨trim line, []⟩ := by
  rw [ofText_eq h, cut_of_slashesApart (slashesApart_iff.2 hplain)]
  rfl

section Render

/-- What a written line has before its `//`. -/
def front (indentation code : List Char) : List Char :=
  if code = [] then indentation else indentation ++ code ++ [' ']

theorem render_comment (hcomment : ∀ c ∈ comment.getLast?, isBlank c = false)
    (hne : comment ≠ []) :
    render indentation ⟨code, comment⟩ = front indentation code ++ '/' :: '/' :: comment := by
  have hlast : ∀ c ∈ ('/' :: '/' :: comment).getLast?, isBlank c = false := by
    rwa [List.getLast?_cons_of_ne_nil (List.cons_ne_nil _ _), List.getLast?_cons_of_ne_nil hne]
  have hwhole (s : List Char) := trimRight_append_eq_self (List.cons_ne_nil _ _) hlast s
  by_cases hcode : code = []
  · simp [render, front, hne, hcode, hwhole]
  · have hspaced := hwhole (indentation ++ code ++ [' '])
    simp only [List.append_assoc, List.singleton_append] at hspaced
    simp [render, front, hne, hcode, hspaced]

variable (hcode : trim code = code) (hplain : SlashesApart code)
  (hindent : ∀ c ∈ indentation, isBlank c = true)

include hcode hindent in
theorem trim_front : trim (front indentation code) = code := by
  unfold front
  split
  · rename_i hnil
    rw [trim_eq_nil.2 hindent, hnil]
  · rw [trim_gaps hindent (List.forall_mem_singleton.2 rfl), hcode]

include hplain hindent in
theorem slashesApart_indent : SlashesApart (indentation ++ code) := by
  refine SlashesApart.append (.of_not_mem fun h => ?_) hplain (.inl fun h => ?_)
  · exact ne_slash_of_isBlank (hindent _ h) rfl
  · exact ne_slash_of_isBlank (hindent _ (List.mem_of_getLast? h)) rfl

include hplain hindent in
/-- The `//` of a written line is its first one, also if the code ends in a slash. -/
theorem opensComment_front : OpensComment (front indentation code) := by
  have hindented := slashesApart_indent hplain hindent
  unfold front
  split
  · refine hindented.left.opensComment fun h => ?_
    exact ne_slash_of_isBlank (hindent _ (List.mem_of_getLast? h)) rfl
  · rw [OpensComment, List.append_assoc]
    exact (SlashesApart.append_cons_iff (by decide)).2 ⟨hindented, List.isChain_singleton '/'⟩

include hcode hplain hindent in
/-- A written line breaks into what it was written from. -/
theorem ofText_render (hcomment : ∀ c ∈ comment.getLast?, isBlank c = false)
    (hfeed : '\n' ∉ indentation ++ code ++ comment) :
    ofText (render indentation ⟨code, comment⟩) = ⟨code, comment⟩ := by
  rw [List.mem_append, not_or] at hfeed
  by_cases hne : comment = []
  · subst hne
    have hrender : render indentation ⟨code, []⟩ = trimRight (indentation ++ code) := rfl
    obtain ⟨gap, -, hline⟩ := exists_trimRight_blanks (indentation ++ code)
    have hapart := slashesApart_indent hplain hindent
    rw [hline] at hapart
    have hline : '\n' ∉ trimRight (indentation ++ code) :=
      fun hmem => hfeed.1 ((trimRight_sublist _).subset hmem)
    rw [hrender, ofText_plain hline (slashesApart_iff.1 hapart.left), trim_trimRight,
      ← List.append_nil (indentation ++ code), trim_gaps hindent (by simp), hcode]
  · have hline : '\n' ∉ front indentation code ++ '/' :: '/' :: comment := by
      unfold front
      split <;> simp_all
    rw [render_comment hcomment hne, ofText_eq hline,
      cut_append (opensComment_front hplain hindent), trim_front hcode hindent, Option.getD_some,
      trimRight_eq_self hcomment]

end Render

section LineFeed

variable (hfeed : '\n' ∈ code) (hlast : ∀ c ∈ code.getLast?, isBlank c = false)
  (hplain : SlashesApart code) (htail : tail.head? ≠ some '/')

include hfeed hlast hplain htail in
/-- Neither an end nor a `//` comes before the line feed, with nothing but blanks between. -/
theorem cut?_eq_none : cut? (code ++ tail) = none := by
  induction code with
  | nil => cases hfeed
  | cons c code ih =>
      obtain ⟨d, rest, hd⟩ :=
        List.exists_cons_of_ne_nil (trimLeft_ne_nil (List.cons_ne_nil c code) hlast)
      have happend : trimLeft (c :: code ++ tail) = d :: (rest ++ tail) := by
        rw [trimLeft_append (by simp [hd]), hd]
        rfl
      have hsuffix : SlashesApart (d :: rest) := by
        obtain ⟨gap, -, hcode⟩ := exists_blanks_trimLeft (c :: code)
        rw [hcode, hd] at hplain
        exact hplain.right
      have hopener : ∀ r, d :: (rest ++ tail) ≠ '/' :: '/' :: r := by
        intro r h
        obtain ⟨rfl, hrest⟩ := List.cons.inj h
        cases rest with
        | nil => exact htail (by rw [← List.nil_append tail, hrest]; rfl)
        | cons e rest =>
            obtain ⟨rfl, -⟩ := List.cons.inj hrest
            exact hsuffix.not_pair ⟨rest, rfl⟩
      rw [List.cons_append] at happend ⊢
      unfold cut?
      split
      · rename_i hnil
        rw [happend] at hnil
        cases hnil
      · rename_i r hr
        rw [happend] at hr
        exact absurd hr (hopener r)
      · rw [cut?.longer]
        split
        · rfl
        · rename_i hc
          have hbehind : '\n' ∈ code := (List.mem_cons.1 hfeed).resolve_left (Ne.symm hc)
          rw [List.getLast?_cons_of_ne_nil (List.ne_nil_of_mem hbehind)] at hlast
          rw [ih hbehind hlast hplain.tail, Option.map_none]

include hfeed hplain in
/-- Code with a line feed is written to what is no single line, and stays together with its
indentation and its comment. -/
theorem ofText_render_of_lineFeed (hcode : trim code = code)
    (hindent : ∀ c ∈ indentation, isBlank c = true)
    (hcomment : ∀ c ∈ comment.getLast?, isBlank c = false) :
    ofText (render indentation ⟨code, comment⟩) =
      ⟨render indentation ⟨code, comment⟩, []⟩ := by
  have hne : code ≠ [] := List.ne_nil_of_mem hfeed
  obtain ⟨hhead, hlast⟩ := trim_eq_self_iff.1 hcode
  obtain ⟨tail, htail, hrender⟩ : ∃ tail : List Char, tail.head? ≠ some '/' ∧
      render indentation ⟨code, comment⟩ = indentation ++ (code ++ tail) := by
    by_cases hempty : comment = []
    · refine ⟨[], by simp, ?_⟩
      subst hempty
      rw [List.append_nil]
      exact trimRight_append_eq_self hne hlast indentation
    · refine ⟨' ' :: '/' :: '/' :: comment, by simp, ?_⟩
      rw [render_comment hcomment hempty, front, if_neg hne]
      simp
  have hhead : ∀ c ∈ (code ++ tail).head?, isBlank c = false := by
    rwa [List.head?_append_of_ne_nil code hne]
  rw [ofText, hrender, trimLeft_blanks_append hindent, trimLeft_eq_self hhead,
    cut?_eq_none hfeed hlast hplain htail, Option.getD_none]

end LineFeed

/-- A line breaks at its first `//` into trimmed code and what follows. A line that was written from
trimmed code without `//` and a comment that ends in no blank breaks into these again, if the code
has no line feed or nothing was written beside it. -/
theorem ofText_render_iff :
    (∀ line, '\n' ∉ line → ¬ ['/', '/'] <:+: line → ofText line = ⟨trim line, []⟩) ∧
    (∀ before after, '\n' ∉ before ++ '/' :: '/' :: after → ¬ ['/', '/'] <:+: before ++ ['/'] →
      ofText (before ++ '/' :: '/' :: after) = ⟨trim before, trimRight after⟩) ∧
    ∀ code comment indentation, trim code = code → ¬ ['/', '/'] <:+: code → '\n' ∉ comment →
      (∀ c ∈ comment.getLast?, isBlank c = false) → (∀ c ∈ indentation, c = ' ' ∨ c = '\t') →
      (ofText (render indentation ⟨code, comment⟩) = ⟨code, comment⟩ ↔
        '\n' ∉ code ∨ comment = [] ∧ indentation = []) := by
  refine ⟨fun line => ofText_plain, fun before after => ofText_opener, ?_⟩
  intro code comment indentation hcode hplain hfeed hcomment hspaces
  have hindent := isBlank_of_indent hspaces
  rw [← slashesApart_iff] at hplain
  by_cases hmem : '\n' ∈ code
  · rw [ofText_render_of_lineFeed hmem hplain hcode hindent hcomment, CodeLine.mk.injEq]
    constructor
    · rintro ⟨hrender, rfl⟩
      have hwritten := trimRight_append_eq_self (List.ne_nil_of_mem hmem)
        (trim_eq_self_iff.1 hcode).2 indentation
      exact .inr ⟨rfl, List.append_left_eq_self.1 (hwritten.symm.trans hrender)⟩
    · rintro (hnone | ⟨rfl, rfl⟩)
      · exact absurd hmem hnone
      · exact ⟨trimRight_eq_self (trim_eq_self_iff.1 hcode).2, rfl⟩
  · have hspace : '\n' ∉ indentation := fun h => by rcases hspaces _ h with h | h <;> cases h
    exact iff_of_true (ofText_render hcode hplain hindent hcomment (by simp [hspace, hmem, hfeed]))
      (.inl hmem)

/-- Slashes at the end of the code and in the comment are found where they were. -/
theorem ofText_render_iff_slashes :
    ofText (render ['\t'] ⟨['a', ' ', '/'], ['b', '/', '/', 'c']⟩) =
      ⟨['a', ' ', '/'], ['b', '/', '/', 'c']⟩ :=
  (ofText_render_iff.2.2 ['a', ' ', '/'] ['b', '/', '/', 'c'] ['\t'] (by decide) (by decide)
    (by decide) (by rintro c ⟨⟩; rfl) (List.forall_mem_singleton.2 (.inr rfl))).2
    (.inl (by decide))

/-- Code of two lines keeps the indentation. -/
theorem ofText_render_lineFeed :
    trim ['a', '\n', 'b'] = ['a', '\n', 'b'] ∧ ¬ ['/', '/'] <:+: ['a', '\n', 'b'] ∧
      ofText (render [' '] ⟨['a', '\n', 'b'], []⟩) ≠ ⟨['a', '\n', 'b'], []⟩ := by
  have hbroken : ofText (render [' '] ⟨['a', '\n', 'b'], []⟩) = ⟨[' ', 'a', '\n', 'b'], []⟩ := by
    cbv
  rw [hbroken]
  decide

end CodeLine
end MiniScriptLayout
