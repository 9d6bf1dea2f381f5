import MiniScriptLayout.Proofs.Rows.Gist

/-!
Breaking a text into statements goes by the gists of its lines. A separator right before a comment
is dropped from the gist of its line; the pieces between the other separators make the gists of the
statements.
-/

namespace MiniScriptLayout

namespace Text

theorem mem_trimRight {s : List Char} {c : Char} (h : c ∈ s) (hc : isBlank c = false) :
    c ∈ trimRight s := by
  obtain ⟨gap, hb, hs⟩ := exists_trimRight_blanks s
  rw [hs, List.mem_append] at h
  refine h.resolve_right fun hmem => ?_
  rw [hb c hmem] at hc
  cases hc

end Text

namespace Comment

open Text

variable {line : List Char} {ls ms : List (List Char)}

/-- A line whose comment holds no separator. -/
structure Quiet (line : List Char) : Prop where
  feed : '\n' ∉ line
  comment : ∀ b ∈ (gist line).2, ';' ∉ b

/-- The gist of a line without the separator right before its comment. -/
def merged : List (List Char) × Option (List Char) → List (List Char) × Option (List Char)
  | (ps, none) => (ps, none)
  | (ps, some body) => (if ps.getLast? = some [';'] then ps.dropLast else ps, some body)

/-- The gists of the statements in some pieces that a comment follows. What is left behind the last
separator is no statement, unless it is a comment. -/
def statements (comment : Option (List Char)) :
    List (List Char) → List (List (List Char) × Option (List Char))
  | [] => [([], comment)]
  | p :: ps =>
    if p = [';'] then ([], none) :: if ps = [] ∧ comment = none then [] else statements comment ps
    else
      match statements comment ps with
      | [] => [([p], comment)]
      | g :: gs => (p :: g.1, g.2) :: gs

/-- What holds no separator goes to the first statement behind it. -/
theorem statements_run {comment : Option (List Char)} {ps qs : List (List Char)}
    {g : List (List Char) × Option (List Char)} {gs : List (List (List Char) × Option (List Char))}
    (h : [';'] ∉ ps) (hqs : statements comment qs = g :: gs) :
    statements comment (ps ++ qs) = (ps ++ g.1, g.2) :: gs := by
  induction ps with
  | nil => exact hqs
  | cons p ps ih =>
      rw [List.mem_cons, not_or] at h
      rw [List.cons_append, statements, if_neg (Ne.symm h.1), ih h.2]
      rfl

theorem statements_of_not_mem (comment : Option (List Char)) {ps : List (List Char)}
    (h : [';'] ∉ ps) : statements comment ps = [(ps, comment)] := by
  have hrun := statements_run h (show statements comment [] = [([], comment)] from rfl)
  rwa [List.append_nil] at hrun

theorem statements_append (comment : Option (List Char)) {ps : List (List Char)}
    (h : [';'] ∉ ps) (qs : List (List Char)) :
    statements comment (ps ++ [';'] :: qs) =
      (ps, none) :: if qs = [] ∧ comment = none then [] else statements comment qs := by
  rw [statements_run h (by rw [statements, if_pos rfl]), List.append_nil]

theorem separator_mem_pieces {s : List Char} (h : [';'] ∈ View.pieces.tokens s) : ';' ∈ s := by
  have hmem : ';' ∈ (View.pieces.tokens s).flatten := List.mem_flatten.2 ⟨_, h, by simp⟩
  rw [View.flatten_pieces] at hmem
  exact List.mem_of_mem_filter hmem

theorem pieces_separator (front rest : List Char) :
    View.pieces.tokens (front ++ ';' :: rest) =
      View.pieces.tokens front ++ [';'] :: View.pieces.tokens rest := by
  rw [View.tokens_append rfl]
  rfl

/-- The last piece is a separator only if the text ends in it. -/
theorem endsInSeparator_of_getLast? {code : List Char} (hline : '\n' ∉ code)
    (h : (View.pieces.tokens code).getLast? = some [';']) : Row.EndsInSeparator code := by
  obtain ⟨gap, hb, hcode⟩ := exists_trimRight_blanks code
  obtain ⟨init, hinit⟩ := List.getLast?_eq_some_iff.1 h
  have hsqueeze : (Text.squeeze code).getLast? = some ';' := by
    rw [← View.flatten_pieces, hinit]
    simp
  have hgap : ∀ c ∈ gap, isInlineBlank c = true := by
    intro c hc
    have hfeed : c ≠ '\n' := by
      rintro rfl
      exact hline (hcode ▸ List.mem_append_right _ hc)
    simp [isInlineBlank, hb c hc, hfeed]
  have hne : trimRight code ≠ [] := by
    intro hnil
    have hblank := trimRight_eq_nil.1 hnil
    have hnone : Text.squeeze code = [] := by simpa [Text.squeeze] using hblank
    rw [hnone] at hsqueeze
    cases hsqueeze
  obtain ⟨c, hc⟩ := Option.isSome_iff_exists.1 (List.getLast?_isSome.2 hne)
  have hlast := getLast?_squeeze hc (getLast?_trimRight code c hc)
  rw [squeeze_trimRight, hsqueeze, Option.some.injEq] at hlast
  obtain ⟨front, hfront⟩ := List.getLast?_eq_some_iff.1 hc
  refine ⟨front, gap, hgap, ?_⟩
  rw [hcode, hfront, ← hlast]
  simp

theorem Quiet.not_mem_comment (h : Quiet line) {code rest : List Char}
    (hcut : cut line = (code, some rest)) : ';' ∉ rest := by
  intro hmem
  have hgist : trimRight rest ∈ (gist line).2 := by simp [gist_eq, hcut]
  exact h.comment _ hgist (mem_trimRight hmem rfl)

theorem gist_comment {code : List Char} (h : OpensComment code) (rest : List Char) :
    gist (code ++ '/' :: '/' :: rest) = (View.pieces.tokens code, some (trimRight rest)) := by
  rw [gist_eq, cut_append h]
  rfl

theorem gist_of_slashesApart (h : SlashesApart line) :
    gist line = (View.pieces.tokens line, none) := by
  rw [gist_eq, cut_of_slashesApart h]
  rfl

theorem gist_dropBeforeComments (h : Quiet line) :
    gist (Statement.dropBeforeComments line) = merged (gist line) := by
  have hnil : Statement.dropBeforeComments [] = [] := by rw [Statement.dropBeforeComments]
  cases hcut : cut line with
  | mk code rest =>
      cases rest with
      | none =>
          obtain ⟨rfl, hapart⟩ := cut_eq_none hcut
          have hend : ∀ c ∈ ([] : List Char).head?, c = '\n' := by simp
          have hdrop := Row.dropBeforeComments_plain hapart hend
          rw [List.append_nil, hnil, List.append_nil] at hdrop
          rw [hdrop, gist_of_slashesApart hapart]
          rfl
      | some rest =>
          have hrest := h.not_mem_comment hcut
          obtain ⟨rfl, hopen⟩ := cut_eq_some hcut
          obtain ⟨code', hdrop, hcases⟩ := Row.dropBeforeComments_comment hopen hrest []
          rw [hnil, List.append_nil] at hdrop
          rw [hdrop, gist_comment hopen, merged]
          rcases hcases with ⟨rfl, hends⟩ | ⟨front, gap, hb, rfl, rfl⟩
          · have hcode : '\n' ∉ code' := fun hmem => h.feed (List.mem_append_left _ hmem)
            rw [gist_comment hopen,
              if_neg fun hlast => hends (endsInSeparator_of_getLast? hcode hlast)]
          · have hfront : SlashesApart front := hopen.slashesApart.left
            have hspace : OpensComment (front ++ [' ']) := by
              rw [OpensComment, List.append_assoc]
              exact (SlashesApart.append_cons_iff (by decide)).2 ⟨hfront, opensComment_nil⟩
            have hgap : View.pieces.tokens gap = [] := View.pieces_eq_nil.2 hb
            have hspaced : View.pieces.tokens (front ++ [' ']) = View.pieces.tokens front :=
              (View.Same.append_skips front (List.forall_mem_singleton.2 (View.skips_blank rfl))).1
            rw [gist_comment hspace, pieces_separator, hgap, hspaced]
            simp

theorem comment_merged (g : List (List Char) × Option (List Char)) : (merged g).2 = g.2 := by
  obtain ⟨ps, _ | body⟩ := g <;> rfl

theorem mem_of_mem_dropBeforeComments {s : List Char} {c : Char}
    (h : c ∈ Statement.dropBeforeComments s) : c ∈ s ∨ c = ' ' := by
  fun_induction Statement.dropBeforeComments s with
  | case1 => cases h
  | case2 r rest hr ih =>
      have hsub : ∀ d ∈ '/' :: '/' :: rest, d ∈ r := by
        rw [← hr]
        exact fun d hd => (List.dropWhile_sublist _).subset hd
      simp only [List.mem_cons] at h hsub ⊢
      rcases h with h | h | h | h
      · exact .inr h
      · exact .inl (.inr (hsub c (.inl h)))
      · exact .inl (.inr (hsub c (.inl h)))
      · exact (ih h).imp_left fun hd => .inr (hsub c (.inr (.inr hd)))
  | case3 r _ ih | case4 d r _ ih =>
      rcases List.mem_cons.1 h with rfl | h
      · exact .inl List.mem_cons_self
      · exact (ih h).imp_left (List.mem_cons_of_mem _)

theorem Quiet.dropBeforeComments (h : Quiet line) : Quiet (Statement.dropBeforeComments line) where
  feed := by
    intro hmem
    exact (mem_of_mem_dropBeforeComments hmem).elim h.feed (by decide)
  comment := by
    rw [gist_dropBeforeComments h, comment_merged]
    exact h.comment

/-- Code stands before a separator. -/
theorem Quiet.slashesApart {front rest : List Char} (h : Quiet (front ++ ';' :: rest)) :
    SlashesApart front := by
  cases hcut : cut front with
  | mk code body =>
      cases body with
      | none => exact (cut_eq_none hcut).2
      | some body =>
          obtain ⟨rfl, hopen⟩ := cut_eq_some hcut
          have hline := cut_append hopen (body ++ ';' :: rest)
          have hassoc : code ++ '/' :: '/' :: body ++ ';' :: rest =
              code ++ '/' :: '/' :: (body ++ ';' :: rest) := by simp
          rw [← hassoc] at hline
          exact absurd (List.mem_append_right body List.mem_cons_self) (h.not_mem_comment hline)

theorem gist_separator {front gap : List Char} (hfront : SlashesApart front)
    (hgap : ∀ c ∈ gap, isBlank c = true) (behind : List Char) :
    gist (front ++ ';' :: (gap ++ behind)) =
      (View.pieces.tokens front ++ [';'] :: (gist behind).1, (gist behind).2) := by
  rw [gist_eq, gist_eq, cut_append_cons hfront (by decide), cut_blanks_append hgap,
    pieces_separator, View.tokens_blanks_append hgap]

/-- A line is broken into some lines. If it ends in a separator, that takes the line feed behind it,
and stands for one itself at the end of a text. -/
structure Breaks (line : List Char) (ps : List (List Char)) : Prop where
  ne_nil : ps ≠ []
  feed : ∀ p ∈ ps, '\n' ∉ p
  goesOn : ∀ t, Statement.breakAtSeparators (line ++ '\n' :: t) =
    unlines ps ++ '\n' :: Statement.breakAtSeparators t
  ends : Statement.breakAtSeparators line = unlines ps ∨
    Statement.breakAtSeparators line = unlines (ps ++ [[]])

namespace Breaks

variable {front gap behind : List Char} {ps : List (List Char)}

theorem plain (hfeed : '\n' ∉ line) (h : ';' ∉ line) : Breaks line [line] where
  ne_nil := List.cons_ne_nil line []
  feed := List.forall_mem_singleton.2 hfeed
  goesOn t := by
    rw [Row.breakAtSeparators_append h, Row.breakAtSeparators_cons (by decide)]
    rfl
  ends := by
    have hbreak := Row.breakAtSeparators_append h []
    have hnil : Statement.breakAtSeparators [] = [] := by rw [Statement.breakAtSeparators]
    rw [hnil, List.append_nil] at hbreak
    exact .inl hbreak

theorem separator_last (hfeed : '\n' ∉ front) (hfront : ';' ∉ front)
    (hgap : ∀ c ∈ gap, isInlineBlank c = true) : Breaks (front ++ ';' :: gap) [front] where
  ne_nil := List.cons_ne_nil front []
  feed := List.forall_mem_singleton.2 hfeed
  goesOn t := by
    have hline : ∀ c ∈ ('\n' :: t).head?, isInlineBlank c = false := by simp [isInlineBlank]
    have hbreak := Row.breakAtSeparators_separator hfront hgap hline
    rw [List.append_assoc, List.cons_append, hbreak]
    rfl
  ends := by
    have hbreak := Row.breakAtSeparators_separator (s := []) hfront hgap (by simp)
    have hnil : Statement.breakAtSeparators [] = [] := by rw [Statement.breakAtSeparators]
    rw [List.append_nil, Row.skipLineFeed_of_head? (by simp), hnil] at hbreak
    exact .inr hbreak

theorem separator (h : Breaks behind ps) (hfeed : '\n' ∉ front) (hfront : ';' ∉ front)
    (hgap : ∀ c ∈ gap, isInlineBlank c = true) {c : Char} (hc : isBlank c = false)
    (hhead : behind.head? = some c) : Breaks (front ++ ';' :: (gap ++ behind)) (front :: ps) := by
  have hbreak : ∀ s, Statement.breakAtSeparators (front ++ ';' :: (gap ++ (behind ++ s))) =
      front ++ '\n' :: Statement.breakAtSeparators (behind ++ s) := by
    intro s
    have hstart : (behind ++ s).head? = some c := by rw [List.head?_append, hhead, Option.some_or]
    rw [Row.breakAtSeparators_separator hfront hgap, Row.skipLineFeed_of_head?]
    · rw [hstart]
      rintro ⟨rfl⟩
      cases hc
    · rw [hstart]
      rintro d ⟨rfl⟩
      simp [isInlineBlank, hc]
  refine ⟨List.cons_ne_nil front ps, List.forall_mem_cons.2 ⟨hfeed, h.feed⟩, fun t => ?_, ?_⟩
  · have hline := hbreak ('\n' :: t)
    rw [h.goesOn] at hline
    rw [unlines_cons front h.ne_nil]
    simpa using hline
  · have hline := hbreak []
    rw [List.append_nil] at hline
    rw [hline, List.cons_append, unlines_cons front h.ne_nil, unlines_cons front (by simp)]
    exact h.ends.imp (congrArg (front ++ '\n' :: ·)) (congrArg (front ++ '\n' :: ·))

end Breaks

/-- Something stands on a line that begins with no blank. -/
theorem gist_cons_ne {c : Char} (hc : isBlank c = false) (behind : List Char) :
    ¬ ((gist (c :: behind)).1 = [] ∧ (gist (c :: behind)).2 = none) := by
  intro hnil
  have hline := isBlankLine_gist (c :: behind)
  rw [decide_eq_true (Prod.ext hnil.1 hnil.2), isBlankLine_iff] at hline
  rw [hline c List.mem_cons_self] at hc
  cases hc

theorem exists_breaks (h : Quiet line) :
    ∃ ps, Breaks line ps ∧ ps.map gist = statements (gist line).2 (gist line).1 := by
  induction hn : line.length using Nat.strongRecOn generalizing line with
  | ind n ih =>
      by_cases hmem : ';' ∈ line
      · obtain ⟨front, rest, rfl, hfront⟩ := List.eq_append_cons_of_mem hmem
        obtain ⟨gap, behind, rfl, hgap, hblank, hhead⟩ := Row.exists_inline_gap rest
        have hapart := h.slashesApart
        have hgist := gist_separator hapart hblank behind
        have hpieces : [';'] ∉ View.pieces.tokens front := fun hmem =>
          hfront (separator_mem_pieces hmem)
        have hfeed : '\n' ∉ front ∧ '\n' ∉ behind := by
          have := h.feed
          simp only [List.mem_append, List.mem_cons, not_or] at this
          exact ⟨this.1, this.2.2.2⟩
        have hcomment := h.comment
        rw [hgist] at hcomment ⊢
        rw [statements_append _ hpieces]
        cases behind with
        | nil =>
            refine ⟨[front], ?_, ?_⟩
            · rw [List.append_nil]
              exact .separator_last hfeed.1 hfront hgap
            · rw [List.map_singleton, gist_of_slashesApart hapart]
              rfl
        | cons c behind =>
            have hc : isBlank c = false := by
              have hne : c ≠ '\n' := fun heq => hfeed.2 (heq ▸ List.mem_cons_self)
              simpa [isInlineBlank, hne] using hhead c rfl
            have hlength : (c :: behind).length < n := by
              rw [← hn]
              simp
              omega
            obtain ⟨ps, hbreaks, hmap⟩ := ih _ hlength ⟨hfeed.2, hcomment⟩ rfl
            have hsome := gist_cons_ne hc behind
            refine ⟨front :: ps, hbreaks.separator hfeed.1 hfront hgap hc rfl, ?_⟩
            rw [List.map_cons, gist_of_slashesApart hapart, hmap, if_neg hsome]
      · have hpieces : [';'] ∉ (gist line).1 := by
          rw [gist_eq]
          intro hp
          exact hmem ((Row.isPrefix_front ⟨line, none⟩).subset (separator_mem_pieces hp))
        refine ⟨[line], .plain h.feed hmem, ?_⟩
        rw [statements_of_not_mem _ hpieces]
        rfl

theorem exists_breakAll (hne : ls ≠ []) (h : ∀ l ∈ ls, Quiet l) :
    ∃ ms, ms ≠ [] ∧ (∀ m ∈ ms, '\n' ∉ m) ∧
      ms.map gist = ls.flatMap (fun l => statements (gist l).2 (gist l).1) ∧
      (Statement.breakAtSeparators (unlines ls) = unlines ms ∨
        Statement.breakAtSeparators (unlines ls) = unlines (ms ++ [[]])) := by
  induction ls with
  | nil => exact absurd rfl hne
  | cons l ls ih =>
      rw [List.forall_mem_cons] at h
      obtain ⟨ps, hbreaks, hps⟩ := exists_breaks h.1
      cases ls with
      | nil => exact ⟨ps, hbreaks.ne_nil, hbreaks.feed, by simpa using hps, hbreaks.ends⟩
      | cons k ls =>
          obtain ⟨ms, hms, hfeed, hmap, hends⟩ := ih (by simp) h.2
          refine ⟨ps ++ ms, by simp [hms], List.forall_mem_append.2 ⟨hbreaks.feed, hfeed⟩, ?_, ?_⟩
          · rw [List.map_append, hps, hmap]
            rfl
          · rw [unlines_cons l (by simp), hbreaks.goesOn, unlines_append hbreaks.ne_nil hms,
              List.append_assoc, unlines_append hbreaks.ne_nil (by simp)]
            exact hends.imp (congrArg (unlines ps ++ '\n' :: ·))
              (congrArg (unlines ps ++ '\n' :: ·))

theorem map_fromFirst (ls : List (List Char)) :
    (fromFirst ls).map gist = (ls.map gist).dropWhile fun g => decide (g = ([], none)) := by
  rw [List.dropWhile_map, fromFirst]
  exact congrArg (fun p => (ls.dropWhile p).map gist) (funext isBlankLine_gist)

theorem map_upToLast (ls : List (List Char)) :
    (upToLast ls).map gist = (ls.map gist).rdropWhile fun g => decide (g = ([], none)) := by
  rw [upToLast, List.rdropWhile, List.rdropWhile, List.map_reverse, ← List.map_reverse (l := ls),
    ← map_fromFirst]
  rfl

theorem trim_unlines_concat (hms : ms ≠ []) : trim (unlines (ms ++ [[]])) = trim (unlines ms) := by
  rw [unlines_append hms (by simp)]
  exact trim_gaps (List.forall_mem_nil _) (List.forall_mem_singleton.2 rfl)

end Comment

namespace Statement

open Text Comment

theorem dropBeforeComments_unlines (ls : List (List Char)) :
    dropBeforeComments (unlines ls) = unlines (ls.map dropBeforeComments) := by
  induction ls with
  | nil =>
      unfold dropBeforeComments
      rfl
  | cons l ls ih =>
      cases ls with
      | nil => rfl
      | cons k ls =>
          rw [unlines_cons l (by simp), dropBeforeComments_line, ih, List.map_cons (l := k :: ls),
            unlines_cons _ (by simp)]

/-- The statements of quiet lines, as the gists of the lines tell them. -/
theorem exists_statements {ls : List (List Char)} (hne : ls ≠ []) (h : ∀ l ∈ ls, Quiet l) :
    ∃ ms, (∀ m ∈ ms, '\n' ∉ m) ∧
      ms.map gist =
        ((ls.map gist).map merged).flatMap (fun g => statements g.2 g.1) ∧
      trim (breakAtSeparators (dropBeforeComments (unlines ls))) = trim (unlines ms) := by
  have hquiet : ∀ l ∈ ls.map dropBeforeComments, Quiet l := by
    intro l hl
    obtain ⟨k, hk, rfl⟩ := List.mem_map.1 hl
    exact (h k hk).dropBeforeComments
  obtain ⟨ms, hms, hfeed, hmap, hends⟩ := exists_breakAll (by simpa using hne) hquiet
  have hmerged : (ls.map dropBeforeComments).map gist = (ls.map gist).map merged := by
    rw [List.map_map, List.map_map]
    exact List.map_congr_left fun l hl => gist_dropBeforeComments (h l hl)
  refine ⟨ms, hfeed, ?_, ?_⟩
  · rw [hmap, ← hmerged, List.flatMap_map (f := gist)]
  · rw [dropBeforeComments_unlines]
    rcases hends with hends | hends
    · rw [hends]
    · rw [hends, trim_unlines_concat hms]

end Statement

end MiniScriptLayout
