import MiniScriptLayout.Options
import MiniScriptLayout.Proofs.Rows.Coarser

/-!
Semicolons and line feeds separate statements alike. Each separator of a text ends an entry, so the
entries of a text are its statements, and what separates them is not seen in its layout.
-/

namespace MiniScriptLayout

namespace Statement

open Text

/-- What stands between two statements: a line feed, or a semicolon between blanks that may have a
line feed behind them. -/
inductive Separator : List Char → Prop
  | feed : Separator ['\n']
  | semicolon {before after : List Char} :
      (∀ c ∈ before, isInlineBlank c = true) → (∀ c ∈ after, isInlineBlank c = true) →
      Separator (before ++ ';' :: after)
  | broken {before after : List Char} :
      (∀ c ∈ before, isInlineBlank c = true) → (∀ c ∈ after, isInlineBlank c = true) →
      Separator (before ++ ';' :: (after ++ ['\n']))

/-- The text of some statements with a separator between each and the next. -/
inductive Separated : List (List Char) → List Char → Prop
  | nil : Separated [] []
  | single (s : List Char) : Separated [s] s
  | cons {s s' sep text : List Char} {ss : List (List Char)} :
      Separator sep → Separated (s' :: ss) text → Separated (s :: s' :: ss) (s ++ (sep ++ text))

/-- A statement that has no separator, literal or comment in it. -/
structure Plain (s : List Char) : Prop where
  feed : '\n' ∉ s
  semicolon : ';' ∉ s
  quote : '"' ∉ s
  slashes : SlashesApart s

variable {s gap sep t text : List Char} {ss : List (List Char)} {c : Char}

theorem Plain.append_gap (hs : Plain s) (hgap : ∀ c ∈ gap, isInlineBlank c = true) :
    Plain (s ++ gap) := by
  have hnot : ∀ c, isInlineBlank c = false → c ∉ gap := fun c hc => not_mem_gap hgap hc
  refine ⟨by simp [hs.feed, hnot '\n' rfl], by simp [hs.semicolon, hnot ';' rfl],
    by simp [hs.quote, hnot '"' rfl], ?_⟩
  exact hs.slashes.append (.of_not_mem (hnot '/' rfl))
    (.inr fun hhead => hnot '/' rfl (List.mem_of_head? hhead))

namespace Separator

theorem ne_nil (h : Separator sep) : sep ≠ [] := by
  cases h <;> simp

theorem not_mem (h : Separator sep) (hc : isBlank c = false) (hsemicolon : c ≠ ';') : c ∉ sep := by
  have hinline : isInlineBlank c = false := by rw [isInlineBlank, hc, Bool.false_and]
  have hfeed : c ≠ '\n' := by
    rintro rfl
    cases hc
  cases h with
  | feed => simpa using hfeed
  | semicolon hbefore hafter =>
      simp [not_mem_gap hbefore hinline, not_mem_gap hafter hinline, hsemicolon]
  | broken hbefore hafter =>
      simp [not_mem_gap hbefore hinline, not_mem_gap hafter hinline, hsemicolon, hfeed]

/-- No comment begins at a separator. -/
theorem slashesApart (h : Separator sep) (hs : SlashesApart s) (ht : SlashesApart t) :
    SlashesApart (s ++ (sep ++ t)) := by
  have hsep : '/' ∉ sep := h.not_mem rfl (by decide)
  refine hs.append ((SlashesApart.of_not_mem hsep).append ht (.inl ?_)) (.inr ?_)
  · exact fun hlast => hsep (List.mem_of_getLast? hlast)
  · rw [List.head?_append_of_ne_nil _ h.ne_nil]
    exact fun hhead => hsep (List.mem_of_head? hhead)

end Separator

theorem Separated.not_mem (h : Separated ss text) (hss : ∀ s ∈ ss, c ∉ s) (hc : isBlank c = false)
    (hsemicolon : c ≠ ';') : c ∉ text := by
  induction h with
  | nil => exact List.not_mem_nil
  | single s => exact hss s (List.mem_singleton_self s)
  | cons hsep _ ih =>
      rw [List.forall_mem_cons] at hss
      rw [List.mem_append, List.mem_append, not_or, not_or]
      exact ⟨hss.1, hsep.not_mem hc hsemicolon, ih hss.2⟩

theorem separated_unlines (ss : List (List Char)) : Separated ss (unlines ss) := by
  induction ss with
  | nil => exact .nil
  | cons s ss ih =>
      cases ss with
      | nil => exact .single s
      | cons s' ss =>
          rw [unlines_cons s (List.cons_ne_nil s' ss)]
          exact .cons .feed ih

end Statement

namespace Entry

open Text Comment Statement

variable {gap sep rest s t text trailing : List Char} {ls ss : List (List Char)}

theorem entries_of_slashesApart (h : SlashesApart s) :
    entries (gist s) = statements none (View.pieces.tokens s) := by
  rw [gist_of_slashesApart h]
  rfl

theorem entries_plain (hs : Plain s) : entries (gist s) = [(View.pieces.tokens s, none)] := by
  rw [entries_of_slashesApart hs.slashes, statements_of_not_mem]
  exact fun hmem => hs.semicolon (separator_mem_pieces hmem)

/-- A semicolon ends an entry. Blanks behind it are no other one. -/
theorem entries_semicolon (hs : Plain s) (hgap : ∀ c ∈ gap, isInlineBlank c = true)
    (hrest : SlashesApart rest) :
    entries (gist (s ++ ';' :: (gap ++ rest))) = (View.pieces.tokens s, none) ::
      if View.pieces.tokens rest = [] then [] else entries (gist rest) := by
  have hpieces : [';'] ∉ View.pieces.tokens s := fun hmem =>
    hs.semicolon (separator_mem_pieces hmem)
  rw [entries_of_slashesApart hrest, gist_separator hs.slashes (isBlank_gap hgap),
    gist_of_slashesApart hrest, entries]
  simp [mark, merged, statements_append none hpieces]

theorem ofText_feed (hs : Plain s) (t : List Char) :
    ofText (s ++ '\n' :: t) = (View.pieces.tokens s, none) :: ofText t := by
  rw [ofText, lines, split_append_cons hs.feed, List.flatMap_cons, entries_plain hs]
  rfl

theorem ofText_semicolon (hs : Plain s) (hgap : ∀ c ∈ gap, isInlineBlank c = true)
    (hlines : lines t = rest :: ls) (hrest : SlashesApart rest) :
    ofText (s ++ ';' :: (gap ++ t)) = (View.pieces.tokens s, none) ::
      ((if View.pieces.tokens rest = [] then [] else entries (gist rest)) ++
        ls.flatMap fun l => entries (gist l)) := by
  have hfront : '\n' ∉ s ++ ';' :: gap := by
    simpa using ⟨hs.feed, not_mem_gap hgap (c := '\n') rfl⟩
  have hline := split_append hfront hlines
  rw [List.append_assoc, List.cons_append, List.append_assoc, List.cons_append] at hline
  rw [ofText, lines, hline, List.flatMap_cons, entries_semicolon hs hgap hrest, List.cons_append]

/-- A statement up to its separator is an entry. The text behind it has its own entries, but for a
blank one right behind a semicolon. -/
theorem ofText_separator (hs : Plain s) (hsep : Separator sep) (ht : SlashesApart t) :
    ∃ es, ofText (s ++ (sep ++ t)) = (View.pieces.tokens s, none) :: es ∧
      (ofText t = es ∨ ofText t = ([], none) :: es) := by
  have hpieces : ∀ before : List Char, (∀ c ∈ before, isInlineBlank c = true) →
      View.pieces.tokens (s ++ before) = View.pieces.tokens s := fun before hbefore =>
    (View.Same.append_skips s fun c hc => View.skips_blank (isBlank_gap hbefore c hc)).1
  cases hsep with
  | feed => exact ⟨ofText t, ofText_feed hs t, .inl rfl⟩
  | @semicolon before after hbefore hafter =>
      obtain ⟨rest, ls, hlines⟩ := List.exists_cons_of_ne_nil (lines_ne_nil t)
      obtain ⟨behind, hbehind⟩ := isPrefix_of_lines hlines
      have hrest : SlashesApart rest := SlashesApart.left (hbehind ▸ ht)
      have hline := ofText_semicolon (hs.append_gap hbefore) hafter hlines hrest
      have htext : ofText t = entries (gist rest) ++ ls.flatMap fun l => entries (gist l) := by
        rw [ofText, hlines, List.flatMap_cons]
      rw [hpieces before hbefore] at hline
      refine ⟨_, by simpa using hline, ?_⟩
      split
      · rename_i hnil
        rw [entries_of_slashesApart hrest, hnil] at htext
        exact .inr htext
      · exact .inl htext
  | @broken before after hbefore hafter =>
      have hlines : lines ('\n' :: t) = [] :: lines t := split_append_cons List.not_mem_nil t
      have hline := ofText_semicolon (hs.append_gap hbefore) hafter hlines List.isChain_nil
      have hassoc : s ++ (before ++ ';' :: (after ++ ['\n']) ++ t) =
          s ++ before ++ ';' :: (after ++ '\n' :: t) := by simp
      rw [hpieces before hbefore, if_pos (show View.pieces.tokens [] = [] from rfl)] at hline
      exact ⟨ofText t, by rw [hassoc, hline]; rfl, .inl rfl⟩

theorem ofText_nil : ofText [] = [([], none)] := rfl

/-- What ends a text leaves a blank entry at most. -/
theorem exists_ofText_trailing (hs : Plain s) (htrailing : trailing = [] ∨ Separator trailing) :
    ∃ blanks, (∀ e ∈ blanks, isBlank e = true) ∧ SlashesApart (s ++ trailing) ∧
      ofText (s ++ trailing) = (View.pieces.tokens s, none) :: blanks := by
  rcases htrailing with rfl | hsep
  · refine ⟨[], List.forall_mem_nil _, by simpa using hs.slashes, ?_⟩
    rw [List.append_nil, ofText, lines, split_of_not_mem hs.feed, List.flatMap_singleton,
      entries_plain hs]
  · have hslashes := hsep.slashesApart hs.slashes List.isChain_nil
    obtain ⟨es, hcons, hes⟩ := ofText_separator hs hsep List.isChain_nil
    rw [List.append_nil] at hslashes hcons
    refine ⟨es, ?_, hslashes, hcons⟩
    rw [ofText_nil] at hes
    rcases hes with rfl | hes
    · exact List.forall_mem_singleton.2 rfl
    · obtain rfl := (List.cons.inj hes).2
      exact List.forall_mem_nil _

/-- The entries of a text are its statements. -/
theorem exists_ofText_separated (h : Separated ss text) (hss : ∀ s ∈ ss, Plain s)
    (hinked : ∀ s ∈ ss, isBlankLine s = false) (htrailing : trailing = [] ∨ Separator trailing) :
    ∃ blanks, (∀ e ∈ blanks, isBlank e = true) ∧ SlashesApart (text ++ trailing) ∧
      ofText (text ++ trailing) = ss.map (fun s => (View.pieces.tokens s, none)) ++ blanks := by
  induction h with
  | nil =>
      have hnil : Plain [] :=
        ⟨List.not_mem_nil, List.not_mem_nil, List.not_mem_nil, List.isChain_nil⟩
      obtain ⟨blanks, hblanks, hslashes, htext⟩ := exists_ofText_trailing hnil htrailing
      exact ⟨_, List.forall_mem_cons.2 ⟨rfl, hblanks⟩, hslashes, htext⟩
  | single s => exact exists_ofText_trailing (hss s (List.mem_singleton_self s)) htrailing
  | @cons s s' sep text ss hsep _ ih =>
      rw [List.forall_mem_cons] at hss hinked
      obtain ⟨blanks, hblanks, hslashes, htext⟩ := ih hss.2 hinked.2
      obtain ⟨es, hcons, hes⟩ := ofText_separator hss.1 hsep hslashes
      -- the next statement is not blank, so it is not lost behind a semicolon
      have hpieces : View.pieces.tokens s' ≠ [] := by
        rw [Ne, View.pieces_eq_nil, ← isBlankLine_iff, hinked.2 s' List.mem_cons_self]
        exact Bool.false_ne_true
      have hes : ofText (text ++ trailing) = es := by
        refine hes.resolve_right fun hblank => hpieces ?_
        rw [htext] at hblank
        exact congrArg Prod.fst (List.cons.inj hblank).1
      refine ⟨blanks, hblanks, ?_, ?_⟩
      · rw [List.append_assoc, List.append_assoc]
        exact hsep.slashesApart hss.1.slashes hslashes
      · rw [List.append_assoc, List.append_assoc, hcons, ← hes, htext]
        rfl

end Entry

open Statement

/-- However statements are separated, they are laid out as if each had a line of its own. -/
theorem layOut_separated {statements : List (List Char)} {text trailing : List Char}
    (hplain : ∀ s ∈ statements, Plain s) (hinked : ∀ s ∈ statements, Text.isBlankLine s = false)
    (h : Separated statements text) (htrailing : trailing = [] ∨ Separator trailing)
    (u : Indentation.Units) : layOut u (text ++ trailing) = layOut u (Text.unlines statements) := by
  have hlift : ∀ {text trailing : List Char}, Separated statements text →
      trailing = [] ∨ Separator trailing →
      Literal.lift (text ++ trailing) = ⟨text ++ trailing, []⟩ := by
    intro text trailing h htrailing
    have htext := h.not_mem (fun s hs => (hplain s hs).quote) rfl (by decide)
    have htrailing : '"' ∉ trailing := by
      rcases htrailing with rfl | hsep
      · exact List.not_mem_nil
      · exact hsep.not_mem rfl (by decide)
    exact Literal.lift_of_not_mem (by simp [htext, htrailing])
  obtain ⟨blanks, hblanks, -, htext⟩ :=
    Entry.exists_ofText_separated h hplain hinked htrailing
  obtain ⟨blanks', hblanks', -, hlines⟩ :=
    Entry.exists_ofText_separated (separated_unlines statements) hplain hinked (.inl rfl)
  have hunlines := hlift (separated_unlines statements) (.inl rfl)
  rw [List.append_nil] at hlines hunlines
  refine Layout.layOut_entries ?_ ?_ u
  · rw [hlift h htrailing, hunlines]
  · rw [hlift h htrailing, hunlines, htext, hlines, Entry.trimAll_append_of_isBlank _ hblanks,
      Entry.trimAll_append_of_isBlank _ hblanks']

theorem layOut_separated_mixed :
    (∀ s ∈ ["a=1".toList, "f(a)".toList, "b".toList], Plain s ∧ Text.isBlankLine s = false) ∧
      Separated ["a=1".toList, "f(a)".toList, "b".toList] "a=1 ;\tf(a);\nb".toList ∧
      layOut Options.standard.units "a=1 ;\tf(a);\nb; ".toList =
        layOut Options.standard.units "a=1\nf(a)\nb".toList := by
  have hplain : ∀ s ∈ ["a=1".toList, "f(a)".toList, "b".toList], Plain s := by
    have hline : ∀ s : List Char, '\n' ∉ s ∧ ';' ∉ s ∧ '"' ∉ s ∧ '/' ∉ s → Plain s := fun s h =>
      ⟨h.1, h.2.1, h.2.2.1, .of_not_mem h.2.2.2⟩
    rw [List.forall_mem_cons, List.forall_mem_cons, List.forall_mem_singleton]
    exact ⟨hline _ (by decide), hline _ (by decide), hline _ (by decide)⟩
  have hinked : ∀ s ∈ ["a=1".toList, "f(a)".toList, "b".toList],
      Text.isBlankLine s = false := by decide
  have hnone : ∀ c ∈ ([] : List Char), Text.isInlineBlank c = true := List.forall_mem_nil _
  have hspaced : Separator " ;\t".toList :=
    @Separator.semicolon [' '] ['\t'] (List.forall_mem_singleton.2 rfl)
      (List.forall_mem_singleton.2 rfl)
  have hbroken : Separator ";\n".toList := @Separator.broken [] [] hnone hnone
  have htrailing : Separator "; ".toList :=
    @Separator.semicolon [] [' '] hnone (List.forall_mem_singleton.2 rfl)
  have h := Separated.cons (s := "a=1".toList) hspaced
    (.cons (s := "f(a)".toList) hbroken (.single "b".toList))
  exact ⟨fun s hs => ⟨hplain s hs, hinked s hs⟩, h,
    layOut_separated hplain hinked h (.inr htrailing) Options.standard.units⟩

end MiniScriptLayout
