import MiniScriptLayout.Proofs.Rows.Lifting

/-!
Texts that go on behind a line feed. If the literals of a text are closed and it ends in neither a
blank nor a separator, then its rows are the first rows of every text that goes on behind it, and
its literals are the first ones of that text.
-/

namespace MiniScriptLayout

namespace Text

variable {s t : List Char} {c : Char}

/-- The last character is neither a blank nor a separator. -/
def EndsFirm (s : List Char) : Prop :=
  ∃ c, s.getLast? = some c ∧ isBlank c = false ∧ c ≠ ';'

theorem EndsFirm.ne_nil (h : EndsFirm s) : s ≠ [] := by
  rintro rfl
  obtain ⟨c, hc, -⟩ := h
  cases hc

theorem EndsFirm.getLast?_ne (h : EndsFirm s) {d : Char} (hd : isBlank d = true) :
    s.getLast? ≠ some d := by
  obtain ⟨c, hc, hblank, -⟩ := h
  rw [hc]
  rintro ⟨rfl⟩
  rw [hd] at hblank
  cases hblank

theorem EndsFirm.of_append {x : List Char} (h : EndsFirm (x ++ s)) (hs : s ≠ []) : EndsFirm s := by
  obtain ⟨c, hc, hfirm⟩ := h
  refine ⟨c, ?_, hfirm⟩
  obtain ⟨d, hd⟩ := Option.isSome_iff_exists.1 (List.getLast?_isSome.2 hs)
  rwa [List.getLast?_append, hd, Option.some_or, ← hd] at hc

theorem EndsFirm.append (h : EndsFirm s) (x : List Char) : EndsFirm (x ++ s) := by
  obtain ⟨c, hc, hfirm⟩ := h
  exact ⟨c, by rw [List.getLast?_append, hc, Option.some_or], hfirm⟩

theorem EndsFirm.congr {s' : List Char} (hs : s'.getLast? = s.getLast?) (h : EndsFirm s) :
    EndsFirm s' := by
  obtain ⟨c, hc, hfirm⟩ := h
  exact ⟨c, hs.trans hc, hfirm⟩

theorem getLast?_joinReturns (s : List Char) : (joinReturns s).getLast? = s.getLast? := by
  fun_induction joinReturns s with
  | case1 => rfl
  | case2 c => rfl
  | case3 c d r h ih =>
      obtain ⟨rfl, rfl⟩ := h
      rw [List.getLast?_cons, List.getLast?_cons_cons, List.getLast?_cons, ih]
  | case4 c d r _ ih =>
      rw [List.getLast?_cons, ih, List.getLast?_cons_cons, List.getLast?_cons]
      rfl

theorem joinReturns_line (h : s.getLast? ≠ some '\r') (t : List Char) :
    joinReturns (s ++ '\n' :: t) = joinReturns s ++ '\n' :: joinReturns t := by
  have hfeed : joinReturns ('\n' :: t) = '\n' :: joinReturns t := by simp [joinReturns_cons]
  fun_induction joinReturns s with
  | case1 => exact hfeed
  | case2 c =>
      have hc : c ≠ '\r' := by simpa using h
      rw [List.singleton_append, joinReturns, if_neg fun hcd => hc hcd.1, hfeed]
      rfl
  | case3 c d r hcd ih =>
      have hr : r.getLast? ≠ some '\r' := by
        cases r with
        | nil => simp
        | cons e r => rwa [List.getLast?_cons_cons, List.getLast?_cons_cons] at h
      rw [List.cons_append, List.cons_append, joinReturns, if_pos hcd, ih hr]
      rfl
  | case4 c d r hcd ih =>
      rw [List.getLast?_cons_cons] at h
      rw [List.cons_append, List.cons_append, joinReturns, if_neg hcd]
      exact congrArg _ (ih h)

theorem lines_line (s t : List Char) : lines (s ++ '\n' :: t) = lines s ++ lines t := by
  have hcons : ∀ (c : Char) {ps : List (List Char)}, ps ≠ [] → ∀ qs,
      consPiece c (ps ++ qs) = consPiece c ps ++ qs := by
    intro c ps hps qs
    cases ps with
    | nil => exact absurd rfl hps
    | cons p ps => rfl
  induction s with
  | nil => rfl
  | cons c r ih =>
      simp only [lines, List.cons_append, split] at ih ⊢
      rw [ih]
      split
      · rfl
      · exact hcons c (split_ne_nil _ _) _

/-- Behind a text that ends in no blank, trimming takes only what follows it. -/
theorem trim_line (h : EndsFirm s) (t : List Char) :
    trim (s ++ '\n' :: t) = trim s ∨ ∃ t', trim (s ++ '\n' :: t) = trim s ++ '\n' :: t' := by
  have hlast : ∀ c ∈ s.getLast?, isBlank c = false := by
    intro c hc
    obtain ⟨d, hd, hblank, -⟩ := h
    rw [hd, Option.mem_some_iff] at hc
    exact hc ▸ hblank
  have hne : trimLeft s ≠ [] := by
    intro hnil
    obtain ⟨c, hc, hblank, -⟩ := h
    rw [trimLeft_eq_nil.1 hnil c (List.mem_of_getLast? hc)] at hblank
    cases hblank
  have hleft : trimLeft (s ++ '\n' :: t) = trimLeft s ++ '\n' :: t := by
    rw [trimLeft, List.dropWhile_append, if_neg (by rwa [List.isEmpty_iff])]
    rfl
  have hright : trimRight (trimLeft s) = trimLeft s := by
    obtain ⟨gap, -, hs⟩ := exists_blanks_trimLeft s
    refine trimRight_eq_self fun c hc => hlast c ?_
    rw [hs, Option.mem_def, List.getLast?_append, Option.mem_def.1 hc, Option.some_or]
  rw [trim, trim, hleft, trimRight_append, hright]
  split
  · exact .inl rfl
  · rename_i hblank
    exact .inr ⟨trimRight t, by rw [trimRight_cons hblank]⟩

end Text

namespace Statement

open Text

variable {s : List Char} {c : Char}

theorem dropBeforeComments_line (s t : List Char) :
    dropBeforeComments (s ++ '\n' :: t) =
      dropBeforeComments s ++ '\n' :: dropBeforeComments t := by
  fun_induction dropBeforeComments s with
  | case1 => exact Row.dropBeforeComments_cons (by decide) t
  | case2 r rest hr ih =>
      have hopened : (r ++ '\n' :: t).dropWhile isInlineBlank =
          '/' :: '/' :: (rest ++ '\n' :: t) := by
        rw [List.dropWhile_append, hr]
        rfl
      rw [List.cons_append, Row.dropBeforeComments_opened hopened, ih]
      rfl
  | case3 r hno ih =>
      have hclosed : ∀ rest, (r ++ '\n' :: t).dropWhile isInlineBlank ≠ '/' :: '/' :: rest := by
        intro rest heq
        rw [List.dropWhile_append] at heq
        split at heq
        · simp [isInlineBlank] at heq
        · -- the line feed is no slash
          rcases hr : r.dropWhile isInlineBlank with _ | ⟨c, _ | ⟨d, q⟩⟩
          · simp_all
          · simp [hr] at heq
          · simp only [hr, List.cons_append, List.cons.injEq] at heq
            exact hno q (by rw [hr, heq.1, heq.2.1])
      rw [List.cons_append, Row.dropBeforeComments_not_opened hclosed, ih]
      rfl
  | case4 c r hc ih =>
      rw [List.cons_append, Row.dropBeforeComments_cons hc, ih]
      rfl

theorem getLast?_dropBeforeComments (s : List Char) :
    (dropBeforeComments s).getLast? = s.getLast? := by
  fun_induction dropBeforeComments s with
  | case1 => rfl
  | case2 r rest hr ih =>
      have hs : r = r.takeWhile isInlineBlank ++ '/' :: '/' :: rest := by
        rw [← hr, List.takeWhile_append_dropWhile]
      rw [List.getLast?_cons_cons, List.getLast?_cons_cons, List.getLast?_cons, ih, hs,
        ← List.cons_append, List.getLast?_append, List.getLast?_cons_cons, List.getLast?_cons]
      rfl
  | case3 r _ ih | case4 c r _ ih => rw [List.getLast?_cons, ih, List.getLast?_cons]

/-- What a separator is cut off from: there is something left, and it ends as before. -/
theorem skipLineFeed_line {r : List Char} (h : EndsFirm (';' :: r)) (t : List Char) :
    skipLineFeed ((r ++ '\n' :: t).dropWhile isInlineBlank) =
        skipLineFeed (r.dropWhile isInlineBlank) ++ '\n' :: t ∧
      EndsFirm (skipLineFeed (r.dropWhile isInlineBlank)) := by
  have hr : EndsFirm r := by
    refine h.of_append (x := [';']) ?_
    rintro rfl
    obtain ⟨c, hc, -, hsemicolon⟩ := h
    exact hsemicolon (by simpa using hc.symm)
  have hne : r.dropWhile isInlineBlank ≠ [] := by
    intro hnil
    obtain ⟨c, hc, hblank, -⟩ := hr
    have := List.dropWhile_eq_nil_iff.1 hnil c (List.mem_of_getLast? hc)
    simp [isInlineBlank, hblank] at this
  have hq : EndsFirm (r.dropWhile isInlineBlank) := by
    rw [← List.takeWhile_append_dropWhile (p := isInlineBlank) (l := r)] at hr
    exact hr.of_append hne
  rw [List.dropWhile_append, if_neg (by rwa [List.isEmpty_iff])]
  rcases hd : r.dropWhile isInlineBlank with _ | ⟨d, q⟩
  · exact absurd hd hne
  · rw [hd] at hq
    by_cases hfeed : d = '\n'
    · subst hfeed
      refine ⟨rfl, hq.of_append (x := ['\n']) ?_⟩
      rintro rfl
      exact hq.getLast?_ne (d := '\n') rfl rfl
    · have hhead : ∀ q, (d :: q).head? ≠ some '\n' := by simpa using hfeed
      rw [List.cons_append, Row.skipLineFeed_of_head? (hhead _),
        Row.skipLineFeed_of_head? (hhead _)]
      exact ⟨rfl, hq⟩

theorem breakAtSeparators_line (h : s ≠ [] → EndsFirm s) (t : List Char) :
    breakAtSeparators (s ++ '\n' :: t) =
        breakAtSeparators s ++ '\n' :: breakAtSeparators t ∧
      (s ≠ [] → EndsFirm (breakAtSeparators s)) := by
  fun_induction breakAtSeparators s with
  | case1 => exact ⟨Row.breakAtSeparators_cons (by decide) t, fun hne => absurd rfl hne⟩
  | case2 r ih =>
      obtain ⟨hskip, hfirm⟩ := skipLineFeed_line (h (List.cons_ne_nil _ _)) t
      obtain ⟨hbreak, hlast⟩ := ih fun _ => hfirm
      rw [List.cons_append, breakAtSeparators, if_pos rfl, hskip, hbreak]
      exact ⟨rfl, fun _ => (hlast hfirm.ne_nil).append ['\n']⟩
  | case3 c r hc ih =>
      have hr : r ≠ [] → EndsFirm r := (h (List.cons_ne_nil _ _)).of_append (x := [c])
      obtain ⟨hbreak, hlast⟩ := ih hr
      rw [List.cons_append, Row.breakAtSeparators_cons hc, hbreak]
      refine ⟨rfl, fun hne => ?_⟩
      cases r with
      | nil => simpa [breakAtSeparators] using h hne
      | cons d r => exact (hlast (List.cons_ne_nil d r)).append [c]

theorem split_line (h : EndsFirm s) (t : List Char) :
    ∃ more, split (s ++ '\n' :: t) = split s ++ more := by
  have hjoin : EndsFirm (joinReturns s) := h.congr (getLast?_joinReturns s)
  have hdrop : EndsFirm (dropBeforeComments (joinReturns s)) :=
    hjoin.congr (getLast?_dropBeforeComments _)
  obtain ⟨hbreak, hfirm⟩ := breakAtSeparators_line (fun _ => hdrop)
    (dropBeforeComments (joinReturns t))
  rw [split, joinReturns_line (h.getLast?_ne rfl), dropBeforeComments_line, hbreak]
  rcases trim_line (hfirm hdrop.ne_nil) (breakAtSeparators (dropBeforeComments (joinReturns t)))
    with htrim | ⟨t', htrim⟩
  · exact ⟨[], by rw [htrim, List.append_nil]; rfl⟩
  · exact ⟨lines t', by rw [htrim, lines_line]; rfl⟩

end Statement

namespace Literal

variable {n : Nat} {s : List Char}

theorem exists_lift_line (h : ∀ l ∈ (lift s).table, Closed l) (t : List Char) :
    ∃ rest table, lift (s ++ '\n' :: t) =
      ⟨(lift s).text ++ '\n' :: rest, (lift s).table ++ table⟩ := by
  have happend := liftFrom_append h (t := '\n' :: t) fun _ => by simp
  rw [liftFrom_char _ (by decide)] at happend
  exact ⟨_, _, happend⟩

/-- Lifting changes the last character of a text to a quote if it changes it at all. -/
theorem getLast?_liftFrom {c : Char} (h : s.getLast? = some c) :
    (liftFrom n s).text.getLast? = some c ∨ (liftFrom n s).text.getLast? = some '"' := by
  induction n, s using liftFrom.induct with
  | case1 n => cases h
  | case2 n r ih =>
      rw [liftFrom_quote]
      simp only [List.getLast?_append]
      by_cases hr : (close r).2 = []
      · right
        simp [hr, liftFrom, write_eq, List.getLast?_cons]
      · have hlast : (close r).2.getLast? = some c := by
          obtain ⟨d, hd⟩ := Option.isSome_iff_exists.1 (List.getLast?_isSome.2 hr)
          rw [← close_append r, ← List.cons_append, List.getLast?_append, hd,
            Option.some_or] at h
          rw [hd, h]
        rcases ih hlast with h | h <;> simp [h]
  | case3 n d r hd ih =>
      rw [liftFrom_char n hd]
      cases r with
      | nil => simpa [liftFrom] using Or.inl h
      | cons e r =>
          rw [List.getLast?_cons_cons] at h
          rcases ih h with h | h <;> simp [List.getLast?_cons, h]

end Literal

namespace Row

open Text

variable {n : Nat} {r r' : Row} {rows rows' : List Row} {s : List Char}

theorem ofText_line (h : s.getLast? ≠ some '\r') (t : List Char) :
    ofText (s ++ '\n' :: t) = ofText s ++ ofText t := by
  rw [ofText, joinReturns_line h, lines_line, List.map_append]
  rfl

theorem endsFirm_lifted {line : List Char} (h : EndsFirm line) :
    EndsFirm ((ofLine line).lifted n) := by
  rcases ofLine_cases line with ⟨hline, -⟩ | ⟨code, rest, -, -, -, hline⟩
  · rw [hline]
    simpa [lifted] using h
  · rw [hline, lifted, Option.map_some, Option.getD_some]
    obtain ⟨c, hc⟩ : ∃ c, (code ++ Comment.marker.write n).getLast? = some c :=
      Option.isSome_iff_exists.1 (List.getLast?_isSome.2 (by simp [Comment.marker, Marker.write]))
    refine ⟨c, hc, not_isBlank_of_getLast? code hc, ?_⟩
    rintro rfl
    exact absurd (isAsciiDigit_of_getLast? hc) (by decide)

theorem endsFirm_unlines_write (h : EndsFirm s) : EndsFirm (unlines (write n (ofText s))) := by
  have hs : EndsFirm (unlines (lines (joinReturns s))) := by
    rw [unlines_lines]
    exact h.congr (getLast?_joinReturns s)
  rw [ofText]
  generalize lines (joinReturns s) = ls at hs
  induction ls generalizing n with
  | nil => exact absurd rfl hs.ne_nil
  | cons l ls ih =>
      cases ls with
      | nil => exact endsFirm_lifted hs
      | cons m ls =>
          rw [unlines_cons l (by simp)] at hs
          have hrest : EndsFirm (unlines (m :: ls)) := by
            have hs := hs.of_append (List.cons_ne_nil _ _)
            refine hs.of_append (x := ['\n']) fun hnil => ?_
            rw [hnil] at hs
            exact hs.getLast?_ne (d := '\n') rfl rfl
          rw [List.map_cons, unlines_write_cons (by simp)]
          exact ((ih hrest).append ['\n']).append _

theorem lifted_inj (hr : r.Sound) (hr' : r'.Sound) (h : r.lifted n = r'.lifted n) :
    r.code = r'.code ∧ r.body.isSome = r'.body.isSome := by
  have apart : ∀ {code code' : List Char} {b : List Char}, Sound ⟨code, none⟩ →
      Commented code' b → code ≠ code' ++ Comment.marker.write n := by
    intro code code' b hplain hb heq
    cases hplain with
    | plain _ hrest =>
        have hcut := Comment.cut_append hb.opens ('$' :: decimal n)
        have hcode : code = code' ++ '/' :: '/' :: '$' :: decimal n := by
          simpa [Comment.marker, Marker.write] using heq
        rw [← hcode] at hcut
        have := hrest _ _ hcut '$' List.mem_cons_self
        simp [isBlank] at this
  cases hr with
  | @plain code hline hrest =>
      cases hr' with
      | @plain code' _ _ => simpa [lifted] using h
      | @comment code' b hb =>
          exact absurd (by simpa [lifted] using h) (apart (.plain hline hrest) hb)
  | @comment code b hb =>
      cases hr' with
      | @plain code' hline hrest =>
          exact absurd (by simpa [lifted] using h.symm) (apart (.plain hline hrest) hb)
      | @comment code' b' _ => simpa [lifted] using h

/-- If two rows both have a comment or both have none, the first of two tables of comments can be
told apart. -/
theorem bodies_cons_inj (hsome : r'.body.isSome = r.body.isSome) {bs : List (List Char)}
    (h : bodies (r' :: rows') = bodies (r :: rows) ++ bs) :
    r'.body = r.body ∧ bodies rows' = bodies rows ++ bs := by
  cases hb' : r'.body <;> cases hb : r.body <;> simp_all [bodies]

/-- Rows are known from their lines and their comments. -/
theorem exists_append_of_write (hs : ∀ r ∈ rows, r.Sound) (hs' : ∀ r ∈ rows', r.Sound)
    {more bs : List (List Char)} (hwrite : write n rows' = write n rows ++ more)
    (hbodies : bodies rows' = bodies rows ++ bs) : ∃ others, rows' = rows ++ others := by
  induction rows generalizing n rows' with
  | nil => exact ⟨rows', rfl⟩
  | cons r rows ih =>
      cases rows' with
      | nil => simp [write] at hwrite
      | cons r' rows' =>
          rw [List.forall_mem_cons] at hs hs'
          simp only [write, List.cons_append, List.cons.injEq] at hwrite
          obtain ⟨hcode, hsome⟩ := lifted_inj hs'.1 hs.1 hwrite.1
          have hnext : r'.next n = r.next n := by rw [next, next, hsome]
          obtain ⟨hbody, hrest⟩ := bodies_cons_inj hsome hbodies
          obtain ⟨others, rfl⟩ := ih hs.2 hs'.2 (hnext ▸ hwrite.2) hrest
          obtain ⟨code, body⟩ := r
          obtain ⟨code', body'⟩ := r'
          obtain rfl : code' = code := hcode
          obtain rfl : body' = body := hbody
          exact ⟨others, rfl⟩

/-- The rows of a text stay when it goes on in another line, and so do its literals. -/
theorem Holds.exists_append {t₁ t₂ : List Char} (h : Holds t₁ rows)
    (h' : Holds (t₁ ++ '\n' :: t₂) rows') (hfirm : EndsFirm t₁)
    (hclosed : ∀ l ∈ (Literal.lift t₁).table, Literal.Closed l) :
    (∃ others, rows' = rows ++ others) ∧
      (Literal.lift t₁).table <+: (Literal.lift (t₁ ++ '\n' :: t₂)).table := by
  obtain ⟨rest, table, hlift⟩ := Literal.exists_lift_line hclosed t₂
  have hlifted : EndsFirm (Literal.lift t₁).text := by
    obtain ⟨c, hc, hfirm⟩ := hfirm
    rcases Literal.getLast?_liftFrom (n := 0) hc with hlast | hlast
    · exact ⟨c, hlast, hfirm⟩
    · exact ⟨'"', hlast, rfl, by decide⟩
  have hne : ∀ s, ofText s ≠ [] := by simp [ofText, lines_ne_nil]
  -- the rows of both texts before they are broken into statements
  have hrows := h.split
  have hbodies := h.bodies
  have hrows' := h'.split
  have hbodies' := h'.bodies
  rw [lift_eq] at hrows hbodies
  rw [hlift, lift_eq, ofText_line (hlifted.getLast?_ne rfl)] at hrows' hbodies'
  obtain ⟨more, hmore⟩ := Statement.split_line (endsFirm_unlines_write hlifted (n := 0)) _
  rw [unlines_write_append (hne _) (hne _), hmore, hrows] at hrows'
  have happend : Row.bodies rows' = Row.bodies rows ++ Row.bodies (ofText rest) := by
    rw [hbodies, hbodies', bodies_append]
  rw [hlift]
  exact ⟨exists_append_of_write h.sound h'.sound hrows'.symm happend, List.prefix_append _ _⟩

end Row

end MiniScriptLayout
