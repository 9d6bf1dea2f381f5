import MiniScriptLayout.Proofs.Rows.Splitting

/-!
The entries of a text: what its lines hold, broken at separators. Lifting the comments of a text and
breaking it into statements numbers the comments of its entries and drops the blank ones at both
ends, so that a text is laid out by its literals and its entries.
-/

namespace MiniScriptLayout

open Text

/-- The pieces of some code, and the comment behind it if there is one. -/
abbrev Entry := List (List Char) × Option (List Char)

namespace Entry

open Comment

/-- A comment behind some pieces has a `$` before it if it is lifted. One without a body is not if
code stands before it. -/
def marked (ps : List (List Char)) (body : List Char) : List Char :=
  if body.isEmpty && !ps.isEmpty then [] else '$' :: body

def mark : Entry → Entry
  | (ps, none) => (ps, none)
  | (ps, some body) => (ps, some (marked ps body))

/-- The entries of a line with the given gist. -/
def entries (g : Entry) : List Entry :=
  statements (merged (mark g)).2 (merged (mark g)).1

/-- The bodies of comments that are lifted. -/
def bodies (es : List Entry) : List (List Char) :=
  es.filterMap fun e => e.2.bind List.tail?

/-- The rest of a line behind the `//` of a comment with the number `n`. -/
def numbered (n : Nat) : Option (List Char) → Option (List Char)
  | some (_ :: _) => some (trimRight ('$' :: decimal n))
  | comment => comment

/-- The entries with numbers for their comments, from `n` on. -/
def number (n : Nat) : List Entry → List Entry
  | [] => []
  | e :: es => (e.1, numbered n e.2) :: number (n + (bodies [e]).length) es

theorem bodies_cons (e : Entry) (es : List Entry) : bodies (e :: es) = bodies [e] ++ bodies es :=
  List.filterMap_append (l := [e])

theorem bodies_append (es fs : List Entry) : bodies (es ++ fs) = bodies es ++ bodies fs :=
  List.filterMap_append

theorem number_append (n : Nat) (es fs : List Entry) :
    number n (es ++ fs) = number n es ++ number (n + (bodies es).length) fs := by
  induction es generalizing n with
  | nil => rfl
  | cons e es ih =>
      rw [List.cons_append, number, number, ih, bodies_cons e es, List.length_append,
        List.cons_append, Nat.add_assoc]

theorem length_number (n : Nat) (es : List Entry) : (number n es).length = es.length := by
  induction es generalizing n with
  | nil => rfl
  | cons e es ih => rw [number, List.length_cons, List.length_cons, ih]

theorem exists_statements_cons (comment : Option (List Char)) (ps : List (List Char)) :
    ∃ e es, statements comment ps = e :: es := by
  fun_cases statements comment ps <;> simp

/-- Numbering goes past the code before a comment. -/
theorem number_statements (n : Nat) (comment : Option (List Char)) (ps : List (List Char)) :
    number n (statements comment ps) = statements (numbered n comment) ps := by
  have hnone : numbered n comment = none ↔ comment = none := by
    obtain _ | _ | ⟨c, body⟩ := comment <;> simp [numbered]
  induction ps with
  | nil => rfl
  | cons p ps ih =>
      rw [statements, statements]
      split
      · rw [number]
        by_cases hlast : ps = [] ∧ comment = none
        · rw [if_pos hlast, if_pos ⟨hlast.1, hnone.2 hlast.2⟩]
          rfl
        · rw [if_neg hlast, if_neg fun h => hlast ⟨h.1, hnone.1 h.2⟩, ← ih]
          rfl
      · obtain ⟨e, es, hs⟩ := exists_statements_cons comment ps
        rw [hs] at ih ⊢
        rw [← ih]
        rfl

theorem bodies_singleton (e : Entry) : bodies [e] = (e.2.bind List.tail?).toList := by
  obtain ⟨ps, _ | _ | ⟨c, body⟩⟩ := e <;> rfl

theorem bodies_statements (comment : Option (List Char)) (ps : List (List Char)) :
    bodies (statements comment ps) = (comment.bind List.tail?).toList := by
  induction ps with
  | nil => exact bodies_singleton ([], comment)
  | cons p ps ih =>
      rw [statements]
      split
      · split
        · rename_i hlast
          rw [hlast.2]
          rfl
        · rw [bodies_cons, ih]
          rfl
      · obtain ⟨e, es, hs⟩ := exists_statements_cons comment ps
        rw [hs, bodies_cons] at ih
        rw [hs, bodies_cons, ← ih]
        rfl

theorem bodies_entries (g : Entry) : bodies (entries g) = ((mark g).2.bind List.tail?).toList := by
  rw [entries, bodies_statements, comment_merged]

/-- Nothing is in an entry. -/
def isBlank (e : Entry) : Bool :=
  decide (e = ([], none))

/-- The entries without the blank ones at both ends. One of these stays if there are no others. -/
def trimAll (es : List Entry) : List Entry :=
  if (es.dropWhile isBlank).isEmpty then [([], none)]
  else (es.dropWhile isBlank).rdropWhile isBlank

variable {e : Entry} {es : List Entry}

theorem trimAll_of_isBlank (h : ∀ e ∈ es, isBlank e = true) : trimAll es = [([], none)] := by
  rw [trimAll, List.dropWhile_eq_nil_iff.2 h]
  rfl

theorem rdropWhile_around (he : isBlank e = false) (before after : List Entry) :
    (before ++ e :: after).rdropWhile isBlank = before ++ e :: after.rdropWhile isBlank := by
  rw [List.rdropWhile, List.rdropWhile, List.reverse_append, List.reverse_cons, List.append_assoc,
    List.singleton_append, List.dropWhile_append, List.dropWhile_cons_of_neg (by simp [he])]
  split
  · rename_i h
    simp [List.isEmpty_iff.1 h]
  · simp

theorem trimAll_around (he : isBlank e = false) (before after : List Entry) :
    trimAll (before ++ e :: after) =
      before.dropWhile isBlank ++ e :: after.rdropWhile isBlank := by
  have hfront : (before ++ e :: after).dropWhile isBlank =
      before.dropWhile isBlank ++ e :: after := by
    rw [List.dropWhile_append, List.dropWhile_cons_of_neg (by simp [he])]
    split
    · rename_i h
      rw [List.isEmpty_iff.1 h, List.nil_append]
    · rfl
  rw [trimAll, hfront, rdropWhile_around he, if_neg (by simp)]

theorem exists_around (es : List Entry) :
    (∀ e ∈ es, isBlank e = true) ∨
      ∃ before e after, es = before ++ e :: after ∧ isBlank e = false := by
  by_cases h : ∀ e ∈ es, isBlank e = true
  · exact .inl h
  · simp only [not_forall, Bool.not_eq_true] at h
    obtain ⟨e, he, hblank⟩ := h
    obtain ⟨before, after, rfl⟩ := List.append_of_mem he
    exact .inr ⟨before, e, after, rfl, hblank⟩

theorem bodies_of_isBlank (h : ∀ e ∈ es, isBlank e = true) : bodies es = [] := by
  rw [bodies, List.filterMap_eq_nil_iff]
  intro e he
  rw [of_decide_eq_true (h e he)]
  rfl

theorem bodies_dropWhile (es : List Entry) : bodies (es.dropWhile isBlank) = bodies es := by
  have h := List.takeWhile_append_dropWhile (p := isBlank) (l := es)
  conv => rhs; rw [← h]
  rw [bodies_append, bodies_of_isBlank fun e he => List.mem_takeWhile_imp he, List.nil_append]

theorem bodies_rdropWhile (es : List Entry) : bodies (es.rdropWhile isBlank) = bodies es := by
  have h := List.rdropWhile_append_rtakeWhile (p := isBlank) (l := es)
  conv => rhs; rw [← h]
  rw [bodies_append, bodies_of_isBlank fun e he => List.mem_rtakeWhile_imp he, List.append_nil]

theorem bodies_trimAll (es : List Entry) : bodies (trimAll es) = bodies es := by
  rcases exists_around es with h | ⟨before, e, after, rfl, he⟩
  · rw [trimAll_of_isBlank h, bodies_of_isBlank h]
    rfl
  · rw [trimAll_around he, bodies_append, bodies_append, bodies_cons e, bodies_cons e after,
      bodies_dropWhile, bodies_rdropWhile]

theorem isBlank_numbered (n : Nat) (e : Entry) : isBlank (e.1, numbered n e.2) = isBlank e := by
  obtain ⟨ps, _ | _ | ⟨c, body⟩⟩ := e <;> simp [isBlank, numbered]

theorem dropWhile_number (n : Nat) (es : List Entry) :
    (number n es).dropWhile isBlank = number n (es.dropWhile isBlank) := by
  induction es with
  | nil => rfl
  | cons e es ih =>
      rw [number, List.dropWhile_cons, List.dropWhile_cons, isBlank_numbered]
      split
      · rename_i he
        rw [bodies_of_isBlank (List.forall_mem_singleton.2 he)]
        exact ih
      · rfl

theorem rdropWhile_number (n : Nat) (es : List Entry) :
    (number n es).rdropWhile isBlank = number n (es.rdropWhile isBlank) := by
  induction es using List.reverseRecOn with
  | nil => rfl
  | append_singleton es e ih =>
      have hconcat : number n (es ++ [e]) =
          number n es ++ [(e.1, numbered (n + (bodies es).length) e.2)] := by
        rw [number_append]
        rfl
      rw [hconcat, List.rdropWhile_concat, List.rdropWhile_concat, isBlank_numbered, ih, ← hconcat]
      split <;> rfl

theorem trimAll_number (n : Nat) (es : List Entry) :
    trimAll (number n es) = number n (trimAll es) := by
  have hempty : ∀ fs, (number n fs).isEmpty = fs.isEmpty := fun fs => by cases fs <;> rfl
  rw [trimAll, trimAll, dropWhile_number, rdropWhile_number, hempty]
  split <;> rfl

end Entry

namespace Row

open Comment Entry

/-- The comment that is lifted from a line is the one that is marked. -/
theorem body_ofLine (line : List Char) :
    (ofLine line).body = (mark (gist line)).2.bind List.tail? := by
  have hbody : (ofLine line).body = (ofParts (parts line)).body := by
    rw [← bare_ofLine]
    rfl
  have hempty : (parts line).1.isEmpty = (gist line).1.isEmpty := by
    rw [Bool.eq_iff_iff, List.isEmpty_iff, List.isEmpty_iff, gist_eq_nil]
  rw [hbody, show gist line = ((gist line).1, (parts line).2) from rfl]
  cases hparts : parts line with
  | mk code rest =>
      rw [hparts] at hempty
      cases rest with
      | none => rfl
      | some body =>
          simp only [ofParts, mark, marked, hempty]
          by_cases hbare : (body.isEmpty && !(gist line).1.isEmpty) = true
          · simp only [if_pos hbare]
            rfl
          · simp only [if_neg hbare]
            rfl

theorem merged_lifted (n : Nat) (line : List Char) :
    merged (gist ((ofLine line).lifted n)) =
      ((merged (mark (gist line))).1, numbered n (merged (mark (gist line))).2) := by
  rw [gist_lifted, body_ofLine]
  obtain ⟨ps, _ | body⟩ := gist line
  · rfl
  · simp only [mark, marked]
    by_cases hbare : (body.isEmpty && !ps.isEmpty) = true
    · simp only [if_pos hbare]
      rw [Bool.and_eq_true, List.isEmpty_iff] at hbare
      rw [hbare.1]
      rfl
    · simp only [if_neg hbare]
      rfl

/-- Lines whose comments are lifted have their entries with numbers. -/
theorem number_lines (n : Nat) (ls : List (List Char)) :
    (((write n (ls.map ofLine)).map gist).map merged).flatMap (fun g => statements g.2 g.1) =
        number n (ls.flatMap fun l => entries (gist l)) ∧
      bodies (ls.map ofLine) = Entry.bodies (ls.flatMap fun l => entries (gist l)) := by
  induction ls generalizing n with
  | nil => exact ⟨rfl, rfl⟩
  | cons l ls ih =>
      have hentries : Entry.bodies (entries (gist l)) = (ofLine l).body.toList := by
        rw [bodies_entries, body_ofLine]
      have hnext : (ofLine l).next n = n + (Entry.bodies (entries (gist l))).length := by
        rw [hentries, next]
        cases (ofLine l).body <;> rfl
      have hline : statements (merged (gist ((ofLine l).lifted n))).2
          (merged (gist ((ofLine l).lifted n))).1 = number n (entries (gist l)) := by
        rw [merged_lifted, entries, number_statements]
      have hbodies : bodies (ofLine l :: ls.map ofLine) =
          (ofLine l).body.toList ++ bodies (ls.map ofLine) := by
        cases hb : (ofLine l).body <;> simp [bodies, hb]
      simp only [List.map_cons, write, List.flatMap_cons, number_append, hline, hbodies,
        Entry.bodies_append, hentries]
      rw [hnext, (ih _).1, (ih n).2, hentries]
      exact ⟨rfl, rfl⟩

end Row

namespace Comment

/-- Trimming a text trims the entries of its lines. -/
theorem map_gist_trim {ms : List (List Char)} (hms : ∀ m ∈ ms, '\n' ∉ m) :
    (lines (trim (unlines ms))).map gist = Entry.trimAll (ms.map gist) := by
  have hline : ∀ m, isBlankLine m = Entry.isBlank (gist m) := isBlankLine_gist
  by_cases hblank : ∀ m ∈ ms, isBlankLine m = true
  · rw [trim_eq_nil.2 (isBlank_of_mem_unlines hblank), Entry.trimAll_of_isBlank]
    · rfl
    · simpa [← hline] using hblank
  · simp only [not_forall, Bool.not_eq_true] at hblank
    obtain ⟨l, hl, hblank⟩ := hblank
    obtain ⟨before, after, rfl⟩ := List.append_of_mem hl
    have hparts := (Core.of_insert hblank before after).parts_trim hms
    rw [map_gist_of_map_parts hparts, List.map_append, List.map_append, List.map_cons,
      List.map_cons, map_fromFirst, map_upToLast, Entry.trimAll_around (by rw [← hline, hblank])]
    rfl

end Comment

namespace Entry

open Comment

/-- The entries of a text whose literals are lifted. -/
def ofText (s : List Char) : List Entry :=
  (lines s).flatMap fun l => entries (gist l)

theorem ofText_joinReturns (s : List Char) : ofText (joinReturns s) = ofText s := by
  have h := congrArg (List.flatMap entries) (Row.map_gist_joinReturns s)
  rwa [List.flatMap_map, List.flatMap_map] at h

theorem bodies_ofText (s : List Char) : bodies (ofText s) = (Comment.lift s).table := by
  rw [Row.lift_eq, ← ofText_joinReturns]
  exact (Row.number_lines 0 _).2.symm

/-- The statements of a text are its entries without the blank ones at both ends. -/
theorem map_gist_split (s : List Char) :
    (Statement.split (Comment.lift s).text).map gist = number 0 (trimAll (ofText s)) := by
  have hjoin := Row.map_gist_joinReturns (Comment.lift s).text
  have hquiet : ∀ l ∈ lines (joinReturns (Comment.lift s).text), Quiet l := by
    intro l hl
    refine ⟨not_mem_lines _ l hl, ?_⟩
    obtain ⟨k, hk, hgist⟩ := List.mem_map.1 (hjoin ▸ List.mem_map_of_mem hl)
    rw [← hgist]
    exact Row.not_mem_comment_lift s k hk
  obtain ⟨ms, hms, hmap, htrim⟩ := Statement.exists_statements (lines_ne_nil _) hquiet
  rw [unlines_lines] at htrim
  rw [Statement.split, htrim, map_gist_trim hms, hmap, hjoin, Row.lines_lift, Row.ofText,
    (Row.number_lines 0 _).1, trimAll_number, ← ofText_joinReturns]
  rfl

end Entry

namespace Layout

variable {text text' : List Char}

theorem length_lines_ofText (text : List Char) :
    (ofText text).lines.length =
      (Entry.trimAll (Entry.ofText (Literal.lift text).text)).length := by
  have h := congrArg List.length (Entry.map_gist_split (Literal.lift text).text)
  rw [List.length_map, Entry.length_number] at h
  rw [← h]
  exact length_ofLines _ _

theorem table_comments_ofText (text : List Char) :
    (ofText text).comments.table = Entry.bodies (Entry.ofText (Literal.lift text).text) :=
  (Entry.bodies_ofText _).symm

/-- A text is laid out by its literals and its entries. -/
theorem layOut_entries (htable : (Literal.lift text).table = (Literal.lift text').table)
    (h : Entry.trimAll (Entry.ofText (Literal.lift text).text) =
      Entry.trimAll (Entry.ofText (Literal.lift text').text)) (u : Indentation.Units) :
    layOut u text = layOut u text' := by
  have hcomments : (ofText text).comments.table = (ofText text').comments.table := by
    rw [table_comments_ofText, table_comments_ofText, ← Entry.bodies_trimAll, h,
      Entry.bodies_trimAll]
  have hlines : (ofText text).lines = (ofText text').lines := by
    have hfeeds : ∀ s : List Char, ∀ l ∈ Statement.split s, '\n' ∉ l ∧ ';' ∉ l := fun s l hl =>
      ⟨not_mem_lines _ l hl, Statement.not_mem_split s l hl⟩
    refine CodeLine.ofLines_congr ?_ (hfeeds _) (hfeeds _) false
    rw [Entry.map_gist_split, Entry.map_gist_split, h]
  have hindentation : (ofText text).indentation = (ofText text').indentation := by
    change Indentation.ofShapes ((ofText text).lines.map fun l => .ofCode l.code) =
      Indentation.ofShapes ((ofText text').lines.map fun l => .ofCode l.code)
    rw [hlines]
  have hcode : (ofText text).code u = (ofText text').code u := by
    rw [code, code, join, join, hlines, hindentation]
  rw [layOut, layOut, render, render, hcomments, hcode]
  exact congrArg (fun table => Literal.restore table _) htable

end Layout
end MiniScriptLayout
