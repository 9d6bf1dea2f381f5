import MiniScriptLayout.Proofs.Command.Agreement
import MiniScriptLayout.Proofs.Reading

/-!
The modes of the format command. Which files are changed does not depend on the mode: one list of
changes is told by a check, shown as differences and written. Files are visited one after the other,
but as no place is visited twice, no visit finds what another one wrote.
-/

namespace MiniScriptLayout

namespace FileTree

variable {t : FileTree} {l m : Location}

theorem lookup_replace_of_ne (h : m ≠ l) (files : List (Location × Bytes)) (content : Bytes) :
    (files.map fun entry => if entry.1 = l then (l, content) else entry).lookup m =
      files.lookup m := by
  induction files with
  | nil => rfl
  | cons entry files ih =>
      obtain ⟨k, bytes⟩ := entry
      rw [List.map_cons]
      by_cases hk : k = l
      · have hne : (m == k) = false := by simpa [hk] using h
        have hne' : (m == l) = false := by simpa using h
        rw [if_pos hk, List.lookup_cons, List.lookup_cons, hne, hne']
        exact ih
      · rw [if_neg hk, List.lookup_cons, List.lookup_cons, ih]

/-- Writing a file leaves every other one as it is. -/
theorem read?_write_of_ne (h : m ≠ l) (t : FileTree) (content : Bytes) :
    (t.write l content).read? m = t.read? m := by
  unfold write
  split
  · exact lookup_replace_of_ne h t.files content
  · have hne : (m == l) = false := by simpa using h
    simp only [read?, List.lookup_append, List.lookup_cons, hne, List.lookup_nil, Option.or_none]

/-- Writing a file that is there changes no place where something is. -/
theorem isFile_write (h : t.isFile l = true) (content : Bytes) (m : Location) :
    (t.write l content).isFile m = t.isFile m := by
  by_cases hm : m = l
  · rw [hm, h, isFile, read?_write, Option.isSome_some]
  · rw [isFile, isFile, read?_write_of_ne hm]

theorem isDirectory_write (h : t.isFile l = true) (content : Bytes) (m : Location) :
    (t.write l content).isDirectory m = t.isDirectory m := by
  have hwrite : t.write l content =
      { t with files := t.files.map fun entry => if entry.1 = l then (l, content) else entry } := by
    rw [write, if_pos h]
  have hbelow : ((t.write l content).files.any fun entry => m.isPrefixOf entry.1) =
      t.files.any fun entry => m.isPrefixOf entry.1 := by
    rw [hwrite, List.any_map]
    congr 1
    funext entry
    simp only [Function.comp_apply]
    split
    · rename_i hentry
      rw [hentry]
    · rfl
  have hdirectories : (t.write l content).directories = t.directories := by rw [hwrite]
  rw [isDirectory, isDirectory, isFile_write h, hdirectories, hbelow]

theorem walk?_write (h : t.isFile l = true) (content : Bytes) (m : Location) (names : List Name) :
    (t.write l content).walk? m names = t.walk? m names := by
  induction names generalizing m with
  | nil =>
      have hholds : (t.write l content).holds m = t.holds m := by
        rw [holds, holds, isFile_write h, isDirectory_write h]
      rw [walk?, walk?, hholds]
  | cons name names ih => rw [walk?, walk?, isDirectory_write h, ih]

theorem locate?_write (h : t.isFile l = true) (content : Bytes) (cwd : Location) (p : Path) :
    (t.write l content).locate? cwd p = t.locate? cwd p :=
  walk?_write h content _ p.parts

/-- What is written one after the other. -/
def writeAll (t : FileTree) (writes : List (Location × Bytes)) : FileTree :=
  writes.foldl (fun t entry => t.write entry.1 entry.2) t

theorem read?_writeAll_of_notMem {writes : List (Location × Bytes)} (h : m ∉ writes.map Prod.fst)
    (t : FileTree) : (t.writeAll writes).read? m = t.read? m := by
  induction writes generalizing t with
  | nil => rfl
  | cons entry writes ih =>
      rw [List.map_cons, List.mem_cons, not_or] at h
      exact (ih h.2 _).trans (read?_write_of_ne h.1 t entry.2)

/-- Of writes to different places each one lasts. -/
theorem read?_writeAll {writes : List (Location × Bytes)} (hnodup : (writes.map Prod.fst).Nodup)
    (t : FileTree) : ∀ entry ∈ writes, (t.writeAll writes).read? entry.1 = some entry.2 := by
  induction writes generalizing t with
  | nil => exact fun entry hentry => by cases hentry
  | cons first writes ih =>
      rw [List.map_cons, List.nodup_cons] at hnodup
      intro entry hentry
      rcases List.mem_cons.1 hentry with rfl | hentry
      · exact (read?_writeAll_of_notMem hnodup.1 _).trans (read?_write t entry.1 entry.2)
      · exact ih hnodup.2 _ entry hentry

end FileTree

namespace Diff

/-- The segment replaces lines. -/
def Segment.isChange : Segment → Bool
  | same _ => false
  | change _ _ => true

theorem olds_eq_news {s : Script} (h : s.any Segment.isChange = false) : s.olds = s.news := by
  induction s with
  | nil => rfl
  | cons x s ih =>
      rw [List.any_cons, Bool.or_eq_false_iff] at h
      have hx : x.old = x.new := by
        cases x with
        | same lines => rfl
        | change old new => cases h.1
      rw [Script.olds, Script.news, List.flatMap_cons, List.flatMap_cons, hx]
      exact congrArg _ (ih h.2)

theorem any_isChange_trimEnd (s : Script) :
    (trimEnd s).any Segment.isChange = s.any Segment.isChange := by
  fun_induction trimEnd s with
  | case1 => rfl
  | case2 lines => rfl
  | case3 x rest _ ih => rw [List.any_cons, List.any_cons, ih]

theorem Hunk.hasChange_eq (h : Hunk) : h.hasChange = h.script.any Segment.isChange := by
  refine congrArg h.script.any (funext fun s => ?_)
  cases s <;> rfl

/-- Cutting a script into hunks loses no change. -/
theorem Hunk.any_hasChange_ofScript (h : Hunk) (s : Script) :
    (h.ofScript s).any Hunk.hasChange = (h.hasChange || s.any Segment.isChange) := by
  have hpush : ∀ (h : Hunk) (x : Segment), (h.push x).hasChange = (h.hasChange || x.isChange) := by
    intro h x
    simp [Hunk.hasChange_eq, Hunk.push]
  fun_induction Hunk.ofScript h s with
  | case1 h => simp
  | case2 h lines rest _ ih =>
      have hnext : (h.next lines).hasChange = false := rfl
      rw [List.any_cons, hpush, ih, hnext, List.any_cons]
      simp [Segment.isChange]
  | case3 h lines rest _ ih =>
      rw [ih, hpush, List.any_cons, Bool.or_assoc]
  | case4 h old new rest ih =>
      rw [ih, hpush, List.any_cons, Bool.or_assoc]

theorem hunks_ne_nil {s : Script} (h : s.any Segment.isChange = true) : hunks s ≠ [] := by
  rw [← any_isChange_trimEnd] at h
  have hfound : ∀ (start : Hunk) (rest : Script), rest.any Segment.isChange = true →
      (start.ofScript rest).filter Hunk.hasChange ≠ [] := by
    intro start rest hrest hnil
    have hany : (start.ofScript rest).any Hunk.hasChange = true := by
      rw [Hunk.any_hasChange_ofScript, hrest, Bool.or_true]
    obtain ⟨k, hk, hchange⟩ := List.any_eq_true.1 hany
    exact List.not_mem_nil (hnil ▸ List.mem_filter.2 ⟨hk, hchange⟩)
  unfold hunks
  split
  · rename_i lines rest htrim
    rw [htrim, List.any_cons] at h
    exact hfound _ rest h
  · exact hfound _ _ h

theorem endLine_ne_nil {line : Line} (h : line ≠ []) : endLine line ≠ [] := by
  unfold endLine
  split
  · exact h
  · exact List.append_ne_nil_of_left_ne_nil h _

/-- Two different texts have a difference to show. -/
theorem unified_ne_nil {old new : List Char} (h : old ≠ new) (name : List Char) :
    unified name old new ≠ [] := by
  have hlines : Text.visibleLines old ≠ Text.visibleLines new := fun heq => h <| by
    rw [← Text.flatten_visibleLines old, heq, Text.flatten_visibleLines]
  -- a script without a change has the same old and new lines
  have hchange : (Script.between (Text.visibleLines old) (Text.visibleLines new)).any
      Segment.isChange = true := by
    by_contra hnone
    refine hlines ?_
    rw [← Script.olds_between (Text.visibleLines old) (Text.visibleLines new),
      olds_eq_news (by simpa using hnone), Script.news_between]
  unfold unified
  split
  · rename_i hnil
    exact absurd hnil (hunks_ne_nil hchange)
  · have hheader : "--- a/".toList ++ name ≠ [] :=
      List.append_ne_nil_of_left_ne_nil (by decide) name
    rw [List.append_assoc]
    exact List.append_ne_nil_of_left_ne_nil (endLine_ne_nil hheader) _

end Diff

theorem Surroundings.isFile_of_readText {w : Surroundings} {p : Path} {text : List Char}
    (h : w.readText p = .ok text) : w.tree.isFile (p.resolve w.cwd) = true := by
  cases hbytes : w.readBytes p with
  | error fault =>
      rw [readText, readExactly, hbytes] at h
      cases h
  | ok bytes => rw [FileTree.isFile, (of_readBytes hbytes).2, Option.isSome_some]

/-- A file reads the same after another one was written. -/
theorem Surroundings.readText_write {w : Surroundings} {l : Location} {p : Path}
    (hfile : w.tree.isFile l = true) (h : p.resolve w.cwd ≠ l) (content : Bytes) :
    Surroundings.readText { w with tree := w.tree.write l content } p = w.readText p := by
  have hbytes : Surroundings.readBytes { w with tree := w.tree.write l content } p =
      w.readBytes p := by
    simp only [readBytes, FileTree.locate?_write hfile]
    split
    · cases hlocate : w.tree.locate? w.cwd p with
      | none => rfl
      | some m =>
          have hm : m ≠ l := FileTree.eq_resolve_of_locate? hlocate ▸ h
          simp only [FileTree.read?_write_of_ne hm]
    · rfl
  rw [readText, readText, readExactly, readExactly, hbytes]

namespace Command

section Collection

variable {w : Surroundings} {ws : Workspace}

theorem nodup_distinct (cwd : Location) (paths : List Path) :
    ((distinct cwd paths).map (·.resolve cwd)).Nodup := by
  induction paths with
  | nil => exact List.nodup_nil
  | cons p paths ih =>
      rw [distinct, List.map_cons, List.nodup_cons]
      refine ⟨?_, ih.sublist (List.filter_sublist.map _)⟩
      intro hmem
      obtain ⟨q, hq, heq⟩ := List.mem_map.1 hmem
      exact of_decide_eq_true (List.mem_filter.1 hq).2 heq

/-- What exists is a file or a directory, so that it stands for files. -/
theorem exists_filesOf {file : String} (h : w.holds (pathOf ws file) = true) :
    ∃ paths, filesOf w ws file = .ok paths := by
  obtain ⟨l, hl⟩ := Option.isSome_iff_exists.1 h
  -- a walk only ends where something is
  have hkind : ∀ names m, w.tree.walk? m names = some l → w.tree.holds l = true := by
    intro names
    induction names with
    | nil =>
        intro m hm
        rw [FileTree.walk?, Option.ite_none_right_eq_some] at hm
        exact Option.some.inj hm.2 ▸ hm.1
    | cons name names ih =>
        intro m hm
        rw [FileTree.walk?, Option.ite_none_right_eq_some] at hm
        exact ih _ hm.2
  have hholds : (w.tree.isFile l || w.tree.isDirectory l) = true := hkind _ _ hl
  simp only [pathOf] at hl
  simp only [filesOf, Surroundings.isDirectory, Surroundings.isFile, hl, Option.any_some]
  cases hdirectory : w.tree.isDirectory l with
  | true => exact ⟨_, rfl⟩
  | false =>
      rw [hdirectory, Bool.or_false] at hholds
      rw [hholds]
      exact ⟨_, rfl⟩

/-- Files and directories that exist can be collected; no place is named twice then. -/
theorem exists_found {files : List String}
    (h : ∀ file ∈ files, w.holds (pathOf ws file) = true) :
    ∃ found, List.Forall₂ (fun file paths => filesOf w ws file = .ok paths) files found ∧
      collect w ws files = .ok (distinct w.cwd found.flatten) := by
  suffices traverse : ∃ found,
      List.Forall₂ (fun file paths => filesOf w ws file = .ok paths) files found ∧
        files.mapM (filesOf w ws) = .ok found by
    obtain ⟨found, hfiles, hfound⟩ := traverse
    refine ⟨found, hfiles, ?_⟩
    rw [collect, hfound]
    rfl
  induction files with
  | nil => exact ⟨[], .nil, rfl⟩
  | cons file files ih =>
      rw [List.forall_mem_cons] at h
      obtain ⟨first, hfirst⟩ := exists_filesOf h.1
      obtain ⟨rest, hfiles, hrest⟩ := ih h.2
      refine ⟨first :: rest, .cons hfirst hfiles, ?_⟩
      rw [List.mapM_cons, hfirst, hrest]
      rfl

theorem exists_collect {files : List String}
    (h : ∀ file ∈ files, w.holds (pathOf ws file) = true) :
    ∃ paths, collect w ws files = .ok paths ∧ (paths.map (·.resolve w.cwd)).Nodup := by
  obtain ⟨found, -, hcollect⟩ := exists_found h
  exact ⟨_, hcollect, nodup_distinct _ _⟩

end Collection

/-- A file that formatting changes, with its text before and behind. -/
structure Change where
  path : Path
  old : List Char
  new : List Char

section Changes

variable (w : Surroundings) (ws : Workspace)

def changeAt? (p : Path) : Option Change :=
  match w.readText p with
  | .error _ => none
  | .ok old =>
    if (formatText ws old).text = old then none else some ⟨p, old, (formatText ws old).text⟩

/-- The changes of files, in their order. -/
def changesOf (paths : List Path) : List Change :=
  paths.filterMap (changeAt? w ws)

/-- What a mode tells about a change. -/
def Change.event (mode : Log.Mode) (c : Change) : Event :=
  Visit.announce mode (displayOf w.cwd ws.root c.path) c.old c.new

/-- What a change writes. -/
def Change.write (cwd : Location) (c : Change) : Location × Bytes :=
  (c.path.resolve cwd, Utf8.encode c.new)

variable {w ws}

theorem changeAt?_eq_some {p : Path} {c : Change} :
    changeAt? w ws p = some c ↔
      c.path = p ∧ w.readText p = .ok c.old ∧ c.new = (formatText ws c.old).text ∧
        c.new ≠ c.old := by
  obtain ⟨path, old, new⟩ := c
  unfold changeAt?
  split
  · rename_i hread
    simp [hread]
  · rename_i text hread
    simp only [hread, Option.ite_none_left_eq_some, Option.some.injEq, Change.mk.injEq,
      Except.ok.injEq]
    constructor
    · rintro ⟨hne, rfl, rfl, rfl⟩
      exact ⟨rfl, rfl, rfl, hne⟩
    · rintro ⟨rfl, rfl, rfl, hne⟩
      exact ⟨hne, rfl, rfl, rfl⟩

theorem mem_changesOf {paths : List Path} {c : Change} :
    c ∈ changesOf w ws paths ↔
      c.path ∈ paths ∧ w.readText c.path = .ok c.old ∧ c.new = (formatText ws c.old).text ∧
        c.new ≠ c.old := by
  simp only [changesOf, List.mem_filterMap, changeAt?_eq_some]
  constructor
  · rintro ⟨p, hp, rfl, h⟩
    exact ⟨hp, h⟩
  · rintro ⟨hp, h⟩
    exact ⟨c.path, hp, rfl, h⟩

/-- Different files have their changes at different places. -/
theorem nodup_changesOf {paths : List Path} (h : (paths.map (·.resolve w.cwd)).Nodup) :
    ((changesOf w ws paths).map fun c => c.path.resolve w.cwd).Nodup := by
  refine h.sublist ?_
  clear h
  induction paths with
  | nil => exact .slnil
  | cons p paths ih =>
      rw [changesOf, List.filterMap_cons]
      cases hchange : changeAt? w ws p with
      | none => exact ih.cons _
      | some c =>
          obtain ⟨rfl, -⟩ := changeAt?_eq_some.1 hchange
          exact ih.cons_cons _

end Changes

section Visits

variable {w : Surroundings} {ws : Workspace}

theorem change?_ofPath (p : Path) :
    (Visit.ofPath w ws p).change? = (changeAt? w ws p).map Change.new := by
  rw [Visit.change?, Visit.ofPath, changeAt?]
  cases w.readText p with
  | error fault => rfl
  | ok old =>
      have hchanged : (formatText ws old).changed = ((formatText ws old).text != old) := rfl
      by_cases hsame : (formatText ws old).text = old
      · simp [hchanged, hsame]
      · simp [hchanged, hsame]

theorem write?_ofPath (p : Path) :
    (Visit.ofPath w ws p).write? w.cwd = (changeAt? w ws p).map (Change.write w.cwd) := by
  rw [Visit.write?, change?_ofPath, Option.map_map]
  cases hchange : changeAt? w ws p with
  | none => rfl
  | some c =>
      obtain ⟨rfl, -⟩ := changeAt?_eq_some.1 hchange
      rfl

theorem isUnreadable_ofPath (p : Path) :
    (Visit.ofPath w ws p).isUnreadable = true ↔ ∃ fault, w.readText p = .error fault := by
  rw [Visit.isUnreadable, Visit.ofPath]
  cases w.readText p with
  | error fault => simp
  | ok old => simp

/-- To standard output goes a change of the file, if there is one. -/
theorem output_ofPath (mode : Log.Mode) (p : Path) :
    (((Visit.ofPath w ws p).events mode).flatMap fun e => e.output.toList) =
      ((changeAt? w ws p).toList.map (Change.event w ws mode)).flatMap
        fun e => e.output.toList := by
  rw [Visit.events, Visit.ofPath, changeAt?]
  cases w.readText p with
  | error fault => rfl
  | ok old =>
      have hchanged : (formatText ws old).changed = ((formatText ws old).text != old) := rfl
      have hlogs : ∀ records : List Log.Record,
          ((records.map Event.log).flatMap fun e => e.output.toList) = [] := fun records => by
        rw [List.flatMap_map]
        exact List.flatMap_eq_nil_iff.2 fun _ _ => rfl
      by_cases hsame : (formatText ws old).text = old
      · simp [hchanged, hsame, hlogs]
      · simp [hchanged, hsame, hlogs, Change.event]

variable (w ws)

theorem countP_isChanged (paths : List Path) :
    (paths.map (Visit.ofPath w ws)).countP Visit.isChanged = (changesOf w ws paths).length := by
  rw [List.countP_map, changesOf, List.length_filterMap_eq_countP]
  refine List.countP_congr fun p _ => ?_
  simp [Visit.isChanged, change?_ofPath]

theorem filterMap_write? (paths : List Path) :
    (paths.map (Visit.ofPath w ws)).filterMap (Visit.write? w.cwd) =
      (changesOf w ws paths).map (Change.write w.cwd) := by
  rw [List.filterMap_map, changesOf, List.map_filterMap]
  exact List.filterMap_congr fun p _ => write?_ofPath p

theorem countP_isUnreadable (paths : List Path) :
    0 < (paths.map (Visit.ofPath w ws)).countP Visit.isUnreadable ↔
      ∃ p ∈ paths, ∃ fault, w.readText p = .error fault := by
  rw [List.countP_map, List.countP_pos_iff]
  simp only [Function.comp_apply, isUnreadable_ofPath]

theorem output_visits (mode : Log.Mode) (paths : List Path) :
    (((paths.map (Visit.ofPath w ws)).flatMap (Visit.events mode)).flatMap
        fun e => e.output.toList) =
      ((changesOf w ws paths).map (Change.event w ws mode)).flatMap fun e => e.output.toList := by
  induction paths with
  | nil => rfl
  | cons p paths ih =>
      have hcons : changesOf w ws (p :: paths) =
          (changeAt? w ws p).toList ++ changesOf w ws paths := by
        rw [changesOf, List.filterMap_cons]
        cases changeAt? w ws p <;> rfl
      rw [List.map_cons, List.flatMap_cons, List.flatMap_append, ih, output_ofPath, hcons,
        List.map_append, List.flatMap_append]

end Visits

section Turns

variable {ws : Workspace} {mode : Log.Mode}

/-- The surroundings that a visit leaves. -/
def Visit.leave (mode : Log.Mode) (w : Surroundings) (v : Visit) : Surroundings :=
  { w with tree := if mode = .write then w.tree.writeAll (v.write? w.cwd).toList else w.tree }

/-- Visits files one after the other, each in what the visits before have left. -/
def visitInTurn (ws : Workspace) (mode : Log.Mode) (w : Surroundings) :
    List Path → List Visit × Surroundings
  | [] => ([], w)
  | p :: paths =>
    let v := Visit.ofPath w ws p
    let (visits, last) := visitInTurn ws mode (v.leave mode w) paths
    (v :: visits, last)

/-- A visit changes nothing about what is found at another place. -/
theorem ofPath_leave {w : Surroundings} {p q : Path} (h : q.resolve w.cwd ≠ p.resolve w.cwd) :
    Visit.ofPath ((Visit.ofPath w ws p).leave mode w) ws q = Visit.ofPath w ws q := by
  have htext : ((Visit.ofPath w ws p).leave mode w).readText q = w.readText q := by
    rw [Visit.leave]
    split
    · rw [write?_ofPath]
      cases hchange : changeAt? w ws p with
      | none => rfl
      | some c =>
          obtain ⟨rfl, hread, -⟩ := changeAt?_eq_some.1 hchange
          exact Surroundings.readText_write (Surroundings.isFile_of_readText hread) h _
    · rfl
  rw [Visit.ofPath, htext]
  rfl

/-- The files are found as they were before the command. -/
theorem visitInTurn_eq {w : Surroundings} {paths : List Path}
    (h : (paths.map (·.resolve w.cwd)).Nodup) :
    visitInTurn ws mode w paths =
      (paths.map (Visit.ofPath w ws),
        { w with
          tree := (resultOf w.cwd mode (paths.map (Visit.ofPath w ws))).apply w.tree }) := by
  induction paths generalizing w with
  | nil =>
      have hnone : (resultOf w.cwd mode ([].map (Visit.ofPath w ws))).apply w.tree = w.tree := by
        cases mode <;> rfl
      rw [visitInTurn, hnone]
      rfl
  | cons p paths ih =>
      rw [List.map_cons, List.nodup_cons] at h
      -- the visits behind the first one start from what it leaves, and find what was there before
      have hcwd : ((Visit.ofPath w ws p).leave mode w).cwd = w.cwd := rfl
      have hfound : paths.map (Visit.ofPath ((Visit.ofPath w ws p).leave mode w) ws) =
          paths.map (Visit.ofPath w ws) := by
        refine List.map_congr_left fun q hq => ofPath_leave fun heq => ?_
        exact h.1 (heq ▸ List.mem_map_of_mem hq)
      have hleft : (resultOf w.cwd mode (paths.map (Visit.ofPath w ws))).apply
          ((Visit.ofPath w ws p).leave mode w).tree =
            (resultOf w.cwd mode ((p :: paths).map (Visit.ofPath w ws))).apply w.tree := by
        rw [Visit.leave, Result.apply, Result.apply, resultOf, resultOf]
        by_cases hmode : mode = .write
        · simp only [if_pos hmode, List.map_cons, List.filterMap_cons]
          cases (Visit.ofPath w ws p).write? w.cwd <;> rfl
        · simp only [if_neg hmode]
      rw [visitInTurn, ih (hcwd ▸ h.2), hcwd, hfound, hleft]
      rfl

end Turns

section Outcome

/-- What goes to standard output behind the changes. -/
def closing (mode : Log.Mode) (files changes : Nat) : List Event :=
  if files = 0 then [.outLine "No files to format"] else summary mode changes 0

theorem output_summary (mode : Log.Mode) (changes errors : Nat) :
    ((summary mode changes errors).flatMap fun e => e.output.toList) =
      (summary mode changes 0).flatMap fun e => e.output.toList := by
  have herrors : ((if errors = 0 then [] else
      [Event.notice s!"Encountered {errors} error(s)"]).flatMap fun e => e.output.toList) = [] := by
    split <;> rfl
  have hcons : ∀ e : Event, ((e :: if errors = 0 then [] else
      [Event.notice s!"Encountered {errors} error(s)"]).flatMap fun e => e.output.toList) =
        e.output.toList := fun e => by
    rw [List.flatMap_cons, herrors, List.append_nil]
  have hsingle : ∀ e : Event, ([e].flatMap fun e => e.output.toList) = e.output.toList :=
    fun e => List.append_nil _
  cases mode with
  | check =>
      by_cases hchanges : changes = 0
      · simp only [summary, hchanges, if_true, hcons, hsingle]
      · simp only [summary, hchanges, if_false]
  | diff => exact herrors
  | _ => simp only [summary, hcons, if_true, hsingle]

variable {w : Surroundings} {ws : Workspace} {paths : List Path} {mode : Log.Mode} {r : Result}

variable (w ws paths mode r) in
/-- What a run in a mode comes to. -/
structure Outcome : Prop where
  /-- The changes are told in the order of the files. -/
  output :
    r.output = Utf8.encode
      (((changesOf w ws paths).map (Change.event w ws mode) ++
        closing mode paths.length (changesOf w ws paths).length).flatMap fun e => e.output.toList)
  exits : r.status = .exit 0 ∨ r.status = .exit 1
  fails_iff :
    r.status = .exit 1 ↔
      (∃ p ∈ paths, ∃ fault, w.readText p = .error fault) ∨
        mode = .check ∧ changesOf w ws paths ≠ []
  writes :
    r.writes = if mode = .write then (changesOf w ws paths).map (Change.write w.cwd) else []
  kept : mode ≠ .write → r.apply w.tree = w.tree
  written : mode = .write → ∀ c ∈ changesOf w ws paths,
    (r.apply w.tree).read? (c.path.resolve w.cwd) = some (Utf8.encode c.new)
  others : ∀ l, (∀ c ∈ changesOf w ws paths, c.path.resolve w.cwd ≠ l) →
    (r.apply w.tree).read? l = w.tree.read? l

theorem Outcome.filter (h : Outcome w ws paths mode r) (level : Log.Level) :
    Outcome w ws paths mode { r with events := r.events.filter (Event.isTold level) } :=
  { h with
    output := by
      rw [← h.output, Result.output, flatMap_output_filter]
      rfl }

theorem outcome_nil :
    Outcome w ws [] mode { events := [.outLine "No files to format"] } where
  output := rfl
  exits := .inl rfl
  fails_iff := by simp [changesOf]
  writes := by split <;> rfl
  kept _ := rfl
  written _ c hc := by cases hc
  others _ _ := rfl

theorem outcome_resultOf (hne : paths ≠ []) (hnodup : (paths.map (·.resolve w.cwd)).Nodup) :
    Outcome w ws paths mode (resultOf w.cwd mode (paths.map (Visit.ofPath w ws))) := by
  have hkeys : ((changesOf w ws paths).map (Change.write w.cwd)).map Prod.fst =
      (changesOf w ws paths).map fun c => c.path.resolve w.cwd := by
    rw [List.map_map]
    rfl
  have hwrites : (resultOf w.cwd mode (paths.map (Visit.ofPath w ws))).writes =
      if mode = .write then (changesOf w ws paths).map (Change.write w.cwd) else [] := by
    rw [resultOf, filterMap_write?]
  have hkept : mode ≠ .write →
      (resultOf w.cwd mode (paths.map (Visit.ofPath w ws))).apply w.tree = w.tree := by
    intro hmode
    rw [Result.apply, hwrites, if_neg hmode, List.foldl_nil]
  have hwritten : mode = .write →
      (resultOf w.cwd mode (paths.map (Visit.ofPath w ws))).apply w.tree =
        w.tree.writeAll ((changesOf w ws paths).map (Change.write w.cwd)) := by
    intro hmode
    rw [Result.apply, hwrites, if_pos hmode, FileTree.writeAll]
  have hstatus : (resultOf w.cwd mode (paths.map (Visit.ofPath w ws))).status =
      .exit (if 0 < (paths.map (Visit.ofPath w ws)).countP Visit.isUnreadable ||
        (mode = .check && 0 < (paths.map (Visit.ofPath w ws)).countP Visit.isChanged)
        then 1 else 0) := rfl
  exact
    { output := by
        have hlength : paths.length ≠ 0 := by simpa using hne
        rw [Result.output, resultOf, List.flatMap_append, output_visits, output_summary,
          countP_isChanged, closing, if_neg hlength, List.flatMap_append]
      exits := by
        rw [hstatus]
        split
        · exact .inr rfl
        · exact .inl rfl
      fails_iff := by
        have hexit : ∀ b : Bool, Status.exit (if b then 1 else 0) = .exit 1 ↔ b = true := by decide
        rw [hstatus, hexit, Bool.or_eq_true, Bool.and_eq_true, decide_eq_true_eq, decide_eq_true_eq,
          decide_eq_true_eq, countP_isChanged, countP_isUnreadable, List.length_pos_iff]
      writes := hwrites
      kept := hkept
      written := by
        intro hmode c hc
        rw [hwritten hmode]
        exact FileTree.read?_writeAll (hkeys ▸ nodup_changesOf hnodup) w.tree _
          (List.mem_map_of_mem hc)
      others := by
        intro l hl
        by_cases hmode : mode = .write
        · rw [hwritten hmode]
          refine FileTree.read?_writeAll_of_notMem ?_ w.tree
          rw [hkeys, List.mem_map]
          rintro ⟨c, hc, heq⟩
          exact hl c hc heq
        · rw [hkept hmode] }

theorem outcome_formatFiles {request : FormatRequest}
    (hcollect : collect w ws request.files = .ok paths)
    (hnodup : (paths.map (·.resolve w.cwd)).Nodup) :
    ∃ result, formatFiles w ws request = .ok result ∧
      Outcome w ws paths request.mode result := by
  rw [formatFiles, hcollect]
  cases paths with
  | nil => exact ⟨_, rfl, outcome_nil⟩
  | cons p paths => exact ⟨_, rfl, outcome_resultOf (List.cons_ne_nil p paths) hnodup⟩

end Outcome

/-- The modes agree about what is to be changed. A check tells it, a diff shows each change, and
only the mode that writes changes files, and these alone. It makes no difference that files are
written between the visits. -/
theorem modes_agree {w : Surroundings} {g : Globals} {ws : Workspace} {files : List String}
    (hws : workspaceOf w g = .ok ws) (hfiles : ∀ file ∈ files, w.holds (pathOf ws file) = true) :
    ∃ paths, collect w ws files = .ok paths ∧
      (∀ c, c ∈ changesOf w ws paths ↔
        c.path ∈ paths ∧ w.readText c.path = .ok c.old ∧ c.new = (formatText ws c.old).text ∧
          c.new ≠ c.old) ∧
      (∀ c ∈ changesOf w ws paths, ∀ name, Diff.unified name c.old c.new ≠ []) ∧
      (∀ mode, visitInTurn ws mode w paths =
        (paths.map (Visit.ofPath w ws),
          { w with
            tree := (resultOf w.cwd mode (paths.map (Visit.ofPath w ws))).apply w.tree })) ∧
      ∀ (i : Invocation) (r : FormatRequest), i.surroundings = w →
        readArguments i.arguments = .ok (g, .format r) → r.files = files → r.stdin = false →
        (r.check && r.diff) = false → Outcome w ws paths r.mode (run i) := by
  obtain ⟨paths, hcollect, hnodup⟩ := exists_collect hfiles
  refine ⟨paths, hcollect, fun c => mem_changesOf, ?_, fun mode => visitInTurn_eq hnodup, ?_⟩
  · intro c hc name
    exact Diff.unified_ne_nil (mem_changesOf.1 hc).2.2.2.symm name
  · rintro i r rfl hargs rfl hstdin hmode
    obtain ⟨result, hresult, houtcome⟩ := outcome_formatFiles hcollect hnodup
    rw [run_format hargs hmode hws (by rw [hstdin]; exact hresult)]
    exact houtcome.filter _

/-- Of three files one is changed, one cannot be decoded and one is formatted already. -/
theorem modes_agree_three :
    let a : Location := [['a', '.', 'm', 's']]
    let b : Location := [['b', '.', 'm', 's']]
    let c : Location := [['c', '.', 'm', 's']]
    let w : Surroundings :=
      { tree := { files := [(a, [0x61, 0x3D, 0x31]), (b, [0xFF]), (c, [0x62])] } }
    let files := ["a.ms", "b.ms", "c.ms"]
    let check := run { surroundings := w, arguments := ["format", "--check"] ++ files }
    let write := run { surroundings := w, arguments := ["format"] ++ files }
    check.output =
        Utf8.encode "Would reformat a.ms\n1 file(s) would be reformatted\n".toList ∧
      check.status = .exit 1 ∧ write.status = .exit 1 ∧
      (write.apply w.tree).read? a = some [0x61, 0x20, 0x3D, 0x20, 0x31] ∧
      (write.apply w.tree).read? b = some [0xFF] := by
  intro a b c w files check write
  let ws : Workspace := { root := [] }
  have hws : workspaceOf w {} = .ok ws := rfl
  obtain ⟨paths, hcollect, -, -, -, hrun⟩ :=
    modes_agree hws (by decide : ∀ file ∈ files, w.holds (pathOf ws file) = true)
  have hpaths : paths = [⟨.root, a⟩, ⟨.root, b⟩, ⟨.root, c⟩] := by
    have hfound : collect w ws files = .ok [⟨.root, a⟩, ⟨.root, b⟩, ⟨.root, c⟩] := rfl
    rw [hfound] at hcollect
    exact (Except.ok.inj hcollect).symm
  subst hpaths
  have ha : w.readText ⟨.root, a⟩ = .ok ['a', '=', '1'] := by
    have hdecode : Utf8.decode [0x61, 0x3D, 0x31] = .ok ['a', '=', '1'] := by
      simp [Utf8.decode, Utf8.decodeFrom, Utf8.read, Utf8.lead?, Utf8.readTails, Except.map]
    have hbytes : w.readBytes ⟨.root, a⟩ = .ok [0x61, 0x3D, 0x31] := rfl
    rw [Surroundings.readText_eq, hbytes]
    simp only [Except.bind, hdecode]
    rfl
  have hc : w.readText ⟨.root, c⟩ = .ok ['b'] := by
    have hdecode : Utf8.decode [0x62] = .ok ['b'] := by
      simp [Utf8.decode, Utf8.decodeFrom, Utf8.read, Utf8.lead?, Utf8.readTails, Except.map]
    have hbytes : w.readBytes ⟨.root, c⟩ = .ok [0x62] := rfl
    rw [Surroundings.readText_eq, hbytes]
    simp only [Except.bind, hdecode]
    rfl
  obtain ⟨fault, hb⟩ : ∃ fault, w.readText ⟨.root, b⟩ = .error fault := by
    have hdecode : ∃ fault, Utf8.decode [0xFF] = .error fault := by
      simp [Utf8.decode, Utf8.decodeFrom, Utf8.read, Utf8.lead?]
    obtain ⟨fault, hfault⟩ := hdecode
    refine ⟨.undecodable fault, ?_⟩
    have hbytes : w.readBytes ⟨.root, b⟩ = .ok [0xFF] := rfl
    rw [Surroundings.readText_eq, hbytes]
    simp only [Except.bind, hfault]
    rfl
  have hformata : (formatText ws ['a', '=', '1']).text = ['a', ' ', '=', ' ', '1'] := by
    have hlayout : layOut ({} : Options).units ['a', '=', '1'] = ['a', ' ', '=', ' ', '1'] := by cbv
    exact hlayout
  have hformatc : (formatText ws ['b']).text = ['b'] := by
    have hlayout : layOut ({} : Options).units ['b'] = ['b'] := by cbv
    exact hlayout
  have hchanges : changesOf w ws [⟨.root, a⟩, ⟨.root, b⟩, ⟨.root, c⟩] =
      [⟨⟨.root, a⟩, ['a', '=', '1'], ['a', ' ', '=', ' ', '1']⟩] := by
    simp [changesOf, changeAt?, ha, hb, hc, hformata, hformatc]
  have hcheck := hrun { surroundings := w, arguments := ["format", "--check"] ++ files }
    { files, check := true } rfl rfl rfl rfl rfl
  have hwrite := hrun { surroundings := w, arguments := ["format"] ++ files }
    { files } rfl rfl rfl rfl rfl
  refine ⟨?_, hcheck.fails_iff.2 (.inl ⟨_, by simp, fault, hb⟩),
    hwrite.fails_iff.2 (.inl ⟨_, by simp, fault, hb⟩), ?_, ?_⟩
  · rw [hcheck.output, hchanges]
    exact congrArg Utf8.encode (by cbv)
  · exact hwrite.written rfl _ (by rw [hchanges]; exact List.mem_singleton.2 rfl)
  · refine hwrite.others b fun change hchange => ?_
    rw [hchanges, List.mem_singleton] at hchange
    rw [hchange]
    decide

end Command

end MiniScriptLayout
