import MiniScriptLayout.Proofs.Command.Agreement

/-!
The files below a directory. They are those of the tree whose location goes on from that of the
directory, sorted by their names; of these a workspace has the ones with its extensions that no
pattern excludes. In a proper tree the path of each leads to it.
-/

namespace MiniScriptLayout

namespace Location

theorem below?_eq_some {l m names : Location} : below? l m = some names ↔ m = l ++ names := by
  induction l generalizing m with
  | nil => simp [below?]
  | cons k l ih =>
      cases m with
      | nil => simp [below?]
      | cons n m =>
          rw [below?, List.cons_append, List.cons.injEq]
          by_cases hk : k = n
          · rw [if_pos hk, ih]
            simp [hk]
          · rw [if_neg hk]
            simp [Ne.symm hk]

theorem le_append (l m n : Location) : le (l ++ m) (l ++ n) = le m n := by
  induction l with
  | nil => rfl
  | cons k l ih => rw [List.cons_append, List.cons_append, le, if_pos rfl, ih]

theorem le_cons {a b : Name} {l m : Location} :
    le (a :: l) (b :: m) = true ↔ a < b ∨ a = b ∧ le l m = true := by
  rw [le]
  by_cases hab : a = b
  · simp [hab]
  · simp [hab]

theorem le_trans {l m n : Location} (h : le l m = true) (k : le m n = true) : le l n = true := by
  induction l generalizing m n with
  | nil => rfl
  | cons a l ih =>
      cases m with
      | nil => cases h
      | cons b m =>
          cases n with
          | nil => cases k
          | cons c n =>
              rw [le_cons] at h k ⊢
              rcases h with hab | ⟨rfl, h⟩
              · rcases k with hbc | ⟨rfl, -⟩
                · exact .inl (lt_trans hab hbc)
                · exact .inl hab
              · rcases k with hac | ⟨rfl, k⟩
                · exact .inl hac
                · exact .inr ⟨rfl, ih h k⟩

theorem le_total (l m : Location) : le l m = true ∨ le m l = true := by
  induction l generalizing m with
  | nil => exact .inl rfl
  | cons a l ih =>
      cases m with
      | nil => exact .inr rfl
      | cons b m =>
          rw [le_cons, le_cons]
          obtain h | rfl | h := lt_trichotomy a b
          · exact .inl (.inl h)
          · exact (ih m).imp (fun h => .inr ⟨rfl, h⟩) fun h => .inr ⟨rfl, h⟩
          · exact .inr (.inl h)

end Location

namespace FileTree

variable {t : FileTree} {l m : Location} {names more : List Name}

theorem isFile_iff : t.isFile l = true ↔ ∃ entry ∈ t.files, entry.1 = l := by
  rw [isFile, read?, Option.isSome_iff_ne_none, Ne, List.lookup_eq_none_iff]
  simp only [bne_iff_ne, ne_eq, not_forall, not_not, exists_prop]
  exact exists_congr fun entry => and_congr_right fun _ => eq_comm

/-- What is listed for a directory. -/
theorem mem_filesBelow : names ∈ t.filesBelow l ↔ names ≠ [] ∧ t.isFile (l ++ names) = true := by
  rw [filesBelow, List.mem_mergeSort, List.mem_filterMap, isFile_iff]
  constructor
  · rintro ⟨entry, hentry, h⟩
    split at h
    · rename_i name rest hbelow
      cases h
      exact ⟨List.cons_ne_nil _ _, entry, hentry, Location.below?_eq_some.1 hbelow⟩
    · cases h
  · rintro ⟨hne, entry, hentry, h⟩
    refine ⟨entry, hentry, ?_⟩
    obtain ⟨name, rest, rfl⟩ := List.exists_cons_of_ne_nil hne
    rw [Location.below?_eq_some.2 h]

theorem sorted_filesBelow (t : FileTree) (l : Location) :
    (t.filesBelow l).Pairwise fun m n => Location.le m n = true :=
  @List.pairwise_mergeSort _ Location.le (fun _ _ _ => Location.le_trans)
    (fun m n => (Bool.or_eq_true _ _).mpr (Location.le_total m n)) _

/-- What files and directories make up: no name leads up, and nothing lies below a file. -/
structure Proper (t : FileTree) : Prop where
  descends : ∀ entry ∈ t.files, Path.parentName ∉ entry.1
  apart : ∀ entry ∈ t.files, ∀ other ∈ t.files, entry.1 <+: other.1 → entry.1 = other.1

theorem walk?_append (h : t.walk? l names = some m) :
    t.walk? l (names ++ more) = t.walk? m more := by
  induction names generalizing l with
  | nil =>
      rw [walk?, Option.ite_none_right_eq_some] at h
      rw [List.nil_append, Option.some.inj h.2]
  | cons name names ih =>
      rw [walk?, Option.ite_none_right_eq_some] at h
      rw [List.cons_append, walk?, if_pos h.1, ih h.2]

namespace Proper

/-- A file lies in directories. -/
theorem isDirectory (ht : t.Proper) (hfile : t.isFile (l ++ names) = true) (hne : names ≠ []) :
    t.isDirectory l = true := by
  obtain ⟨entry, hentry, heq⟩ := isFile_iff.1 hfile
  have hprefix : l <+: entry.1 := ⟨names, heq.symm⟩
  have hnot : t.isFile l = false := by
    refine Bool.eq_false_iff.2 fun hl => ?_
    obtain ⟨other, hother, rfl⟩ := isFile_iff.1 hl
    have happend := (ht.apart other hother entry hentry hprefix).trans heq
    exact hne (List.append_right_eq_self.1 happend.symm)
  rw [FileTree.isDirectory, hnot]
  simp only [Bool.not_false, Bool.true_and, Bool.or_eq_true, List.any_eq_true]
  exact .inr ⟨entry, hentry, List.isPrefixOf_iff_prefix.2 hprefix⟩

/-- The names below a directory lead to the file. -/
theorem walk?_file (ht : t.Proper) (hfile : t.isFile (l ++ names) = true) :
    t.walk? l names = some (l ++ names) := by
  induction names generalizing l with
  | nil =>
      rw [List.append_nil] at hfile ⊢
      rw [walk?, holds, hfile, Bool.true_or, if_pos rfl]
  | cons name names ih =>
      have hname : name ≠ Path.parentName := by
        rintro rfl
        obtain ⟨entry, hentry, heq⟩ := isFile_iff.1 hfile
        exact ht.descends entry hentry (by simp [heq])
      have hstep : Path.follow l [name] = l ++ [name] := by
        simp [Path.follow, hname]
      rw [List.append_cons] at hfile ⊢
      rw [walk?, if_pos (ht.isDirectory (by simpa using hfile) (List.cons_ne_nil name names)),
        hstep, ih hfile]

end Proper

end FileTree

namespace Workspace

variable {w : Surroundings} {ws : Workspace} {directory : Path} {l : Location} {p : Path}

variable (w ws directory l p) in
/-- The path leads on from a directory to a file of the workspace: one with an extension of the
workspace that no pattern excludes. -/
def Lists : Prop :=
  ∃ names, names ≠ [] ∧ w.tree.isFile (l ++ names) = true ∧
    p = directory.append ⟨.working, names⟩ ∧ p.suffix ∈ ws.files.extensions ∧
    ∀ pattern ∈ ws.files.exclude,
      Glob.isMatch pattern (Config.FileSettings.shownPath ws.root w.cwd p) = false ∧
        Glob.isMatch pattern p.name = false

theorem excludes_eq_false (s : Config.FileSettings) (root cwd : Location) (p : Path) :
    s.excludes root cwd p = false ↔ ∀ pattern ∈ s.exclude,
      Glob.isMatch pattern (Config.FileSettings.shownPath root cwd p) = false ∧
        Glob.isMatch pattern p.name = false := by
  simp [Config.FileSettings.excludes]

theorem mem_sources (hl : w.tree.locate? w.cwd directory = some l)
    (hdirectory : w.tree.isDirectory l = true) :
    p ∈ ws.sources w directory ↔ ws.Lists w directory l p := by
  have hsources : ws.sources w directory =
      ((w.tree.filesBelow l).map fun names => directory.append ⟨.working, names⟩).filter fun p =>
        ws.files.selects p && !ws.files.excludes ws.root w.cwd p := by
    rw [sources, hl]
    exact if_pos hdirectory
  rw [hsources, List.mem_filter, List.mem_map, Bool.and_eq_true, Bool.not_eq_true',
    excludes_eq_false, Config.FileSettings.selects, List.contains_iff_mem, Lists]
  simp only [FileTree.mem_filesBelow]
  constructor
  · rintro ⟨⟨names, ⟨hne, hfile⟩, rfl⟩, hselects, hexcludes⟩
    exact ⟨names, hne, hfile, rfl, hselects, hexcludes⟩
  · rintro ⟨names, hne, hfile, rfl, hselects, hexcludes⟩
    exact ⟨⟨names, ⟨hne, hfile⟩, rfl⟩, hselects, hexcludes⟩

/-- Paths of one directory are sorted as their names are. -/
theorem sorted_sources (w : Surroundings) (ws : Workspace) (directory : Path) :
    (ws.sources w directory).Pairwise fun p q => Location.le p.parts q.parts = true := by
  unfold sources
  split
  · exact .nil
  · split
    · refine List.Pairwise.filter _ (List.pairwise_map.2 ?_)
      refine (FileTree.sorted_filesBelow w.tree _).imp fun h => ?_
      exact (Location.le_append _ _ _).trans h
    · exact .nil

/-- In a proper tree a listed path leads to a file. -/
theorem Lists.isFile (h : ws.Lists w directory l p) (htree : w.tree.Proper)
    (hl : w.tree.locate? w.cwd directory = some l) : w.isFile p = true := by
  obtain ⟨names, -, hfile, rfl, -⟩ := h
  have hlocate : w.tree.locate? w.cwd (directory.append ⟨.working, names⟩) = some (l ++ names) :=
    (FileTree.walk?_append hl).trans (htree.walk?_file hfile)
  rw [Surroundings.isFile, hlocate]
  exact hfile

end Workspace

end MiniScriptLayout
