import MiniScriptLayout.Proofs.Command.Modes
import MiniScriptLayout.Proofs.Workspace.Listing

/-!
The files that arguments stand for. Each place is taken once, where it comes up first: a file for
itself, and below a directory what the workspace lists there. An argument that leads nowhere is an
error, and then no file is changed.
-/

namespace MiniScriptLayout
namespace Command

section First

variable {cwd : Location} {p q : Path} {paths kept : List Path}

variable (cwd paths kept) in
/-- Of the paths to one place the first is kept, in the order of these. -/
structure KeepsFirst : Prop where
  places : ∀ l, l ∈ kept.map (·.resolve cwd) ↔ l ∈ paths.map (·.resolve cwd)
  first : ∀ p ∈ kept, paths.find? (fun q => q.resolve cwd = p.resolve cwd) = some p
  ordered : kept.Pairwise fun p q =>
    (paths.map (·.resolve cwd)).idxOf (p.resolve cwd) <
      (paths.map (·.resolve cwd)).idxOf (q.resolve cwd)

theorem keepsFirst_distinct (cwd : Location) (paths : List Path) :
    KeepsFirst cwd paths (distinct cwd paths) := by
  induction paths with
  | nil => exact ⟨fun _ => Iff.rfl, fun p hp => absurd hp List.not_mem_nil, .nil⟩
  | cons p paths ih =>
      have hother : ∀ q ∈ (distinct cwd paths).filter fun q => q.resolve cwd ≠ p.resolve cwd,
          q ∈ distinct cwd paths ∧ p.resolve cwd ≠ q.resolve cwd := by
        intro q hq
        obtain ⟨hq, hne⟩ := List.mem_filter.1 hq
        exact ⟨hq, Ne.symm (of_decide_eq_true hne)⟩
      -- behind the first path, every other place is as far away as before and one more
      have hindex : ∀ {q : Path}, p.resolve cwd ≠ q.resolve cwd →
          ((p :: paths).map (·.resolve cwd)).idxOf (q.resolve cwd) =
            (paths.map (·.resolve cwd)).idxOf (q.resolve cwd) + 1 :=
        fun hne => List.idxOf_cons_ne _ hne
      rw [distinct]
      refine ⟨fun l => ?_, fun q hq => ?_, ?_⟩
      · rw [List.map_cons, List.map_cons, List.mem_cons, List.mem_cons, ← ih.places]
        by_cases hl : l = p.resolve cwd
        · simp [hl]
        · simp only [hl, false_or, List.mem_map, List.mem_filter, decide_eq_true_eq]
          constructor
          · rintro ⟨q, ⟨hq, -⟩, rfl⟩
            exact ⟨q, hq, rfl⟩
          · rintro ⟨q, hq, rfl⟩
            exact ⟨q, ⟨hq, hl⟩, rfl⟩
      · rcases List.mem_cons.1 hq with rfl | hq
        · simp
        · obtain ⟨hq, hne⟩ := hother q hq
          rw [List.find?_cons_of_neg (by simpa using hne)]
          exact ih.first q hq
      · rw [List.pairwise_cons]
        constructor
        · intro q hq
          rw [hindex (hother q hq).2, List.map_cons, List.idxOf_cons_self]
          exact Nat.succ_pos _
        · refine (ih.ordered.filter _).imp_of_mem fun hq hr h => ?_
          rw [hindex (hother _ hq).2, hindex (hother _ hr).2]
          exact Nat.succ_lt_succ h

end First

variable {w : Surroundings} {ws : Workspace} {argument : String} {arguments : List String}
  {found : List Path}

variable (w ws argument) in
/-- The files that an argument stands for. -/
inductive StandsFor : List Path → Prop
  /-- A file that is named is taken, whatever its name. -/
  | file (hfile : w.isFile (pathOf ws argument) = true) : StandsFor [pathOf ws argument]
  /-- Below a directory is what the workspace lists, in order. -/
  | directory {l : Location} {found : List Path}
      (hl : w.tree.locate? w.cwd (pathOf ws argument) = some l)
      (hdirectory : w.tree.isDirectory l = true)
      (hsorted : found.Pairwise fun p q => Location.le p.parts q.parts = true)
      (hfound : ∀ p, p ∈ found ↔ ws.Lists w (pathOf ws argument) l p) : StandsFor found

/-- What is said about an argument that leads nowhere. -/
def missing (ws : Workspace) (argument : String) : Error :=
  .ofKind .fileNotFound ("Path not found: " ++ argument) "Pass existing files or directories"
    [("path", (pathOf ws argument).string)]

theorem filesOf_eq (w : Surroundings) (ws : Workspace) (argument : String) :
    filesOf w ws argument =
      if w.isDirectory (pathOf ws argument) then .ok (ws.sources w (pathOf ws argument))
      else if w.isFile (pathOf ws argument) then .ok [pathOf ws argument]
      else .error (.command (missing ws argument)) :=
  rfl

theorem standsFor_filesOf (h : filesOf w ws argument = .ok found) :
    StandsFor w ws argument found := by
  rw [filesOf_eq] at h
  split at h
  · rename_i hdirectory
    obtain ⟨l, hl, hl'⟩ := (Option.any_eq_true _ _).1 hdirectory
    cases h
    exact .directory hl hl' (Workspace.sorted_sources w ws _) fun p => Workspace.mem_sources hl hl'
  · split at h
    · rename_i hfile
      cases h
      exact .file hfile
    · cases h

/-- In a proper tree an argument stands for files. -/
theorem StandsFor.isFile (h : StandsFor w ws argument found) (htree : w.tree.Proper) :
    ∀ p ∈ found, w.isFile p = true := by
  cases h with
  | file hfile =>
      intro p hp
      rw [List.mem_singleton.1 hp]
      exact hfile
  | directory hl _ _ hfound => exact fun p hp => ((hfound p).1 hp).isFile htree hl

theorem isFile_of_standsFor {found : List (List Path)} (htree : w.tree.Proper)
    (h : List.Forall₂ (StandsFor w ws) arguments found) :
    ∀ p ∈ found.flatten, w.isFile p = true := by
  induction h with
  | nil => simp
  | cons hfirst _ ih =>
      rw [List.flatten_cons, List.forall_mem_append]
      exact ⟨hfirst.isFile htree, ih⟩

theorem filesOf_missing (h : w.holds (pathOf ws argument) = false) :
    filesOf w ws argument = .error (.command (missing ws argument)) := by
  have hnone : w.tree.locate? w.cwd (pathOf ws argument) = none := by
    simpa [Surroundings.holds] using h
  have hdirectory : w.isDirectory (pathOf ws argument) = false := by
    rw [Surroundings.isDirectory, hnone]
    rfl
  have hfile : w.isFile (pathOf ws argument) = false := by
    rw [Surroundings.isFile, hnone]
    rfl
  rw [filesOf_eq, hdirectory, hfile]
  rfl

/-- The first argument that leads nowhere is the error, whatever the others stand for. -/
theorem collect_missing
    (h : arguments.find? (fun argument => !w.holds (pathOf ws argument)) = some argument) :
    collect w ws arguments = .error (.command (missing ws argument)) := by
  have hfiles : arguments.mapM (filesOf w ws) = .error (.command (missing ws argument)) := by
    induction arguments with
    | nil => cases h
    | cons first arguments ih =>
        rw [List.mapM_cons]
        cases hholds : w.holds (pathOf ws first) with
        | false =>
            rw [List.find?_cons_of_pos (by simp [hholds]), Option.some.injEq] at h
            rw [filesOf_missing hholds, h]
            rfl
        | true =>
            rw [List.find?_cons_of_neg (by simp [hholds])] at h
            obtain ⟨found, hfound⟩ := exists_filesOf hholds
            rw [hfound, ih h]
            rfl
  rw [collect, hfiles]
  rfl

section Run

variable {i : Invocation} {g : Globals} {r : FormatRequest} {f : Failure}

theorem run_of_error (hargs : readArguments i.arguments = .ok (g, .format r))
    (h : runFormat i g r = .error f) : run i = f.result i.environment g := by
  rw [run, hargs]
  simp only [h]

theorem writes_result (env : Environment) (g : Globals) (f : Failure) :
    (f.result env g).writes = [] := by
  unfold Failure.result
  split <;> rfl

theorem writes_formatInput {input : Bytes} {result : Result}
    (h : formatInput ws input = .ok result) : result.writes = [] := by
  unfold formatInput at h
  split at h
  · cases h
  · cases h
    rfl

theorem runFormat_eq (hmode : (r.check && r.diff) = false)
    (hws : workspaceOf i.surroundings g = .ok ws) :
    runFormat i g r =
      if r.stdin then formatInput ws i.input else formatFiles i.surroundings ws r := by
  rw [runFormat, hmode, hws]
  rfl

theorem formatFiles_of_error (hcollect : collect w ws r.files = .error f) :
    formatFiles w ws r = .error f := by
  rw [formatFiles, hcollect]
  rfl

/-- A command whose files cannot be collected writes nothing, in any mode. -/
theorem writes_run_of_error (hargs : readArguments i.arguments = .ok (g, .format r))
    (hws : workspaceOf i.surroundings g = .ok ws)
    (hcollect : collect i.surroundings ws r.files = .error f) : (run i).writes = [] := by
  cases hmode : r.check && r.diff with
  | true =>
      have hexclusion : runFormat i g r = .error exclusion := by
        rw [runFormat, hmode]
        rfl
      rw [run_of_error hargs hexclusion, writes_result]
  | false =>
      have hformat := runFormat_eq hmode hws
      cases hresult : runFormat i g r with
      | error fault => rw [run_of_error hargs hresult, writes_result]
      | ok result =>
          rw [hresult] at hformat
          cases hstdin : r.stdin with
          | false =>
              rw [hstdin, formatFiles_of_error hcollect] at hformat
              cases hformat
          | true =>
              rw [hstdin, if_pos rfl] at hformat
              rw [run_format hargs hmode hws (by rw [hstdin, if_pos rfl]; exact hformat.symm)]
              change result.writes = []
              exact writes_formatInput hformat.symm

end Run

/-- Arguments that all lead somewhere stand for the files that they name and those that the workspace
lists below them, each place once and where it comes up first. One that leads nowhere is an error,
and the command changes no file. -/
theorem collect_exact (w : Surroundings) (ws : Workspace) (arguments : List String) :
    ((∀ argument ∈ arguments, w.holds (pathOf ws argument) = true) →
      ∃ found paths, List.Forall₂ (StandsFor w ws) arguments found ∧
        collect w ws arguments = .ok paths ∧ KeepsFirst w.cwd found.flatten paths ∧
        (paths.map (·.resolve w.cwd)).Nodup ∧ (w.tree.Proper → ∀ p ∈ paths, w.isFile p = true)) ∧
    ((∃ argument ∈ arguments, w.holds (pathOf ws argument) = false) →
      ∃ argument e,
        arguments.find? (fun argument => !w.holds (pathOf ws argument)) = some argument ∧
        collect w ws arguments = .error (.command e) ∧ e.kind = some .fileNotFound ∧
        e.message = "Path not found: " ++ argument ∧
        ∀ (i : Invocation) (g : Globals) (r : FormatRequest), i.surroundings = w →
          readArguments i.arguments = .ok (g, .format r) → r.files = arguments →
          workspaceOf w g = .ok ws → (run i).writes = [] ∧ (run i).apply w.tree = w.tree ∧
            (r.stdin = false → (r.check && r.diff) = false →
              run i = (Failure.command e).result i.environment g)) := by
  constructor
  · intro h
    obtain ⟨found, hfiles, hcollect⟩ := exists_found h
    have hstands := hfiles.imp fun _ _ => standsFor_filesOf
    refine ⟨found, _, hstands, hcollect, keepsFirst_distinct _ _, nodup_distinct _ _, ?_⟩
    intro htree p hp
    have hfirst := (keepsFirst_distinct w.cwd found.flatten).first p hp
    exact isFile_of_standsFor htree hstands p (List.mem_of_find?_eq_some hfirst)
  · rintro ⟨argument, hmem, hmissing⟩
    obtain ⟨first, hfirst⟩ : ∃ first,
        arguments.find? (fun argument => !w.holds (pathOf ws argument)) = some first :=
      Option.isSome_iff_exists.1 (List.find?_isSome.2 ⟨argument, hmem, by simp [hmissing]⟩)
    have hcollect := collect_missing hfirst
    refine ⟨first, missing ws first, hfirst, hcollect, rfl, rfl, ?_⟩
    rintro i g r rfl hargs rfl hws
    have hwrites := writes_run_of_error hargs hws hcollect
    refine ⟨hwrites, by rw [Result.apply, hwrites, List.foldl_nil], fun hstdin hmode => ?_⟩
    refine run_of_error hargs ((runFormat_eq hmode hws).trans ?_)
    rw [hstdin]
    exact formatFiles_of_error hcollect

/-- A file that a pattern excludes is taken if it is named, and one that was named by a detour is not
taken again. With an argument that leads nowhere nothing is written. -/
theorem collect_exact_detour :
    let a : Name := ['a', '.', 'm', 's']
    let b : Name := ['b', '.', 'm', 's']
    let g : Name := ['g', '.', 'm', 's']
    let w : Surroundings :=
      { tree := { files := [([b], []), ([['l'], g], []), ([['l'], a], [0x61, 0x3D, 0x31])] } }
    let ws : Workspace := { root := [], files := { exclude := [['g', '*']] } }
    let paths : List Path :=
      [⟨.root, [['l'], g]⟩, ⟨.root, [['l'], a]⟩, ⟨.root, [['l'], ['.', '.'], b]⟩]
    collect w ws ["l/g.ms", "l", "l/../b.ms", "."] = .ok paths ∧
      (∀ p ∈ paths, w.isFile p = true) ∧
      (run { surroundings := w, arguments := ["format", "l", "c.ms"] }).writes = [] := by
  intro a b g w ws paths
  have hproper : w.tree.Proper := ⟨by decide, by decide⟩
  have hcollect : collect w ws ["l/g.ms", "l", "l/../b.ms", "."] = .ok paths := by
    have hnamed : filesOf w ws "l/g.ms" = .ok [⟨.root, [['l'], g]⟩] := rfl
    have hlisted : filesOf w ws "l" = .ok [⟨.root, [['l'], a]⟩] := by cbv
    have hdetour : filesOf w ws "l/../b.ms" = .ok [⟨.root, [['l'], ['.', '.'], b]⟩] := rfl
    have hroot : filesOf w ws "." = .ok [⟨.root, [b]⟩, ⟨.root, [['l'], a]⟩] := by cbv
    simp only [collect, List.mapM_cons, hnamed, hlisted, hdetour, hroot]
    rfl
  obtain ⟨_, _, -, hfound, -, -, hfiles⟩ :=
    (collect_exact w ws ["l/g.ms", "l", "l/../b.ms", "."]).1 (by decide)
  rw [hcollect] at hfound
  cases hfound
  obtain ⟨_, _, -, -, -, -, hrun⟩ :=
    (collect_exact w { root := [] } ["l", "c.ms"]).2 ⟨"c.ms", by simp, by decide⟩
  exact ⟨hcollect, hfiles hproper,
    (hrun _ {} { files := ["l", "c.ms"] } rfl rfl rfl rfl).1⟩

end Command
end MiniScriptLayout
