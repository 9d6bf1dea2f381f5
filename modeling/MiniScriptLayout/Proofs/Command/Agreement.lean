import Mathlib
import MiniScriptLayout.Command.Run
import MiniScriptLayout.Proofs.Text.Utf8

/-!
Formatting a file in place and formatting standard input. Both format the same text, which has line
feeds alone, but the file is written only if formatting changes that text.
-/

namespace MiniScriptLayout

namespace FileTree

variable {t : FileTree} {l m : Location} {content : Bytes}

theorem lookup_replace {files : List (Location × Bytes)} (h : (files.lookup l).isSome = true)
    (content : Bytes) :
    (files.map fun entry => if entry.1 = l then (l, content) else entry).lookup l =
      some content := by
  induction files with
  | nil => cases h
  | cons entry files ih =>
      rw [List.map_cons]
      by_cases hk : entry.1 = l
      · rw [if_pos hk, List.lookup_cons_self]
      · have hne : (l == entry.1) = false := by simpa using Ne.symm hk
        rw [List.lookup_cons, hne] at h
        rw [if_neg hk, List.lookup_cons, hne]
        exact ih h

/-- A file holds what was written to it last. -/
theorem read?_write (t : FileTree) (l : Location) (content : Bytes) :
    (t.write l content).read? l = some content := by
  unfold write
  split
  · rename_i hfile
    exact lookup_replace hfile content
  · rename_i hfile
    simp only [isFile, read?, Option.not_isSome_iff_eq_none] at hfile ⊢
    rw [List.lookup_append, hfile, Option.none_or, List.lookup_cons_self]

theorem eq_follow_of_walk? {names : List Name} (h : t.walk? l names = some m) :
    m = Path.follow l names := by
  induction names generalizing l with
  | nil =>
      rw [walk?, Option.ite_none_right_eq_some] at h
      exact (Option.some.inj h.2).symm
  | cons name names ih =>
      rw [walk?, Option.ite_none_right_eq_some] at h
      exact ih h.2

/-- What exists is where its path leads. -/
theorem eq_resolve_of_locate? {cwd : Location} {p : Path} (h : t.locate? cwd p = some l) :
    l = p.resolve cwd := by
  rw [eq_follow_of_walk? h, Path.resolve]
  cases p.anchor <;> rfl

end FileTree

theorem Surroundings.of_readBytes {w : Surroundings} {p : Path} {bytes : Bytes}
    (h : w.readBytes p = .ok bytes) :
    w.tree.locate? w.cwd p = some (p.resolve w.cwd) ∧
      w.tree.read? (p.resolve w.cwd) = some bytes := by
  unfold readBytes at h
  split at h
  · split at h
    · cases h
    · rename_i l hl
      split at h
      · cases h
      · rename_i bytes' hread
        cases h
        rw [← FileTree.eq_resolve_of_locate? hl]
        exact ⟨hl, hread⟩
  · cases h

namespace Command

open Text (toLineFeeds)

/-- The bytes that go to standard output. -/
def Result.output (r : Result) : Bytes :=
  Utf8.encode (r.events.flatMap fun e => e.output.toList)

/-- What is not told is no output. -/
theorem flatMap_output_filter (level : Log.Level) (events : List Event) :
    ((events.filter (Event.isTold level)).flatMap fun e => e.output.toList) =
      events.flatMap fun e => e.output.toList := by
  induction events with
  | nil => rfl
  | cons e events ih =>
      rw [List.filter_cons]
      split
      · rw [List.flatMap_cons, List.flatMap_cons, ih]
      · rename_i htold
        have hsilent : e.output = "" := by
          cases e with
          | log r => rfl
          | _ => exact absurd rfl htold
        rw [List.flatMap_cons, hsilent, ih]
        rfl

theorem output_formatInput (ws : Workspace) {input : Bytes} {text : List Char}
    (htext : Utf8.decode input = .ok text) :
    ∃ result, formatInput ws input = .ok result ∧
      (result.events.flatMap fun e => e.output.toList) =
        (formatText ws (toLineFeeds text)).text := by
  rw [formatInput, htext]
  refine ⟨_, rfl, ?_⟩
  rw [List.flatMap_append, List.flatMap_map]
  simp [Event.output]

/-- A request that is in order is carried out in its workspace. -/
theorem run_format {i : Invocation} {g : Globals} {r : FormatRequest} {ws : Workspace}
    {result : Result} (hargs : readArguments i.arguments = .ok (g, .format r))
    (hmode : (r.check && r.diff) = false) (hws : workspaceOf i.surroundings g = .ok ws)
    (hresult : (if r.stdin then formatInput ws i.input else formatFiles i.surroundings ws r) =
      .ok result) :
    run i =
      { result with events := result.events.filter (Event.isTold (levelOf i.environment g)) } := by
  have hrun : runFormat i g r = .ok result := by
    rw [runFormat, hmode, hws]
    exact hresult
  rw [run, hargs]
  simp only [hrun]

/-- Where an argument leads, which counts from the root of the workspace. -/
def pathOf (ws : Workspace) (argument : String) : Path :=
  (Path.ofLocation ws.root).append (.ofText argument.toList)

/-- An argument that is a file stands for itself. -/
theorem collect_file {w : Surroundings} {ws : Workspace} {file : String} {bytes : Bytes}
    (hread : w.readBytes (pathOf ws file) = .ok bytes) :
    collect w ws [file] = .ok [pathOf ws file] := by
  obtain ⟨hlocate, hbytes⟩ := Surroundings.of_readBytes hread
  have hfile : w.tree.isFile ((pathOf ws file).resolve w.cwd) = true := by
    rw [FileTree.isFile, hbytes]
    rfl
  have hisFile : w.isFile (pathOf ws file) = true := by
    rw [Surroundings.isFile, hlocate]
    exact hfile
  have hisDirectory : w.isDirectory (pathOf ws file) = false := by
    rw [Surroundings.isDirectory, hlocate, Option.any_some, FileTree.isDirectory, hfile]
    rfl
  have hfiles : filesOf w ws file = .ok [pathOf ws file] := by
    simp only [pathOf] at hisFile hisDirectory ⊢
    simp only [filesOf, hisDirectory, hisFile, Bool.false_eq_true, if_false, if_true]
  rw [collect, List.mapM_cons, hfiles]
  rfl

/-- Formatting one file in place writes it if that changes its text. -/
theorem read?_formatFiles {w : Surroundings} {ws : Workspace} {file : String} {bytes : Bytes}
    {text : List Char} (hread : w.readBytes (pathOf ws file) = .ok bytes)
    (htext : Utf8.decode bytes = .ok text) :
    ∃ result, formatFiles w ws { files := [file] } = .ok result ∧
      (result.apply w.tree).read? ((pathOf ws file).resolve w.cwd) =
        some (if (formatText ws (toLineFeeds text)).text = toLineFeeds text then bytes
          else Utf8.encode (formatText ws (toLineFeeds text)).text) := by
  have hreadText : w.readText (pathOf ws file) = .ok (toLineFeeds text) := by
    rw [Surroundings.readText, Surroundings.readExactly, hread]
    simp only [bind, Except.bind, htext]
    rfl
  rw [formatFiles, collect_file hread]
  refine ⟨_, rfl, ?_⟩
  simp only [Result.apply, resultOf, FormatRequest.mode, Bool.false_eq_true, if_false, if_true,
    List.map_cons, List.map_nil, List.filterMap_cons, List.filterMap_nil, Visit.write?,
    Visit.change?, Visit.ofPath, hreadText]
  have hchanged : (formatText ws (toLineFeeds text)).changed =
      ((formatText ws (toLineFeeds text)).text != toLineFeeds text) := rfl
  by_cases hsettled : (formatText ws (toLineFeeds text)).text = toLineFeeds text
  · simp only [hchanged, hsettled, bne_self_eq_false, Bool.false_eq_true, if_false, if_true,
      Option.map_none, List.foldl_nil]
    exact (Surroundings.of_readBytes hread).2
  · simp only [hchanged, bne_iff_ne.2 hsettled, if_neg hsettled, if_true, Option.map_some,
      List.foldl_cons, List.foldl_nil]
    exact FileTree.read?_write _ _ _

/-- What a file holds after it is formatted in place. -/
theorem read?_run {i : Invocation} {g : Globals} {ws : Workspace} {file : String} {bytes : Bytes}
    {text : List Char} (hargs : readArguments i.arguments = .ok (g, .format { files := [file] }))
    (hws : workspaceOf i.surroundings g = .ok ws)
    (hread : i.surroundings.readBytes (pathOf ws file) = .ok bytes)
    (htext : Utf8.decode bytes = .ok text) :
    ((run i).apply i.surroundings.tree).read? ((pathOf ws file).resolve i.surroundings.cwd) =
      some (if (formatText ws (toLineFeeds text)).text = toLineFeeds text then bytes
        else Utf8.encode (formatText ws (toLineFeeds text)).text) := by
  obtain ⟨result, hresult, hwritten⟩ := read?_formatFiles hread htext
  rw [run_format hargs rfl hws hresult]
  exact hwritten

/-- What standard input is formatted to. -/
theorem output_run {i : Invocation} {g : Globals} {r : FormatRequest} {ws : Workspace}
    {text : List Char} (hargs : readArguments i.arguments = .ok (g, .format r))
    (hstdin : r.stdin = true) (hmode : (r.check && r.diff) = false)
    (hws : workspaceOf i.surroundings g = .ok ws) (htext : Utf8.decode i.input = .ok text) :
    (run i).output = Utf8.encode (formatText ws (toLineFeeds text)).text := by
  obtain ⟨result, hresult, houtput⟩ := output_formatInput ws htext
  rw [run_format hargs hmode hws (by rw [if_pos hstdin]; exact hresult), Result.output,
    flatMap_output_filter, houtput]

/-- A file that is formatted in place holds what comes from standard input exactly if formatting
changes its text or no carriage return is in it: a file that is not changed keeps its line ends. -/
theorem read?_format_eq_output_iff {i j : Invocation} {g : Globals} {ws : Workspace}
    {file : String} {r : FormatRequest} {text : List Char}
    (hi : readArguments i.arguments = .ok (g, .format { files := [file] }))
    (hj : readArguments j.arguments = .ok (g, .format r)) (hstdin : r.stdin = true)
    (hmode : (r.check && r.diff) = false) (hsame : j.surroundings = i.surroundings)
    (hws : workspaceOf i.surroundings g = .ok ws)
    (hread : i.surroundings.readBytes (pathOf ws file) = .ok j.input)
    (htext : Utf8.decode j.input = .ok text) :
    ((run i).apply i.surroundings.tree).read? ((pathOf ws file).resolve i.surroundings.cwd) =
        some (run j).output ↔
      (formatText ws (toLineFeeds text)).text ≠ toLineFeeds text ∨ '\r' ∉ text := by
  rw [read?_run hi hws hread htext, output_run hj hstdin hmode (hsame ▸ hws) htext,
    Option.some.injEq]
  by_cases hsettled : (formatText ws (toLineFeeds text)).text = toLineFeeds text
  · rw [if_pos hsettled, hsettled, eq_comm, Utf8.encode_toLineFeeds htext]
    simp
  · rw [if_neg hsettled]
    simp [hsettled]

/-- The second line loses the blank before it, so that the file is written. -/
theorem read?_format_eq_output_blank :
    let bytes : Bytes := [0x61, 0x0D, 0x0A, 0x20, 0x62]
    let w : Surroundings := { tree := { files := [([['a', '.', 'm', 's']], bytes)] } }
    let i : Invocation := { surroundings := w, arguments := ["format", "a.ms"] }
    let j : Invocation := { surroundings := w, input := bytes, arguments := ["format", "--stdin"] }
    ((run i).apply w.tree).read? [['a', '.', 'm', 's']] = some (run j).output := by
  intro bytes w i j
  have hws : workspaceOf i.surroundings {} = .ok { root := [] } := rfl
  have htext : Utf8.decode bytes = .ok ['a', '\r', '\n', ' ', 'b'] := by
    simp [bytes, Utf8.decode, Utf8.decodeFrom, Utf8.read, Utf8.lead?, Utf8.readTails, Except.map]
  have hlayout : layOut ({} : Options).units ['a', '\n', ' ', 'b'] = ['a', '\n', 'b'] := by cbv
  have hformat : (formatText { root := [] } ['a', '\n', ' ', 'b']).text = ['a', '\n', 'b'] :=
    hlayout
  have hchanged : (formatText { root := [] } ['a', '\n', ' ', 'b']).text ≠
      ['a', '\n', ' ', 'b'] := by
    rw [hformat]
    decide
  exact (read?_format_eq_output_iff (i := i) (j := j) (g := {}) (r := { stdin := true }) rfl rfl rfl
    rfl rfl hws rfl htext).2 (.inl hchanged)

/-- A file that is formatted but for its line ends keeps them. -/
theorem read?_format_returns :
    let bytes : Bytes := [0x61, 0x0D, 0x0A, 0x62]
    let w : Surroundings := { tree := { files := [([['a', '.', 'm', 's']], bytes)] } }
    let i : Invocation := { surroundings := w, arguments := ["format", "a.ms"] }
    let j : Invocation := { surroundings := w, input := bytes, arguments := ["format", "--stdin"] }
    ((run i).apply w.tree).read? [['a', '.', 'm', 's']] = some bytes ∧
      (run j).output = [0x61, 0x0A, 0x62] := by
  intro bytes w i j
  have hws : workspaceOf w {} = .ok { root := [] } := rfl
  have htext : Utf8.decode bytes = .ok ['a', '\r', '\n', 'b'] := by
    simp [bytes, Utf8.decode, Utf8.decodeFrom, Utf8.read, Utf8.lead?, Utf8.readTails, Except.map]
  have hlayout : layOut ({} : Options).units ['a', '\n', 'b'] = ['a', '\n', 'b'] := by cbv
  have hformat : (formatText { root := [] } (toLineFeeds ['a', '\r', '\n', 'b'])).text =
      ['a', '\n', 'b'] :=
    hlayout
  refine ⟨?_, ?_⟩
  · have hread : w.readBytes (pathOf { root := [] } "a.ms") = .ok bytes := rfl
    refine (read?_run (i := i) (g := {}) rfl hws hread htext).trans ?_
    rw [hformat]
    rfl
  · refine (output_run (i := j) (g := {}) (r := { stdin := true }) rfl rfl rfl hws htext).trans ?_
    rw [hformat]
    rfl

end Command
end MiniScriptLayout
