import MiniScriptLayout.Command.Collection
import MiniScriptLayout.Command.Environment
import MiniScriptLayout.Command.Request
import MiniScriptLayout.Command.Visit
import MiniScriptLayout.Text.Lines

/-!
Running a command line. `run` says what is told, what is written and how the program ends; it
depends on nothing but its arguments.
-/

namespace MiniScriptLayout
namespace Command

/-- A command line, and all that a command depends on. -/
structure Invocation where
  surroundings : Surroundings := {}
  environment : Environment := fun _ => none
  input : Bytes := []
  arguments : List String := []

/-- A path that was given and is not empty. -/
def givenPath? (given : Option String) : Option Path :=
  (given.filter (· ≠ "")).map fun s => .ofText s.toList

/-- The workspace that a command works in. -/
def workspaceOf (w : Surroundings) (g : Globals) : Except Failure Workspace := do
  let root ← match givenPath? g.workspace with
    | none => pure w.cwd
    | some p => (w.resolve p).mapError .ofFile
  let named ← (givenPath? g.config).mapM fun p => (w.resolve p).mapError Failure.ofFile
  (Workspace.load w (.ofLocation root) (named.map .ofLocation)).mapError .ofLoad

/-- The lowest level that is told. A level that nobody knows is that of warnings. -/
def levelOf (env : Environment) (g : Globals) : Log.Level :=
  match g.logLevel.or (env .logLevel) with
  | none => .warning
  | some word => (Log.Level.ofWord? (String.ofList (Text.toLower word.toList))).getD .warning

def FormatRequest.mode (r : FormatRequest) : Log.Mode :=
  if r.check then .check else if r.diff then .diff else .write

/-- Formats standard input. -/
def formatInput (ws : Workspace) (input : Bytes) : Except Failure Result :=
  match Utf8.decode input with
  | .error fault => .error (.ofFile (.undecodable fault))
  | .ok text =>
    let text := Text.toLineFeeds text
    let formatted := formatText ws text
    let records := Log.ofRun .format (.ofFormatted "" .stdin formatted) (Layout.ofText text).report
    .ok { events := records.map .log ++ [.out formatted.text] }

/-- What a mode tells at the end: about changes, and then about errors. A check with changes ends at
once. -/
def summary (mode : Log.Mode) (changes errors : Nat) : List Event :=
  let all := Event.outLine "All files are already formatted"
  let errorLines :=
    if errors = 0 then [] else [Event.notice s!"Encountered {errors} error(s)"]
  match mode with
  | .check =>
    if changes = 0 then all :: errorLines
    else [.outLine s!"{changes} file(s) would be reformatted"]
  | .diff => errorLines
  | _ => (if changes = 0 then all else .outLine s!"Formatted {changes} file(s)") :: errorLines

/-- What comes of visits to files. Only the mode that writes changes any. -/
def resultOf (cwd : Location) (mode : Log.Mode) (visits : List Visit) : Result :=
  let changes := visits.countP Visit.isChanged
  let errors := visits.countP Visit.isUnreadable
  { events := visits.flatMap (Visit.events mode) ++ summary mode changes errors
    writes := if mode = .write then visits.filterMap (Visit.write? cwd) else []
    status := .exit (if 0 < errors || (mode = .check && 0 < changes) then 1 else 0) }

/-- Formats the files of a request. -/
def formatFiles (w : Surroundings) (ws : Workspace) (r : FormatRequest) :
    Except Failure Result := do
  match ← collect w ws r.files with
  | [] => return { events := [.outLine "No files to format"] }
  | paths => return resultOf w.cwd r.mode (paths.map (Visit.ofPath w ws))

/-- Checking and showing differences exclude each other. -/
def exclusion : Failure :=
  .command (.ofKind .validation "--check and --diff cannot be combined"
    "Use --check in CI and --diff to inspect changes" [])

def runFormat (i : Invocation) (g : Globals) (r : FormatRequest) : Except Failure Result := do
  if r.check && r.diff then throw exclusion
  let ws ← workspaceOf i.surroundings g
  if r.stdin then formatInput ws i.input else formatFiles i.surroundings ws r

/-- Starts the language server, once the workspace is found to be in order. -/
def runServe (i : Invocation) (g : Globals) : Except Failure Result := do
  let _ ← workspaceOf i.surroundings g
  return { events := [.serving] }

/-- A failure is told, or handed to the caller. -/
def Failure.result (env : Environment) (g : Globals) (f : Failure) : Result :=
  if env.reraises then { status := .raised f }
  else { events := [.failed (env.isVerbose g.verbose) f], status := .exit 1 }

/-- What is told about a command line that is answered at once. -/
def Stop.result : Stop → Result
  | help l => { events := [.out l.help.toList] }
  | version => { events := [.out versionLine.toList] }
  | idle => { events := [.out (Level.help .program).toList], status := .exit 1 }
  | misuse l m =>
    { events := [.notice (l.usage ++ l.title ++ ": error: " ++ m.message)], status := .exit 2 }

def run (i : Invocation) : Result :=
  match readArguments i.arguments with
  | .error stop => stop.result
  | .ok (g, request) =>
    let outcome :=
      match request with
      | .format r => runFormat i g r
      | .serve => runServe i g
    match outcome with
    | .error f => f.result i.environment g
    | .ok result =>
      { result with events := result.events.filter (Event.isTold (levelOf i.environment g)) }

/-- The places in a file tree that a command line depends on: where a configuration may be, and what
is to be formatted. -/
def placesOf (cwd : Location) (arguments : List String) : List Location :=
  match readArguments arguments with
  | .error _ => []
  | .ok (g, request) =>
    let root := Path.ofLocation (((givenPath? g.workspace).map (·.resolve cwd)).getD cwd)
    let configs := (givenPath? g.config).toList ++
      Workspace.configNames.map fun name => root.append ⟨.working, [name]⟩
    let files :=
      match request with
      | .format r => r.files.map fun file => root.append (.ofText file.toList)
      | .serve => []
    (configs ++ files).map (·.resolve cwd)

/-- The command line reads its standard input. -/
def readsInput (arguments : List String) : Bool :=
  match readArguments arguments with
  | .error _ => false
  | .ok (_, .format r) => r.stdin
  | .ok (_, .serve) => true

end Command
end MiniScriptLayout
