import MiniScriptLayout.Diagnostic
import MiniScriptLayout.Workspace.Loading

/-!
Why a command fails, and how that is shown: command errors with a code and a context, diagnostics,
and errors that the system reports.
-/

namespace MiniScriptLayout
namespace Command

/-- The kinds of command errors. -/
inductive Kind where
  | config
  | validation
  | runtime
  | fileNotFound
  deriving DecidableEq, Repr

namespace Kind

def name : Kind → String
  | config => "CLIConfigError"
  | validation => "CLIValidationError"
  | runtime => "CLIRuntimeError"
  | fileNotFound => "CLIFileNotFoundError"

def code : Kind → String
  | config => "CLI_CONFIG_ERROR"
  | validation => "CLI_VALIDATION_ERROR"
  | runtime => "CLI_RUNTIME_ERROR"
  | fileNotFound => "CLI_FILE_NOT_FOUND"

end Kind

/-- What is known about an error, by name, in the order in which it was learnt. -/
abbrev Context := List (String × String)

/-- Sets a value. A name that is there keeps its place. -/
def Context.set (c : Context) (key value : String) : Context :=
  if c.any (·.1 == key) then c.map fun entry => if entry.1 = key then (key, value) else entry
  else c ++ [(key, value)]

/-- Of two values of one name the later one counts. -/
def Context.ofList (entries : List (String × String)) : Context :=
  entries.foldl (fun c entry => c.set entry.1 entry.2) []

/-- An error that a command finds. It need not be of a kind. -/
structure Error where
  kind : Option Kind
  code : String
  message : String
  hint : Option String := none
  context : Context := []
  deriving DecidableEq, Repr

namespace Error

/-- The code is that of the kind unless another one is given; an error without a kind has to bring
its own. -/
def make? (kind : Option Kind) (code : Option String) (message : String) (hint : Option String)
    (context : Context) : Option Error :=
  (code.or (kind.map Kind.code)).map fun code => ⟨kind, code, message, hint, context⟩

def ofKind (kind : Kind) (message hint : String) (context : Context) : Error :=
  ⟨some kind, kind.code, message, some hint, context⟩

def name (e : Error) : String :=
  match e.kind with
  | some kind => kind.name
  | none => "CLIError"

/-- The lines about the context, if there is any. -/
def contextLines (e : Error) : List String :=
  if e.context.isEmpty then []
  else "\nContext:" :: e.context.map fun entry => "  " ++ entry.1 ++ ": " ++ entry.2

/-- The lines of an error; the context is for a verbose account. -/
def lines (verbose : Bool) (e : Error) : List String :=
  ("Error [" ++ e.code ++ "]: " ++ e.message) ::
    ((e.hint.toList.filter (· ≠ "")).map ("Hint: " ++ ·) ++
      if verbose then e.contextLines else [])

end Error

/-- Whatever ends a command early. -/
inductive Failure where
  | command (e : Error)
  | diagnostic (name : String) (d : Diagnostic)
  | system (name message : String)
  deriving DecidableEq, Repr

namespace Failure

/-- The name of the kind of error. -/
def name : Failure → String
  | command e => e.name
  | diagnostic name _ => name
  | system name _ => name

def message : Failure → String
  | command e => e.message
  | diagnostic _ d => d.message
  | system _ message => message

/-- The error at the bottom of another one is part of its context. -/
def context (f : Failure) (c : Context) : Context :=
  (Context.set c "original_exception" f.message).set "original_type" f.name

def lines (verbose : Bool) : Failure → List String
  | command e => e.lines verbose
  | diagnostic _ d => ["Error: " ++ d.format]
  | system name message => ["Error: " ++ name ++ ": " ++ message]

/-- Writes a failure, with a trace of what led to it if one is given. -/
def format (verbose : Bool) (trace : Option String) (f : Failure) : String :=
  let traceLines :=
    match trace with
    | none => []
    | some t => ["\nTraceback:", t]
  "\n".intercalate (f.lines verbose ++ traceLines)

def ofFile (f : FileFault) : Failure :=
  .system f.name f.message

end Failure

/-- What to do about a configuration that cannot be used. -/
def configHint : String :=
  "Check the [format] and [files] sections of msfmt.toml"

/-- A workspace that cannot be loaded. Its configuration is wrong, or the system refuses the file.
-/
def Failure.ofLoad : Workspace.LoadFault → Failure
  | .config fault =>
    let d := fault.diagnostic
    .command (.ofKind .config d.format configHint ((diagnostic Diagnostic.configName d).context []))
  | .file fault => .ofFile fault

end Command
end MiniScriptLayout
