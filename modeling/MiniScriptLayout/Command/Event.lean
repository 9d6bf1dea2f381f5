import MiniScriptLayout.Command.Failure
import MiniScriptLayout.Log

/-!
What a command tells while it runs, in order, and how that reads.
-/

namespace MiniScriptLayout
namespace Command

inductive Event where
  /-- Goes to standard output. -/
  | out (text : List Char)
  /-- A line for the user that is no output. -/
  | notice (line : String)
  | log (r : Log.Record)
  | failed (verbose : Bool) (f : Failure)
  /-- The language server starts. -/
  | serving
  deriving DecidableEq, Repr

/-- What only the surroundings of a running program know: the time, the number of the process and
the trace of an error. -/
structure Stamps where
  time : String
  process : String
  trace : String

namespace Event

def outLine (line : String) : Event :=
  .out (line.toList ++ ['\n'])

/-- What goes to standard output. -/
def output : Event → String
  | out text => String.ofList text
  | _ => ""

/-- What goes to standard error. -/
def errorOutput (s : Stamps) : Event → String
  | out _ => ""
  | notice line => line ++ "\n"
  | log r =>
    s.time ++ " - " ++ r.source.name ++ " - " ++ r.level.name ++ " - " ++ r.message.string ++ "\n"
  | failed verbose f => f.format verbose (if verbose then some s.trace else none) ++ "\n"
  | serving => "Starting msfmt language server (pid=" ++ s.process ++ ")\n"

/-- Records below a level are not told. -/
def isTold (level : Log.Level) : Event → Bool
  | log r => r.isAtLeast level
  | _ => true

end Event

/-- How a command ends. -/
inductive Status where
  | exit (code : Nat)
  /-- The failure is handed to the caller. -/
  | raised (f : Failure)
  deriving DecidableEq, Repr

/-- What a command tells, which files it writes and how it ends. -/
structure Result where
  events : List Event := []
  writes : List (Location × Bytes) := []
  status : Status := .exit 0
  deriving DecidableEq, Repr

/-- The file tree after a command. -/
def Result.apply (r : Result) (t : FileTree) : FileTree :=
  r.writes.foldl (fun t entry => t.write entry.1 entry.2) t

end Command
end MiniScriptLayout
