/-!
Errors as they are shown to users: a message, where the trouble is, a code and a hint.
-/

namespace MiniScriptLayout

/-- A place in a file. -/
structure Origin where
  path : Option String := none
  line : Option Int := none
  deriving DecidableEq, Repr

namespace Origin

/-- What is said of a place without a path. -/
def unknown : String :=
  "unknown location"

def describe (p : Origin) : String :=
  match p.path, p.line with
  | none, _ => unknown
  | some path, line =>
    if path.isEmpty then unknown
    else
      match line with
      | none => path
      | some n => s!"{path}:{n}"

end Origin

structure Diagnostic where
  message : String
  origin : Origin := {}
  code : Option String := none
  hint : Option String := none
  deriving DecidableEq, Repr

namespace Diagnostic

/-- The name of errors in configuration files. -/
def configName : String :=
  "ConfigError"

/-- The code of errors in configuration files. -/
def configCode : String :=
  "MSFMT_CONFIG"

/-- Origin and code, if they are known. -/
def details (d : Diagnostic) : List String :=
  [d.origin.describe].filter (· ≠ Origin.unknown) ++ d.code.toList.filter (· ≠ "")

/-- Writes an error on one line. -/
def format (d : Diagnostic) : String :=
  let first :=
    if d.details.isEmpty then d.message
    else d.message ++ " (" ++ "; ".intercalate d.details ++ ")"
  let hints := (d.hint.toList.filter (· ≠ "")).map fun hint => "Hint: " ++ hint
  " ".intercalate ((first :: hints).filter (· ≠ ""))

end Diagnostic

end MiniScriptLayout
