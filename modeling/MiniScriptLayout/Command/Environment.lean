import MiniScriptLayout.Text.Blank
import MiniScriptLayout.Text.Case

/-!
The variables of the environment that steer the command line.
-/

namespace MiniScriptLayout
namespace Command

inductive Variable where
  | verbose
  | debug
  | reraise
  | logLevel
  deriving DecidableEq, Repr

def Variable.name : Variable → String
  | verbose => "MSFMT_VERBOSE"
  | debug => "MSFMT_DEBUG"
  | reraise => "MSFMT_RERAISE"
  | logLevel => "MSFMT_LOG_LEVEL"

/-- The values of the variables that are set. -/
abbrev Environment := Variable → Option String

namespace Environment

/-- The values that switch something on. -/
def onValues : List String :=
  ["1", "true", "yes", "on"]

/-- A variable is switched on, in any case and with any blanks around its value. -/
def isOn (env : Environment) (v : Variable) : Bool :=
  (env v).any fun value =>
    onValues.contains (String.ofList (Text.toLower (Text.trim value.toList)))

/-- Errors are shown in full; `flag` asks for it on the command line. -/
def isVerbose (env : Environment) (flag : Bool) : Bool :=
  flag || env.isOn .verbose || env.isOn .debug

/-- Errors are handed to the caller instead of being shown. -/
def reraises (env : Environment) : Bool :=
  env.isOn .reraise || env.isOn .debug

end Environment

end Command
end MiniScriptLayout
