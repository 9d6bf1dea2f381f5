import MiniScriptLayout.Config.Json
import MiniScriptLayout.Diagnostic
import MiniScriptLayout.Path

/-!
What can be wrong with a configuration file.
-/

namespace MiniScriptLayout
namespace Config

/-- The sizes that a configuration sets. -/
inductive SizeKey where
  | indent
  | continuation
  deriving DecidableEq, Repr

def SizeKey.name : SizeKey → String
  | indent => "indent_size"
  | continuation => "multiline_indent_size"

/-- The lists that a configuration sets. -/
inductive ListKey where
  | extensions
  | exclude
  deriving DecidableEq, Repr

def ListKey.name : ListKey → String
  | extensions => "extensions"
  | exclude => "exclude"

inductive Cause where
  | notFound
  | json (cause : Json.Cause) (line : Nat)
  | toml
  | notTable
  | formatNotTable
  | filesNotTable
  | style (v : Value)
  | finalNewline
  | size (key : SizeKey) (v : Value)
  | list (key : ListKey)
  deriving Repr

namespace Cause

/-- What is said of a TOML file that is not well-formed. -/
def tomlDetail : String :=
  "malformed document"

def message : Cause → String
  | notFound => "Configuration file not found"
  | json cause _ => "Invalid JSON: " ++ cause.message
  | toml => "Invalid TOML: " ++ tomlDetail
  | notTable => "Configuration must be a table"
  | formatNotTable => "'format' must be a table"
  | filesNotTable => "'files' must be a table"
  | style v =>
    "'format.indent_style' must be 'spaces' or 'tabs', got " ++ String.ofList v.quoted
  | finalNewline => "'format.insert_final_newline' must be a boolean"
  | size key v =>
    "'format." ++ key.name ++ "' must be a positive integer, got " ++ String.ofList v.quoted
  | list key => "'files." ++ key.name ++ "' must be a string or a list of strings"

def line? : Cause → Option Int
  | json _ line => some line
  | _ => none

end Cause

/-- A cause and the configuration file that has it. -/
structure Fault where
  cause : Cause
  path : Path
  deriving Repr

def Fault.diagnostic (f : Fault) : Diagnostic where
  message := f.cause.message
  origin := ⟨some f.path.string, f.cause.line?⟩
  code := some Diagnostic.configCode

end Config
end MiniScriptLayout
