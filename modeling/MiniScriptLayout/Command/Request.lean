import MiniScriptLayout.Command.Argument

/-!
What a command line asks the program to do.
-/

namespace MiniScriptLayout
namespace Command

/-- The settings that stand before the command. -/
structure Globals where
  config : Option String := none
  verbose : Bool := false
  workspace : Option String := none
  logLevel : Option String := none
  deriving DecidableEq, Repr

/-- What to format and how. -/
structure FormatRequest where
  files : List String := ["."]
  check : Bool := false
  diff : Bool := false
  stdin : Bool := false
  deriving DecidableEq, Repr

inductive Request where
  | format (r : FormatRequest)
  | serve
  deriving DecidableEq, Repr

/-- A command line that is answered at once. -/
inductive Stop where
  | help (l : Level)
  | version
  /-- There is no command. -/
  | idle
  | misuse (l : Level) (m : Misuse)
  deriving DecidableEq, Repr

/-- The levels of logging that can be asked for. -/
def logLevels : List String :=
  ["debug", "info", "warn", "error"]

/-- Reads items up to the first one that stops. -/
def readItems {α : Type} (step : α → Item → Except Stop α) (start : α) (items : List Item) :
    Except Stop α :=
  items.foldlM step start

/-- Takes a switch into the settings. A switch without its value takes a value back that was set
before. -/
def Globals.set (g : Globals) (s : Switch) (value : Option String) : Except Stop Globals :=
  match s, value with
  | .help, _ => .error (.help .program)
  | .version, _ => .error .version
  | .verbose, _ => .ok { g with verbose := true }
  | .config, value => .ok { g with config := value }
  | .workspace, value => .ok { g with workspace := value }
  | .logLevel, some value =>
    if logLevels.contains value then .ok { g with logLevel := some value }
    else .error (.misuse .program (.invalidChoice s.title value logLevels))
  | .logLevel, none => .ok { g with logLevel := none }
  | _, _ => .ok g

/-- Takes a switch into the request. -/
def FormatRequest.set (r : FormatRequest) (s : Switch) : Except Stop FormatRequest :=
  match s with
  | .help => .error (.help .format)
  | .check => .ok { r with check := true }
  | .diff => .ok { r with diff := true }
  | .stdin => .ok { r with stdin := true }
  | _ => .ok r

def Item.operand? : Item → Option String
  | operand argument => some argument
  | _ => none

/-- What is left over when nobody takes operands. -/
def Item.leftover? : Item → Option String
  | operand argument | extra argument => some argument
  | _ => none

/-- The first operands that stand together, without a separator, and what is left over. -/
def operands (items : List Item) : List String × List String :=
  let before := items.takeWhile fun item => item.operand?.isNone
  let rest := items.dropWhile fun item => item.operand?.isNone
  let run := rest.takeWhile fun item => item.operand?.isSome
  let behind := rest.dropWhile fun item => item.operand?.isSome
  ((run.filterMap Item.operand?).erase "--", (before ++ behind).filterMap Item.leftover?)

/-- Reads the arguments of the command that formats. -/
def readFormat (arguments : List String) : Except Stop (FormatRequest × List String) := do
  let found := items .format (← (tokens .format arguments).mapError (.misuse .format))
  let request ← readItems
    (fun r item =>
      match item with
      | .switch s _ => FormatRequest.set r s
      | .misuse m => .error (.misuse .format m)
      | _ => .ok r)
    {} found
  let (files, leftover) := operands found
  return (if files.isEmpty then request else { request with files }, leftover)

/-- Reads the arguments of the command that starts the server; it takes none. -/
def readServe (arguments : List String) : Except Stop (List String) := do
  let found := items .server (← (tokens .server arguments).mapError (.misuse .server))
  readItems
    (fun leftover item =>
      match item with
      | .switch _ _ => .error (.help .server)
      | .misuse m => .error (.misuse .server m)
      | item => .ok (leftover ++ item.leftover?.toList))
    [] found

/-- Reads the arguments of a command. -/
def readCommand (name : String) (arguments : List String) :
    Except Stop (Request × List String) := do
  match Level.commands.lookup name with
  | some .format =>
    let (r, leftover) ← readFormat arguments
    return (.format r, leftover)
  | some .server => return (.serve, ← readServe arguments)
  | _ =>
    throw (.misuse .program (.invalidChoice "command" name (Level.commands.map (·.1))))

/-- Reads a command line. What nobody understands is an error. -/
def readArguments (arguments : List String) : Except Stop (Globals × Request) := do
  let found := items .program (← (tokens .program arguments).mapError (.misuse .program))
  let start : Globals × Option Request × List String × List String := ({}, none, [], [])
  let (globals, request, leftover, inner) ← readItems
    (fun (globals, request, leftover, inner) item => do
      match item with
      | .switch s value => return (← globals.set s value, request, leftover, inner)
      | .misuse m => throw (.misuse .program m)
      | .command name arguments =>
        let (r, inner) ← readCommand name arguments
        return (globals, some r, leftover, inner)
      | item => return (globals, request, leftover ++ item.leftover?.toList, inner))
    start found
  let unknown := leftover ++ inner
  unless unknown.isEmpty do throw (.misuse .program (.unrecognized unknown))
  match request with
  | some r => return (globals, r)
  | none => throw .idle

end Command
end MiniScriptLayout
