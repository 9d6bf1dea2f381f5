import MiniScriptLayout.Command.Switch
import MiniScriptLayout.Text.DecimalDigit
import MiniScriptLayout.Text.Quoted

/-!
Arguments of a command line. `Token.ofText` tells switches from operands, and `Item.ofTokens` gives
each switch its value.
-/

namespace MiniScriptLayout
namespace Command

/-- What can be wrong with arguments. -/
inductive Misuse where
  | ambiguous (argument : String) (names : List String)
  | missingValue (s : Switch)
  | unwantedValue (s : Switch) (value : String)
  | invalidChoice (name value : String) (choices : List String)
  | unrecognized (arguments : List String)
  deriving DecidableEq, Repr

def quote (s : String) : String :=
  String.ofList (Text.quoted s.toList)

def Misuse.message : Misuse → String
  | ambiguous argument names =>
    "ambiguous option: " ++ argument ++ " could match " ++ ", ".intercalate names
  | missingValue s => "argument " ++ s.title ++ ": expected one argument"
  | unwantedValue s value =>
    "argument " ++ s.title ++ ": ignored explicit argument " ++ quote value
  | invalidChoice name value choices =>
    "argument " ++ name ++ ": invalid choice: " ++ quote value ++ " (choose from " ++
      ", ".intercalate (choices.map quote) ++ ")"
  | unrecognized arguments => "unrecognized arguments: " ++ " ".intercalate arguments

/-- An argument by its form. -/
inductive Token where
  /-- A switch, and the value behind its equals sign. -/
  | switch (s : Switch) (value : Option String)
  /-- A switch of one letter with more text behind it. -/
  | cluster (s : Switch) (tail : List Char)
  /-- What has the form of a switch, but is none. -/
  | unknown
  | operand
  /-- Two dashes: all that follows is an operand. -/
  | separator
  deriving DecidableEq, Repr

/-- The switches with all their names. -/
def namedSwitches (l : Level) : List (String × Switch) :=
  l.switches.flatMap fun s => s.names.map fun name => (name, s)

/-- Cuts an argument at its first equals sign. -/
def cutValue (argument : List Char) : List Char × Option (List Char) :=
  match argument.dropWhile (· ≠ '=') with
  | [] => (argument, none)
  | _ :: value => (argument.takeWhile (· ≠ '='), some value)

/-- The names that start like an argument, with the tokens that they stand for. -/
def candidates (l : Level) (argument : List Char) : List (String × Token) :=
  match argument with
  | '-' :: '-' :: _ =>
    let (start, value) := cutValue argument
    (namedSwitches l).filterMap fun (name, s) =>
      if start.isPrefixOf name.toList then some (name, .switch s (value.map String.ofList))
      else none
  | _ =>
    (namedSwitches l).filterMap fun (name, s) =>
      if name.toList = argument.take 2 then some (name, .cluster s (argument.drop 2))
      else if argument.isPrefixOf name.toList then some (name, .switch s none)
      else none

/-- The argument is a negative number. -/
def isNegative (argument : List Char) : Bool :=
  match argument with
  | '-' :: r =>
    let r := if r.getLast? = some '\n' then r.dropLast else r
    match r.dropWhile Text.isDecimalDigit with
    | [] => !r.isEmpty
    | '.' :: fraction => !fraction.isEmpty && fraction.all Text.isDecimalDigit
    | _ => false
  | _ => false

/-- A name may be cut short as long as one switch is left. -/
def Token.ofStart (l : Level) (argument : List Char) : Except Misuse Token :=
  match candidates l argument with
  | [] => .ok (if isNegative argument || argument.contains ' ' then .operand else .unknown)
  | [(_, token)] => .ok token
  | found => .error (.ambiguous (String.ofList argument) (found.map (·.1)))

/-- A switch with an equals sign and text behind it. Behind a switch of one letter the text is taken
for more of such switches. -/
def Token.ofValue (s : Switch) (name value : List Char) : Token :=
  match name, value with
  | ['-', _], _ :: _ => .cluster s value
  | _, _ => .switch s (some (String.ofList value))

/-- Tells what an argument is, unless it stands behind a separator. -/
def Token.ofText (l : Level) (argument : String) : Except Misuse Token :=
  let (start, value) := cutValue argument.toList
  match argument.toList with
  | '-' :: _ :: _ =>
    match (namedSwitches l).lookup argument with
    | some s => .ok (.switch s none)
    | none =>
      match value, (namedSwitches l).lookup (String.ofList start) with
      | some value, some s => .ok (.ofValue s start value)
      | _, _ => Token.ofStart l argument.toList
  | _ => .ok .operand

/-- The arguments with what they are. -/
def tokens (l : Level) : List String → Except Misuse (List (String × Token))
  | [] => .ok []
  | argument :: rest =>
    if argument = "--" then .ok ((argument, .separator) :: rest.map fun a => (a, .operand))
    else do return (argument, ← Token.ofText l argument) :: (← tokens l rest)

/-- What arguments ask for. -/
inductive Item where
  | switch (s : Switch) (value : Option String)
  | operand (argument : String)
  /-- A command with all that follows. -/
  | command (name : String) (arguments : List String)
  | extra (argument : String)
  | misuse (m : Misuse)
  deriving DecidableEq, Repr

/-- The switches of a cluster. Every character behind the first switch has to be one of the switches
of one letter, none of which takes a value. -/
def clusterSwitches (l : Level) (s : Switch) : List Char → Except Misuse (List Switch)
  | [] => .ok [s]
  | c :: r =>
    match (namedSwitches l).lookup (String.ofList ['-', c]) with
    | none => .error (.unwantedValue s (String.ofList (c :: r)))
    | some t => (clusterSwitches l t r).map (s :: ·)

/-- What stands for no value at all. -/
def noValue : String :=
  "--"

/-- Gives switches their values. The first operand of the program is a command, which takes all that
follows. -/
def items (l : Level) : List (String × Token) → List Item
  | [] => []
  | (argument, token) :: rest =>
    match token with
    | .switch s (some value) =>
      if s.takesValue then .switch s (if value = noValue then none else some value) :: items l rest
      else [.misuse (.unwantedValue s value)]
    | .switch s none =>
      if s.takesValue then
        match rest with
        | (value, .operand) :: rest => .switch s (some value) :: items l rest
        | _ => [.misuse (.missingValue s)]
      else .switch s none :: items l rest
    | .cluster s tail =>
      match clusterSwitches l s tail with
      | .ok found => found.map (.switch · none) ++ items l rest
      | .error m => [.misuse m]
    | .unknown => .extra argument :: items l rest
    | .operand =>
      if l = .program then [.command argument (rest.map (·.1))]
      else .operand argument :: items l rest
    | .separator =>
      if l = .program then
        if rest.isEmpty then [.extra argument] else [.command argument (rest.map (·.1))]
      else .operand argument :: items l rest

end Command
end MiniScriptLayout
