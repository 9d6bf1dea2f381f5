import MiniScriptLayout.Options

/-!
What is told about a formatting run on the way: records with a level, a source and a message.
-/

namespace MiniScriptLayout
namespace Log

inductive Level where
  | debug
  | info
  | warning
  | error
  deriving DecidableEq, Repr

namespace Level

def name : Level → String
  | debug => "DEBUG"
  | info => "INFO"
  | warning => "WARNING"
  | error => "ERROR"

def rank : Level → Nat
  | debug => 0
  | info => 1
  | warning => 2
  | error => 3

/-- The levels by the words that people use for them. -/
def ofWord? (s : String) : Option Level :=
  [("debug", debug), ("info", info), ("warn", warning), ("warning", warning),
    ("error", error)].lookup s

end Level

/-- The parts of the program that have something to tell. -/
inductive Source where
  | indentation
  | layout
  | format
  | store
  | command
  deriving DecidableEq, Repr

def Source.name : Source → String
  | indentation => "msfmt.formatting.indentation"
  | layout => "msfmt.formatting"
  | format => "msfmt.format"
  | store => "msfmt.lsp.workspace"
  | command => "msfmt.cli.format"

/-- What a formatted text was formatted for. -/
inductive Mode where
  | write
  | check
  | diff
  | stdin
  | server
  deriving DecidableEq, Repr

def Mode.name : Mode → String
  | write => "write"
  | check => "check"
  | diff => "diff"
  | stdin => "stdin"
  | server => "lsp"

/-- One formatted text. -/
structure FormatEvent where
  path : String
  changed : Bool
  lines : Nat
  mode : Mode
  deriving DecidableEq, Repr

namespace FormatEvent

/-- What stands for a path where there is none. -/
def unnamed : String :=
  "<stdin>"

def ofFormatted (path : String) (mode : Mode) (f : Formatted) : FormatEvent :=
  ⟨if path.isEmpty then unnamed else path, f.changed, f.lineCount, mode⟩

end FormatEvent

inductive Message where
  | text (s : String)
  | formatted (e : FormatEvent)
  deriving DecidableEq, Repr

def Message.string : Message → String
  | text s => s
  | formatted _ => "Formatted document"

structure Record where
  level : Level
  source : Source
  message : Message
  deriving DecidableEq, Repr

/-- A record is of a level or a graver one. -/
def Record.isAtLeast (level : Level) (r : Record) : Bool :=
  level.rank ≤ r.level.rank

/-- What a layout tells. -/
def ofReport (r : Layout.Report) : List Record :=
  (r.unmatchedMessage?.map fun s => ⟨.debug, .indentation, .text s⟩).toList ++
    [⟨.debug, .layout, .text r.countMessage⟩]

/-- What one formatted text tells. -/
def ofRun (source : Source) (e : FormatEvent) (r : Layout.Report) : List Record :=
  ofReport r ++ [⟨.info, source, .formatted e⟩]

end Log
end MiniScriptLayout
