import MiniScriptLayout.Command.Event
import MiniScriptLayout.Diff.Hunk

/-!
Visits to files: what is found there, and what each mode makes of it. The finding does not depend on
the mode.
-/

namespace MiniScriptLayout
namespace Command

/-- What is found in a file. -/
inductive Finding where
  | unreadable (fault : FileFault)
  | read (text : List Char) (formatted : Formatted) (report : Layout.Report)
  deriving DecidableEq, Repr

structure Visit where
  path : Path
  /-- How the file is called. -/
  display : String
  finding : Finding
  deriving DecidableEq, Repr

/-- A file is called by its path from the root of the workspace, if it lies below it. -/
def displayOf (cwd root : Location) (p : Path) : String :=
  match Location.below? root (p.resolve cwd) with
  | some names => Path.string ⟨.working, names⟩
  | none => p.string

/-- Formats a text as the workspace wants it. -/
def formatText (ws : Workspace) (text : List Char) : Formatted :=
  (ws.format.toOptions (some text)).format text

namespace Visit

/-- Reads a file and formats what is in it. -/
def ofPath (w : Surroundings) (ws : Workspace) (p : Path) : Visit where
  path := p
  display := displayOf w.cwd ws.root p
  finding :=
    match w.readText p with
    | .error fault => .unreadable fault
    | .ok text => .read text (formatText ws text) (Layout.ofText text).report

/-- The formatted text, if it is another one than that of the file. -/
def change? (v : Visit) : Option (List Char) :=
  match v.finding with
  | .unreadable _ => none
  | .read _ formatted _ => if formatted.changed then some formatted.text else none

def isChanged (v : Visit) : Bool :=
  v.change?.isSome

def isUnreadable (v : Visit) : Bool :=
  match v.finding with
  | .unreadable _ => true
  | .read _ _ _ => false

/-- What a mode tells about a change. -/
def announce (mode : Log.Mode) (display : String) (old new : List Char) : Event :=
  match mode with
  | .check => .outLine ("Would reformat " ++ display)
  | .diff => .out (Diff.unified display.toList old new)
  | _ => .outLine ("Formatted " ++ display)

def events (mode : Log.Mode) (v : Visit) : List Event :=
  match v.finding with
  | .unreadable fault =>
    [.notice ("Error reading " ++ v.display ++ ": " ++ fault.message),
      .log ⟨.debug, .command, .text ("Failed to read " ++ v.path.string)⟩]
  | .read text formatted report =>
    (Log.ofRun .format (.ofFormatted v.display mode formatted) report).map .log ++
      if formatted.changed then [announce mode v.display text formatted.text] else []

/-- What a visit writes. -/
def write? (cwd : Location) (v : Visit) : Option (Location × Bytes) :=
  v.change?.map fun text => (v.path.resolve cwd, Utf8.encode text)

end Visit

end Command
end MiniScriptLayout
