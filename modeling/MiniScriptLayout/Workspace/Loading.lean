import MiniScriptLayout.Config.Sections
import MiniScriptLayout.Config.Toml.Document
import MiniScriptLayout.Text.Lines
import MiniScriptLayout.Text.Utf8
import MiniScriptLayout.Workspace.FileTree

/-!
Workspaces: a root directory with its configuration. `load` finds and reads the configuration file,
and `sources` lists the files to format below a directory.
-/

namespace MiniScriptLayout

/-- Why a file cannot be read. -/
inductive FileFault where
  | missing (path : Path)
  | isDirectory (path : Path)
  | undecodable (fault : Utf8.Fault)
  /-- The path has a character that no file name has. -/
  | unnameable
  deriving DecidableEq, Repr

namespace FileFault

/-- What the system calls the fault. -/
def name : FileFault → String
  | missing _ => "FileNotFoundError"
  | isDirectory _ => "IsADirectoryError"
  | undecodable _ => "UnicodeDecodeError"
  | unnameable => "ValueError"

/-- The system has no file, so there is nothing to decode. -/
def isAbsent : FileFault → Bool
  | missing _ | isDirectory _ => true
  | undecodable _ | unnameable => false

def message : FileFault → String
  | missing path =>
    "[Errno 2] No such file or directory: " ++ String.ofList (Text.quoted path.text)
  | isDirectory path => "[Errno 21] Is a directory: " ++ String.ofList (Text.quoted path.text)
  | undecodable fault => fault.message
  | unnameable => "embedded null byte"

end FileFault

/-- The part of the world that reading files depends on. -/
structure Surroundings where
  tree : FileTree := {}
  cwd : Location := []

namespace Surroundings

/-- Something is where the path leads. -/
def holds (w : Surroundings) (p : Path) : Bool :=
  (w.tree.locate? w.cwd p).isSome

def isFile (w : Surroundings) (p : Path) : Bool :=
  (w.tree.locate? w.cwd p).any w.tree.isFile

def isDirectory (w : Surroundings) (p : Path) : Bool :=
  (w.tree.locate? w.cwd p).any w.tree.isDirectory

def readBytes (w : Surroundings) (p : Path) : Except FileFault Bytes :=
  if p.isNameable then
    match w.tree.locate? w.cwd p with
    | none => .error (.missing p)
    | some l =>
      match w.tree.read? l with
      | none => .error (.isDirectory p)
      | some bytes => .ok bytes
  else .error .unnameable

/-- The place where a path leads, whether anything is there or not. -/
def resolve (w : Surroundings) (p : Path) : Except FileFault Location :=
  if p.isNameable then .ok (p.resolve w.cwd) else .error .unnameable

/-- Reads a file as it is. -/
def readExactly (w : Surroundings) (p : Path) : Except FileFault (List Char) := do
  match Utf8.decode (← w.readBytes p) with
  | .ok text => return text
  | .error fault => throw (.undecodable fault)

/-- Reads a file, ending its lines with line feeds. -/
def readText (w : Surroundings) (p : Path) : Except FileFault (List Char) :=
  (w.readExactly p).map Text.toLineFeeds

end Surroundings

/-- A root directory and its settings; `path` is the configuration file that they are from. -/
structure Workspace where
  root : Location
  format : Config.FormatSettings := {}
  files : Config.FileSettings := {}
  path : Option Path := none
  deriving DecidableEq, Repr

namespace Workspace

/-- Why a workspace cannot be loaded. -/
inductive LoadFault where
  | config (fault : Config.Fault)
  | file (fault : FileFault)
  deriving Repr

/-- The names of configuration files; the first that exists counts. -/
def configNames : List Name :=
  [['m', 's', 'f', 'm', 't', '.', 't', 'o', 'm', 'l'], ['.', 'm', 's', 'f', 'm', 't', 'r', 'c']]

def tomlSuffix : List Char :=
  ['.', 't', 'o', 'm', 'l']

/-- Reads the values of a configuration file, whose suffix decides about its form. -/
def readConfig (w : Surroundings) (p : Path) : Except LoadFault Config.Value := do
  if p.suffix = tomlSuffix then
    let text ← (w.readExactly p).mapError LoadFault.file
    match Config.Toml.parse? text with
    | some data => return .table data
    | none => throw (.config ⟨.toml, p⟩)
  else
    let text ← (w.readText p).mapError LoadFault.file
    match Config.Json.parse text with
    | .ok v => return v
    | .error fault =>
      throw (.config ⟨.json fault.cause (Config.Json.lineOf text fault.rest), p⟩)

/-- Loads the workspace with the settings of one configuration file. -/
def loadFrom (w : Surroundings) (root : Location) (p : Path) : Except LoadFault Workspace := do
  let v ← readConfig w p
  match Config.readSections v with
  | .ok (format, files) => return { root, format, files, path := some p }
  | .error cause => throw (.config ⟨cause, p⟩)

/-- The configuration file in the root directory, if there is one. -/
def findConfig? (w : Surroundings) (root : Location) : Option Path :=
  (configNames.map fun name => Path.ofLocation (root ++ [name])).find? w.holds

/-- Loads a workspace. Its configuration file may be named, and has to exist then; a workspace
without one has the default settings. -/
def load (w : Surroundings) (root : Path) (named : Option Path) :
    Except LoadFault Workspace := do
  let root ← (w.resolve root).mapError LoadFault.file
  match named with
  | some p => if w.holds p then loadFrom w root p else .error (.config ⟨.notFound, p⟩)
  | none =>
    match findConfig? w root with
    | some p => loadFrom w root p
    | none => .ok { root }

/-- The files to format below a directory, in order. -/
def sources (ws : Workspace) (w : Surroundings) (directory : Path) : List Path :=
  match w.tree.locate? w.cwd directory with
  | none => []
  | some l =>
    if w.tree.isDirectory l then
      ((w.tree.filesBelow l).map fun names => directory.append ⟨.working, names⟩).filter fun p =>
        ws.files.selects p && !ws.files.excludes ws.root w.cwd p
    else []

end Workspace

end MiniScriptLayout
