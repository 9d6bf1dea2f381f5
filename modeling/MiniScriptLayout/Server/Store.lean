import MiniScriptLayout.Document
import MiniScriptLayout.Log
import MiniScriptLayout.Workspace.Loading

/-!
The open documents of an editor, with the workspace that they are in. A store follows what the
editor does with its documents and answers requests to format one of them.
-/

namespace MiniScriptLayout

/-- What to put in place of a range of a document. -/
structure Edit where
  range : Range
  text : List Char
  deriving DecidableEq, Repr

/-- The options that an editor sends along. -/
structure ClientOptions where
  tabSize : Int := 4
  insertSpaces : Bool := true
  deriving DecidableEq, Repr

/-- The options for a text in an editor: it keeps its final line break, and a tab size below one
says nothing. -/
def ClientOptions.toOptions (client : Option ClientOptions) (text : List Char) : Options :=
  let options : Options := { finalNewline := text.getLast? == some '\n' }
  match client with
  | none => options
  | some c =>
    { options with
      indentStyle := if c.insertSpaces then .spaces else .tabs
      indentSize := if c.tabSize > 0 then c.tabSize else options.indentSize }

structure Store where
  root : Path
  config : Option Workspace := none
  documents : List Document := []
  deriving DecidableEq, Repr

namespace Store

/-- The root directory that a URI names; without one it is the working directory. -/
def rootOf (cwd : Location) : Option Uri → Path
  | none | some [] => .ofLocation cwd
  | some uri => uri.path

def get? (s : Store) (uri : Uri) : Option Document :=
  s.documents.find? (·.uri = uri)

/-- Forgets a document. -/
def erase (s : Store) (uri : Uri) : Store :=
  { s with documents := s.documents.filter (·.uri ≠ uri) }

/-- Adds a document in place of the one with its URI. -/
def insert (s : Store) (d : Document) : Store :=
  { s with documents := d :: (s.erase d.uri).documents }

def setRoot (s : Store) (cwd : Location) (uri : Option Uri) : Store :=
  { s with root := rootOf cwd uri }

/-- Loads the configuration of the root directory and tells about it. One that is wrong is ignored
with a warning; a file that cannot be read leaves the store as it was. -/
def reload (s : Store) (w : Surroundings) : Store × Except FileFault (List Log.Record) :=
  match Workspace.load w s.root none with
  | .error (.file fault) => (s, .error fault)
  | .error (.config fault) =>
    ({ s with config := none },
      .ok [⟨.warning, .store,
        .text ("Ignoring workspace configuration: " ++ fault.diagnostic.format)⟩])
  | .ok workspace =>
    match workspace.path with
    | none => ({ s with config := none }, .ok [])
    | some path =>
      ({ s with config := some workspace },
        .ok [⟨.info, .store, .text ("Loaded configuration from " ++ path.string)⟩])

/-- The text of a document that is not open, as its file has it. A document without a file is empty.
-/
def fileText (w : Surroundings) (uri : Uri) : Except FileFault (List Char) :=
  match uri.path? with
  | none => .ok []
  | some path =>
    match w.readText path with
    | .ok text => .ok text
    | .error fault => if fault.isAbsent then .ok [] else .error fault

/-- Changes a document, which is opened if it is not open yet. -/
def change (s : Store) (w : Surroundings) (uri : Uri) (version : Int) (changes : List Change) :
    Except FileFault Store := do
  let d ← match s.get? uri with
    | some d => pure d
    | none => return s.insert (.apply ⟨uri, ← fileText w uri, version⟩ changes)
  return s.insert { d.apply changes with version }

/-- The options for a text: those of the configuration, if there is one, else those of the editor.
-/
def optionsFor (s : Store) (client : Option ClientOptions) (text : List Char) : Options :=
  match s.config with
  | some workspace => workspace.format.toOptions (some text)
  | none => ClientOptions.toOptions client text

/-- The edit that turns a text into a formatted one; there is none if nothing changes. -/
def editOf (text : List Char) (f : Formatted) : Option Edit :=
  if f.changed then some ⟨⟨⟨0, 0⟩, .last text⟩, f.text⟩ else none

/-- Formats a document. -/
def format (s : Store) (uri : Uri) (client : Option ClientOptions) :
    Option Edit × List Log.Record :=
  match s.get? uri with
  | none => (none, [])
  | some d =>
    let formatted := (s.optionsFor client d.text).format d.text
    let event := Log.FormatEvent.ofFormatted (String.ofList d.uri) .server formatted
    (editOf d.text formatted, Log.ofRun .store event (Layout.ofText d.text).report)

end Store

end MiniScriptLayout
