import MiniScriptLayout.Program
import MiniScriptLayout.Server.Store

/-!
The language server: a store that an editor drives. The root directory comes with the first message,
and the configuration is loaded from there unless one was given.
-/

namespace MiniScriptLayout

structure Server where
  store : Store
  /-- The configuration was given when the server was started, and stays. -/
  configured : Bool
  deriving DecidableEq, Repr

namespace Server

def name : String :=
  Program.name ++ "-lsp"

/-- What an editor can ask for, by the names of the messages. -/
inductive Method where
  | ready
  | didChange
  | didClose
  | didOpen
  | formatting
  deriving DecidableEq, Repr

def Method.name : Method → String
  | ready => "initialized"
  | didChange => "textDocument/didChange"
  | didClose => "textDocument/didClose"
  | didOpen => "textDocument/didOpen"
  | formatting => "textDocument/formatting"

def methods : List Method :=
  [.ready, .didChange, .didClose, .didOpen, .formatting]

/-- Starts a server in a working directory. -/
def start (cwd : Location) (config : Option Workspace) : Server :=
  ⟨{ root := Store.rootOf cwd none, config }, config.isSome⟩

/-- Enters a root directory, and loads its configuration unless one was given. -/
def enter (s : Server) (w : Surroundings) (root : Option Uri) :
    Server × Except FileFault (List Log.Record) :=
  let store := s.store.setRoot w.cwd root
  if s.configured then ({ s with store }, .ok [])
  else
    let (store, told) := store.reload w
    ({ s with store }, told)

/-- Changes a document. A message without changes says nothing. -/
def change (s : Server) (w : Surroundings) (uri : Uri) (version : Int) (changes : List Change) :
    Except FileFault Server :=
  if changes.isEmpty then .ok s
  else (s.store.change w uri version changes).map fun store => { s with store }

end Server

end MiniScriptLayout
