import MiniScriptLayout.Command.Run
import Std.Time.Format

/-!
The program: it gathers what a command line depends on, runs it, and carries out what comes of it.
-/

namespace MiniScriptLayout
namespace Main

open Command

def pathText (l : Location) : String :=
  (Path.ofLocation l).string

/-- Adds what is at a place, and below it, to a file tree. What cannot be read is left out. -/
partial def gather (t : FileTree) (l : Location) : IO FileTree := do
  try
    let entries ← ((← IO.currentDir) / pathText l).readDir
    let t := { t with directories := l :: t.directories }
    entries.foldlM (fun t entry => gather t (l ++ [entry.fileName.toList])) t
  catch _ =>
    try
      return t.write l (← IO.FS.readBinFile (pathText l)).toList
    catch _ => return t

/-- Reads a stream to its end. -/
partial def readAll (s : IO.FS.Stream) (before : Bytes) : IO Bytes := do
  let chunk ← s.read 65536
  if chunk.isEmpty then return before
  readAll s (before ++ chunk.toList)

def readEnvironment : IO Environment := do
  let names := [Variable.verbose, .debug, .reraise, .logLevel]
  let values ← names.mapM fun v => return (v, ← IO.getEnv v.name)
  return fun v => (values.lookup v).join

/-- The number of the running process, where the system tells it. -/
def processNumber : IO String := do
  try
    let status ← IO.FS.readFile "/proc/self/stat"
    return String.ofList (status.toList.takeWhile (· ≠ ' '))
  catch _ => return "unknown"

def readStamps : IO Stamps := do
  let now ← Std.Time.PlainDateTime.now
  return ⟨now.format "uuuu-MM-dd HH:mm:ss,SSS", ← processNumber, "No trace is kept"⟩

def readInvocation (arguments : List String) : IO Invocation := do
  let cwd := (Path.ofText (← IO.currentDir).toString.toList).resolve []
  let tree ← (placesOf cwd arguments).foldlM gather { directories := [cwd] }
  let input ← if readsInput arguments then readAll (← IO.getStdin) [] else pure []
  return ⟨⟨tree, cwd⟩, ← readEnvironment, input, arguments⟩

/-- Writes a file, and tells whether that worked. -/
def write (l : Location) (content : Bytes) : IO Bool := do
  try
    IO.FS.writeBinFile (pathText l) ⟨content.toArray⟩
    return true
  catch e =>
    IO.eprintln s!"Error writing {pathText l}: {e}"
    return false

/-- Carries out a result and gives the exit code. -/
def perform (r : Result) : IO UInt32 := do
  let done ← r.writes.mapM fun (l, content) => write l content
  let stamps ← readStamps
  for event in r.events do
    IO.print event.output
    IO.eprint (event.errorOutput stamps)
  match r.status with
  | .exit code => return if done.all id then UInt32.ofNat code else 1
  | .raised f => throw (IO.userError (f.name ++ ": " ++ f.message))

end Main
end MiniScriptLayout

def main (arguments : List String) : IO UInt32 := do
  let invocation ← MiniScriptLayout.Main.readInvocation arguments
  MiniScriptLayout.Main.perform (MiniScriptLayout.Command.run invocation)
