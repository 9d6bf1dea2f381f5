import MiniScriptLayout.Command.Failure

/-!
The files that a command works on. A directory stands for the files of the workspace below it, and a
file for itself. Whatever is named more than once is taken once.
-/

namespace MiniScriptLayout
namespace Command

/-- The files that one argument stands for. -/
def filesOf (w : Surroundings) (ws : Workspace) (argument : String) :
    Except Failure (List Path) :=
  let path := (Path.ofLocation ws.root).append (.ofText argument.toList)
  if w.isDirectory path then .ok (ws.sources w path)
  else if w.isFile path then .ok [path]
  else
    .error (.command (.ofKind .fileNotFound ("Path not found: " ++ argument)
      "Pass existing files or directories" [("path", path.string)]))

/-- Of paths that lead to the same place the first one is kept. -/
def distinct (cwd : Location) : List Path → List Path
  | [] => []
  | p :: ps => p :: (distinct cwd ps).filter fun q => q.resolve cwd ≠ p.resolve cwd

/-- All files that arguments stand for. One that stands for nothing is an error. -/
def collect (w : Surroundings) (ws : Workspace) (arguments : List String) :
    Except Failure (List Path) := do
  return distinct w.cwd (← arguments.mapM (filesOf w ws)).flatten

end Command
end MiniScriptLayout
