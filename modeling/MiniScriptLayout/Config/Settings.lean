import MiniScriptLayout.Options
import MiniScriptLayout.Path
import MiniScriptLayout.Workspace.Glob

/-!
The settings of a workspace: how its files are formatted, and which files it has.
-/

namespace MiniScriptLayout
namespace Config

/-- How files are formatted. Without a decision about the final line break a text keeps what it had.
-/
structure FormatSettings where
  indentStyle : IndentStyle := .spaces
  indentSize : Int := 4
  continuationSize : Int := 2
  finalNewline : Option Bool := none
  deriving DecidableEq, Repr

/-- The options for one text, which is not known in full for a new file. -/
def FormatSettings.toOptions (s : FormatSettings) (text : Option (List Char)) : Options where
  indentStyle := s.indentStyle
  indentSize := s.indentSize
  continuationSize := s.continuationSize
  finalNewline := s.finalNewline.getD (text.any fun s => s.getLast? == some '\n')

/-- Which files belong to a workspace. -/
structure FileSettings where
  extensions : List (List Char) := [['.', 'm', 's']]
  exclude : List (List Char) := []
  deriving DecidableEq, Repr

namespace FileSettings

/-- The file has one of the extensions. -/
def selects (s : FileSettings) (p : Path) : Bool :=
  s.extensions.contains p.suffix

/-- How patterns see a path: from the root of the workspace on if it leads below it, else as it is.
-/
def shownPath (root cwd : Location) (p : Path) : List Char :=
  match if p.isNameable then Location.below? root (p.resolve cwd) else none with
  | some names => Path.text ⟨.working, names⟩
  | none => p.text

/-- A pattern matches the path or its last part. -/
def excludes (s : FileSettings) (root cwd : Location) (p : Path) : Bool :=
  s.exclude.any fun pattern =>
    Glob.isMatch pattern (shownPath root cwd p) || Glob.isMatch pattern p.name

end FileSettings

end Config
end MiniScriptLayout
