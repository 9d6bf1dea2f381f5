import MiniScriptLayout.Path
import MiniScriptLayout.Uri.Parts
import MiniScriptLayout.Uri.Percent

/-!
URIs of documents and the paths that they name.
-/

namespace MiniScriptLayout

/-- A URI as it is written. -/
abbrev Uri := List Char

namespace Uri

/-- The letter of a drive is written small, and without the slash in front of it. -/
def lowerDrive : List Char → List Char
  | '/' :: c :: ':' :: r =>
    if isLetter c then Text.toLower [c] ++ ':' :: r else '/' :: c :: ':' :: r
  | s => s

/-- The path that well-formed parts name. Only a file has a host in its path. -/
def Parts.pathText (p : Parts) : List Char :=
  let authority := decode p.authority
  let path := decode p.path
  if !authority.isEmpty && !path.isEmpty && p.scheme == ['f', 'i', 'l', 'e'] then
    '/' :: '/' :: (authority ++ path)
  else lowerDrive path

/-- The path that a well-formed URI names. -/
def path? (uri : Uri) : Option Path :=
  (parts? uri).map fun p => .ofText p.pathText

/-- The path that any text names; what is no URI is a path itself. -/
def path (uri : Uri) : Path :=
  uri.path?.getD (.ofText uri)

end Uri

end MiniScriptLayout
