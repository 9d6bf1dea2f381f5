import MiniScriptLayout.Text.Split

/-!
Paths and the places they lead to. A path is what someone wrote, less the parts that say nothing; a
location is a place in the file tree, by the names on the way from its root.
-/

namespace MiniScriptLayout

/-- A name of a file or directory, or `..` in a path. -/
abbrev Name := List Char

/-- The names from the root of the file tree to a place in it. -/
abbrev Location := List Name

/-- What a path starts from. Two slashes are kept, as their meaning is left open; any other number
of slashes stands for one. -/
inductive Anchor where
  | working
  | root
  | doubleRoot
  deriving DecidableEq, Repr

structure Path where
  anchor : Anchor
  parts : List Name
  deriving DecidableEq, Repr

namespace Path

def parentName : Name :=
  ['.', '.']

def anchorOf (s : List Char) : Anchor :=
  match (s.takeWhile (· = '/')).length with
  | 0 => .working
  | 2 => .doubleRoot
  | _ => .root

/-- Reads a path. Empty parts and single dots say nothing. -/
def ofText (s : List Char) : Path :=
  ⟨anchorOf s, (Text.split '/' s).filter fun name => !name.isEmpty && name != ['.']⟩

def ofLocation (l : Location) : Path :=
  ⟨.root, l⟩

/-- Writes a path; one without parts is a dot or its slashes. -/
def text (p : Path) : List Char :=
  match p.anchor, p.parts with
  | .working, [] => ['.']
  | .working, parts => Text.join '/' parts
  | .root, parts => '/' :: Text.join '/' parts
  | .doubleRoot, parts => '/' :: '/' :: Text.join '/' parts

/-- Writes a path as a string. -/
def string (p : Path) : String :=
  String.ofList p.text

/-- The path that leads on by another one; a path with slashes in front starts anew. -/
def append (p q : Path) : Path :=
  match q.anchor with
  | .working => ⟨p.anchor, p.parts ++ q.parts⟩
  | _ => q

/-- The last part. -/
def name (p : Path) : Name :=
  p.parts.getLastD []

/-- The end of the last part from its last dot on, unless that dot is its first or last character.
-/
def suffix (p : Path) : List Char :=
  let reversed := p.name.reverse
  let extension := reversed.takeWhile (· ≠ '.')
  match reversed.dropWhile (· ≠ '.') with
  | _ :: _ :: _ => if extension.isEmpty then [] else '.' :: extension.reverse
  | _ => []

/-- The path can lead to a file: the null character is in no name. -/
def isNameable (p : Path) : Bool :=
  !p.parts.any (·.contains '\x00')

/-- Follows names from a location; `..` goes up. -/
def follow (l : Location) (names : List Name) : Location :=
  names.foldl (fun l name => if name = parentName then l.dropLast else l ++ [name]) l

/-- The place where a path leads from a working directory. -/
def resolve (cwd : Location) (p : Path) : Location :=
  match p.anchor with
  | .working => follow cwd p.parts
  | _ => follow [] p.parts

end Path

namespace Location

/-- The names from one location down to another. -/
def below? : Location → Location → Option (List Name)
  | [], l => some l
  | _ :: _, [] => none
  | m :: ms, n :: ns => if m = n then below? ms ns else none

/-- The order by names, each compared character by character; a location comes before those below
it. -/
def le : Location → Location → Bool
  | [], _ => true
  | _ :: _, [] => false
  | m :: ms, n :: ns => if m = n then le ms ns else m < n

end Location

end MiniScriptLayout
