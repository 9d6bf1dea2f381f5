import MiniScriptLayout.Path

/-!
A file tree: the files with their contents and the directories that are known. There are no links,
so a place has one location.
-/

namespace MiniScriptLayout

/-- The contents of a file. -/
abbrev Bytes := List UInt8

structure FileTree where
  files : List (Location × Bytes) := []
  /-- Directories that need not hold anything; a directory above a file is one in any case. -/
  directories : List Location := []
  deriving Repr

namespace FileTree

def read? (t : FileTree) (l : Location) : Option Bytes :=
  t.files.lookup l

def isFile (t : FileTree) (l : Location) : Bool :=
  (t.read? l).isSome

def isDirectory (t : FileTree) (l : Location) : Bool :=
  !t.isFile l &&
    (l.isEmpty || t.directories.any l.isPrefixOf || t.files.any fun entry => l.isPrefixOf entry.1)

/-- Something is at the location. -/
def holds (t : FileTree) (l : Location) : Bool :=
  t.isFile l || t.isDirectory l

/-- Replaces the contents of a file or adds it. -/
def write (t : FileTree) (l : Location) (content : Bytes) : FileTree :=
  if t.isFile l then
    { t with files := t.files.map fun entry => if entry.1 = l then (l, content) else entry }
  else { t with files := t.files ++ [(l, content)] }

/-- Goes along names, each of which needs a directory to go on from. -/
def walk? (t : FileTree) (l : Location) : List Name → Option Location
  | [] => if t.holds l then some l else none
  | name :: names =>
    if t.isDirectory l then t.walk? (Path.follow l [name]) names else none

/-- The location of what a path names, if it exists. -/
def locate? (t : FileTree) (cwd : Location) (p : Path) : Option Location :=
  t.walk? (match p.anchor with | .working => cwd | _ => []) p.parts

/-- The names from a directory to every file below it, in order. -/
def filesBelow (t : FileTree) (directory : Location) : List (List Name) :=
  (t.files.filterMap fun entry =>
    match Location.below? directory entry.1 with
    | some (name :: names) => some (name :: names)
    | _ => none).mergeSort Location.le

end FileTree

end MiniScriptLayout
