import MiniScriptLayout.Config.Toml.Number
import MiniScriptLayout.Text.Lines

/-!
Configuration files in TOML. A document is read statement by statement; marks on keys remember which
tables are declared and which values are complete, so that nothing is defined twice.
-/

namespace MiniScriptLayout
namespace Config
namespace Toml

/-- The parts of a key. -/
abbrev Key := List (List Char)

/-- Changes the table behind a key, making the tables on the way. `throughLists` says that the last
item stands for a list on the way. -/
def changeAt? (throughLists : Bool) (change : Table → Option Table) :
    Key → Table → Option Table
  | [], t => change t
  | k :: ks, t =>
    match t.get? k with
    | none => (changeAt? throughLists change ks []).map fun u => t.set k (.table u)
    | some (.table u) => (changeAt? throughLists change ks u).map fun u => t.set k (.table u)
    | some (.list items) =>
      match throughLists, items.getLast? with
      | true, some (.table u) =>
        (changeAt? throughLists change ks u).map fun u =>
          t.set k (.list (items.dropLast ++ [.table u]))
      | _, _ => none
    | some _ => none

/-- Adds a key that the table does not have yet. -/
def add? (k : List Char) (v : Value) (t : Table) : Option Table :=
  if (t.get? k).isSome then none else some (t.set k v)

/-- Adds an empty table to a list of tables, which begins with it if it is new. -/
def grow? (k : List Char) (t : Table) : Option Table :=
  match t.get? k with
  | none => some (t.set k (.list [.table []]))
  | some (.list items) => some (t.set k (.list (items ++ [.table []])))
  | some _ => none

/-- The value is complete where it is written: nothing can be added to it later. -/
def isWhole : Value → Bool
  | .list _ | .table _ => true
  | _ => false

/-- Adds the value of a key to an inline table; `whole` are the keys of complete values. -/
def addInline? (whole : List Key) (key : Key) (v : Value) (t : Table) : Option Table :=
  if whole.any (·.isPrefixOf key) then none
  else changeAt? false (add? (key.getLastD []) v) key.dropLast t

mutual

/-- Reads a value. Each step takes at least one character, so fuel for the length of the text is
enough. -/
def readValue? (fuel : Nat) (s : List Char) : Option (Value × List Char) :=
  match fuel, s with
  | 0, _ | _, [] => none
  | fuel + 1, c :: r =>
    if c = '"' ∨ c = '\'' then (readText? s).map fun (text, rest) => (.text text, rest)
    else if c = '[' then do
      match ← skipLines? s.length r with
      | ']' :: rest => some (.list [], rest)
      | r => (readItems? fuel r).map fun (items, rest) => (.list items, rest)
    else if c = '\x7b' then
      match skipSpace r with
      | '\x7d' :: rest => some (.table [], rest)
      | r => (readEntries? fuel [] [] r).map fun (entries, rest) => (.table entries, rest)
    else
      match Text.strip? ['t', 'r', 'u', 'e'] s, Text.strip? ['f', 'a', 'l', 's', 'e'] s with
      | some rest, _ => some (.bool true, rest)
      | _, some rest => some (.bool false, rest)
      | none, none => readScalar? s

/-- Reads the items of a list, up to and with its closing bracket. -/
def readItems? (fuel : Nat) (s : List Char) : Option (List Value × List Char) :=
  match fuel with
  | 0 => none
  | fuel + 1 => do
    let (v, r) ← readValue? fuel s
    match ← skipLines? s.length r with
    | ']' :: rest => some ([v], rest)
    | ',' :: r =>
      match ← skipLines? s.length r with
      | ']' :: rest => some ([v], rest)
      | r => (readItems? fuel r).map fun (vs, rest) => (v :: vs, rest)
    | _ => none

/-- Reads the entries of an inline table behind those read already, up to and with its closing
brace. -/
def readEntries? (fuel : Nat) (whole : List Key) (read : Table) (s : List Char) :
    Option (Table × List Char) :=
  match fuel with
  | 0 => none
  | fuel + 1 => do
    let (key, v, r) ← readPair? fuel s
    let read ← addInline? whole key v read
    match skipSpace r with
    | '\x7d' :: rest => some (read, rest)
    | ',' :: r => readEntries? fuel (if isWhole v then key :: whole else whole) read (skipSpace r)
    | _ => none

/-- Reads a key, an equals sign and a value. -/
def readPair? (fuel : Nat) (s : List Char) : Option (Key × Value × List Char) :=
  match fuel with
  | 0 => none
  | fuel + 1 => do
    let (key, r) ← readKey? s.length s
    let (v, rest) ← readValue? fuel (skipSpace (← Text.strip? ['='] r))
    some (key, v, rest)

end

/-- What is read of a document: its data, the tables that are declared, the keys of complete values,
the tables that the next table header declares, and the key of the current table. -/
structure Document where
  data : Table := []
  declared : List Key := []
  whole : List Key := []
  pending : List Key := []
  current : Key := []

namespace Document

/-- The key lies in a complete value. -/
def isWithinWhole (d : Document) (key : Key) : Bool :=
  d.whole.any (·.isPrefixOf key)

/-- The keys before each dot of a key, under the current table. -/
def between (d : Document) (key : Key) : List Key :=
  (List.range (key.length - 1)).map fun i => d.current ++ key.take (i + 1)

/-- Sets a key of the current table. A key with dots goes through tables that have no header, and
that no header may declare later. -/
def define? (d : Document) (key : Key) (v : Value) : Option Document :=
  let parent := d.current ++ key.dropLast
  let between := d.between key
  if between.any d.declared.contains || d.isWithinWhole parent then none
  else
    (changeAt? true (add? (key.getLastD []) v) parent d.data).map fun data =>
      let whole := if isWhole v then (d.current ++ key) :: d.whole else d.whole
      { d with data, whole, pending := between ++ d.pending }

/-- Declares the tables that wait for the next header. -/
def settle (d : Document) : Document :=
  { d with declared := d.pending ++ d.declared, pending := [] }

/-- Begins a table, which no other header has declared. -/
def beginTable? (d : Document) (key : Key) : Option Document :=
  let d := d.settle
  if d.declared.contains key || d.isWithinWhole key then none
  else
    (changeAt? true some key d.data).map fun data =>
      { d with data, declared := key :: d.declared, current := key }

/-- Begins the next table of a list of tables. All marks on what the list held before are void. -/
def beginItem? (d : Document) (key : Key) : Option Document :=
  let d := d.settle
  if d.isWithinWhole key then none
  else
    (changeAt? true (grow? (key.getLastD [])) key.dropLast d.data).map fun data =>
      { d with
        data
        declared := key :: d.declared.filter fun k => !key.isPrefixOf k
        whole := d.whole.filter fun k => !key.isPrefixOf k
        current := key }

/-- Reads a statement: a table header or a key with its value. -/
def readStatement? (d : Document) (s : List Char) : Option (Document × List Char) :=
  match s with
  | '[' :: '[' :: r => do
    let (key, r) ← readKey? s.length (skipSpace r)
    let d ← d.beginItem? key
    some (d, ← Text.strip? [']', ']'] r)
  | '[' :: r => do
    let (key, r) ← readKey? s.length (skipSpace r)
    let d ← d.beginTable? key
    some (d, ← Text.strip? [']'] r)
  | _ => do
    let (key, v, r) ← readPair? (2 * s.length + 2) s
    some (← d.define? key v, r)

/-- Reads the lines of a document. -/
def readLines? (fuel : Nat) (d : Document) (s : List Char) : Option Document :=
  match fuel with
  | 0 => some d
  | fuel + 1 =>
    match skipSpace s with
    | [] => some d
    | '\n' :: r => readLines? fuel d r
    | c :: r => do
      let (d, r) ← if c = '#' then some (d, c :: r) else d.readStatement? (c :: r)
      match ← skipComment? (skipSpace r) with
      | [] => some d
      | '\n' :: r => readLines? fuel d r
      | _ => none

end Document

/-- Reads a whole document. -/
def parse? (s : List Char) : Option Table :=
  let s := Text.joinReturns s
  (Document.readLines? (s.length + 1) {} s).map (·.data)

end Toml
end Config
end MiniScriptLayout
