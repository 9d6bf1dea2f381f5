import MiniScriptLayout.Config.Fault
import MiniScriptLayout.Config.Settings
import MiniScriptLayout.Text.Case

/-!
The sections of a configuration: from values to settings. A section or setting that is absent has
its default; every other value is checked.
-/

namespace MiniScriptLayout
namespace Config

/-- A section of a configuration. A value that says nothing is an empty section. -/
def section? (key : List Char) (data : Table) : Option Table :=
  match data.get? key with
  | none => some []
  | some v =>
    if v.isBlank then some []
    else
      match v with
      | .table entries => some entries
      | _ => none

/-- Reads a style in any case. -/
def readStyle (v : Value) : Except Cause IndentStyle :=
  match v with
  | .text s =>
    match IndentStyle.ofName? (String.ofList (Text.toLower s)) with
    | some style => .ok style
    | none => .error (.style v)
  | _ => .error (.style v)

/-- Reads a whole number of at least one. -/
def readSize (key : SizeKey) (v : Value) : Except Cause Int :=
  match v with
  | .int n => if n < 1 then .error (.size key v) else .ok n
  | _ => .error (.size key v)

def readFinalNewline (v : Value) : Except Cause (Option Bool) :=
  match v with
  | .null => .ok none
  | .bool b => .ok (some b)
  | _ => .error .finalNewline

/-- Reads a text or a list; the items of a list are shown as texts. -/
def readTexts (key : ListKey) (v : Value) : Except Cause (List (List Char)) :=
  match v with
  | .text s => .ok [s]
  | .list items => .ok (items.map Value.plain)
  | _ => .error (.list key)

/-- Reads a setting of a section, unless it is absent. -/
def setting {α : Type} (key : String) (entries : Table) (default : α)
    (read : Value → Except Cause α) : Except Cause α :=
  match entries.get? key.toList with
  | none => .ok default
  | some v => read v

def readFormat (entries : Table) : Except Cause FormatSettings := do
  let indentStyle ← setting "indent_style" entries .spaces readStyle
  let finalNewline ← setting "insert_final_newline" entries none readFinalNewline
  let indentSize ← setting SizeKey.indent.name entries 4 (readSize .indent)
  let continuationSize ← setting SizeKey.continuation.name entries 2 (readSize .continuation)
  return { indentStyle, indentSize, continuationSize, finalNewline }

/-- An extension begins with a dot, which may be left out. -/
def dotted (extension : List Char) : List Char :=
  if extension.head? = some '.' then extension else '.' :: extension

def readFiles (entries : Table) : Except Cause FileSettings := do
  let defaults : FileSettings := {}
  let extensions ← setting ListKey.extensions.name entries defaults.extensions fun v =>
    (readTexts .extensions v).map (·.map dotted)
  let exclude ← setting ListKey.exclude.name entries defaults.exclude (readTexts .exclude)
  return { extensions, exclude }

/-- The settings of a configuration. -/
def readSections (v : Value) : Except Cause (FormatSettings × FileSettings) :=
  match v with
  | .table data =>
    match section? ['f', 'o', 'r', 'm', 'a', 't'] data with
    | none => .error .formatNotTable
    | some formatEntries => do
      let format ← readFormat formatEntries
      match section? ['f', 'i', 'l', 'e', 's'] data with
      | none => .error .filesNotTable
      | some fileEntries => do
        let files ← readFiles fileEntries
        return (format, files)
  | _ => .error .notTable

end Config
end MiniScriptLayout
