import Mathlib
import MiniScriptLayout.Workspace.Loading

/-!
What a configuration may say. Each setting has a meaning for the values that it may have, and the
checks accept these values alone, with this meaning. A blank value counts as an empty section, and
the items of a list may be of any kind, so more is accepted than tables and texts.
-/

namespace MiniScriptLayout

namespace Config

section Entries

variable {α : Type} {t : Table} {key : String} {default a : α} {means : Value → α → Prop}

/-- The value of a key, if the table has it, is as it may be. -/
def Table.Each (t : Table) (key : String) (ok : Value → Prop) : Prop :=
  ∀ v, t.get? key.toList = some v → ok v

end Entries

section Meanings

end Meanings

section Settings

variable (format : FormatSettings) (files : FileSettings)

variable {format files}

end Settings

section Validity

def IsStyle (v : Value) : Prop :=
  ∃ s, v = .text s ∧ ∃ style : IndentStyle, Text.toLower s = style.name.toList

def IsSize (v : Value) : Prop :=
  ∃ n, v = .int n ∧ 1 ≤ n

def IsFinalNewline (v : Value) : Prop :=
  v = .null ∨ ∃ b, v = .bool b

/-- A text or a list of items that may be in it. -/
def IsTexts (item : Value → Prop) (v : Value) : Prop :=
  (∃ s, v = .text s) ∨ ∃ items, v = .list items ∧ ∀ x ∈ items, item x

/-- Nothing, or a table with valid entries. -/
def IsSection (nothing : Value → Prop) (entries : Table → Prop) (v : Value) : Prop :=
  nothing v ∨ ∃ t, v = .table t ∧ entries t

structure ValidFormat (entries : Table) : Prop where
  style : entries.Each "indent_style" IsStyle
  finalNewline : entries.Each "insert_final_newline" IsFinalNewline
  size : entries.Each "indent_size" IsSize
  continuation : entries.Each "multiline_indent_size" IsSize

structure ValidFiles (item : Value → Prop) (entries : Table) : Prop where
  extensions : entries.Each "extensions" (IsTexts item)
  exclude : entries.Each "exclude" (IsTexts item)

/-- A configuration that is valid, if `nothing` says which values stand for an empty section, and
`item` what may be in a list. -/
def Valid (nothing item : Value → Prop) (v : Value) : Prop :=
  ∃ data : Table, v = .table data ∧ data.Each "format" (IsSection nothing ValidFormat) ∧
    data.Each "files" (IsSection nothing (ValidFiles item))

end Validity

section Strictness

end Strictness

end Config

namespace Workspace

variable {w : Surroundings} {root : Path} {r : Location} {named : Option Path} {p : Path}
  {v : Config.Value}

end Workspace
end MiniScriptLayout
