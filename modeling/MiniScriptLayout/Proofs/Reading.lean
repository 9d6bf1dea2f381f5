import MiniScriptLayout.Workspace.Loading

/-!
Reading files. A text is read wherever a path leads to a file that decodes; any other path has a
fault, which says whether there is a file at all.
-/

namespace MiniScriptLayout

namespace Surroundings

variable {w : Surroundings} {p : Path}

/-- The path leads to a file that can be decoded. -/
def Readable (w : Surroundings) (p : Path) : Prop :=
  ∃ bytes text, w.readBytes p = .ok bytes ∧ Utf8.decode bytes = .ok text

theorem Readable.isNameable (h : w.Readable p) : p.isNameable = true := by
  obtain ⟨bytes, text, hbytes, -⟩ := h
  rw [readBytes] at hbytes
  split at hbytes
  · assumption
  · cases hbytes

theorem readText_eq (w : Surroundings) (p : Path) :
    w.readText p =
      (w.readBytes p).bind fun bytes =>
        ((Utf8.decode bytes).map Text.toLineFeeds).mapError FileFault.undecodable := by
  rw [readText, readExactly]
  cases w.readBytes p with
  | error fault => rfl
  | ok bytes =>
      simp only [bind, Except.bind]
      cases Utf8.decode bytes <;> rfl

end Surroundings

end MiniScriptLayout
