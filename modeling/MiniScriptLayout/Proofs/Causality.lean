import MiniScriptLayout.Proofs.Preservation
import MiniScriptLayout.Proofs.Rows.Growth
import MiniScriptLayout.Proofs.Rows.Lay

/-!
Layout is causal. A text that goes on behind a line is laid out as before up to that line: what
comes later changes neither its code nor its indentation.
-/

namespace MiniScriptLayout

/-- The layout of a text begins the layout of every text that goes on behind it in another line. -/
theorem layOut_causal (o : Options) {t₁ : List Char} (t₂ : List Char)
    (hclosed : ∀ l ∈ (Literal.lift t₁).table, Literal.Closed l) (hlast : Text.EndsFirm t₁) :
    ∃ rest, layOut o.units (t₁ ++ '\n' :: t₂) = layOut o.units t₁ ++ rest ∧
      (rest = [] ∨ ∃ r, rest = '\n' :: r) := by
  obtain ⟨rows, h⟩ := Row.exists_holds t₁
  obtain ⟨rows', h'⟩ := Row.exists_holds (t₁ ++ '\n' :: t₂)
  obtain ⟨⟨others, rfl⟩, more, htable⟩ := h.exists_append h' hlast hclosed
  obtain ⟨laid, hlaid⟩ := Row.isPrefix_lay o.units rows others
  have hl := h.laysOut o.spaces_units
  have hmarked := h.marked_laid hl
  have hne : (Row.lay o.units rows).map Row.text ≠ [] := by
    simpa using h.laid_ne_nil hl
  rw [h.layOut_eq o.spaces_units, h'.layOut_eq o.spaces_units, ← hlaid, ← htable, List.map_append]
  cases laid with
  | nil =>
      have hrestore := Literal.restore_append hmarked (Nat.le_refl _) more []
      rw [List.append_nil, Literal.restore, Literal.restore, Literal.restore, Marker.fill_nil]
        at hrestore
      refine ⟨[], ?_, .inl rfl⟩
      rw [List.map_nil, List.append_nil]
      exact hrestore
  | cons r laid =>
      rw [Text.unlines_append hne (by simp), Literal.restore_append hmarked (Nat.le_refl _) more]
      exact ⟨_, rfl, .inr ⟨_, Literal.restore_cons (by decide)⟩⟩

/-- The call goes on in the second line, with a literal in the first. -/
theorem layOut_causal_call :
    let t : List Char := ['f', '(', '"', 'a', '"', ',']
    (∀ l ∈ (Literal.lift t).table, Literal.Closed l) ∧ Text.EndsFirm t ∧
      ∃ rest, layOut Options.standard.units (t ++ '\n' :: ['b', ')']) =
          layOut Options.standard.units t ++ rest ∧ (rest = [] ∨ ∃ r, rest = '\n' :: r) := by
  intro t
  have htable : (Literal.lift t).table = [['"', 'a', '"']] := by
    simp [t, Literal.lift, Literal.liftFrom, Literal.close]
  have hclosed : ∀ l ∈ (Literal.lift t).table, Literal.Closed l := by
    rw [htable, List.forall_mem_singleton]
    exact Literal.closed_cons_close (s := ['a', '"', ',']) (by decide)
  have hlast : Text.EndsFirm t := ⟨',', rfl, rfl, by decide⟩
  exact ⟨hclosed, hlast, layOut_causal .standard ['b', ')'] hclosed hlast⟩

end MiniScriptLayout
