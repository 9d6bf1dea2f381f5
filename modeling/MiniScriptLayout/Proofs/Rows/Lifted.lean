import MiniScriptLayout.Proofs.Rows.Keeps

/-!
Lifted rows as a text, and rewritings that turn lifted rows into lifted rows. Such a rewriting may
be judged by one row and what follows it.
-/

namespace MiniScriptLayout

namespace Row

open Text

variable {n : Nat} {r : Row} {rows others : List Row}

theorem write_eq_nil : write n rows = [] ↔ rows = [] := by
  cases rows <;> simp [write]

theorem length_write : (write n rows).length = rows.length := by
  induction rows generalizing n with
  | nil => rfl
  | cons r rows ih => simp [write, ih]

theorem next_add_length (n : Nat) (r : Row) (rows : List Row) :
    r.next n + (bodies rows).length = n + (bodies (r :: rows)).length := by
  cases hr : r.body <;> simp [bodies, next, hr, Nat.add_assoc, Nat.add_comm 1]

theorem write_append :
    write n (rows ++ others) = write n rows ++ write (n + (bodies rows).length) others := by
  induction rows generalizing n with
  | nil => rfl
  | cons r rows ih =>
      rw [List.cons_append, write, write, ih, List.cons_append, next_add_length]

theorem unlines_write_single : unlines (write n [r]) = r.lifted n := rfl

theorem unlines_write_cons (h : rows ≠ []) :
    unlines (write n (r :: rows)) = r.lifted n ++ '\n' :: unlines (write (r.next n) rows) := by
  rw [write, unlines_cons _ (by simpa [write_eq_nil] using h)]

theorem unlines_write_append (h : rows ≠ []) (k : others ≠ []) :
    unlines (write n (rows ++ others)) = unlines (write n rows) ++
      '\n' :: unlines (write (n + (bodies rows).length) others) := by
  rw [write_append, unlines_append (by simpa [write_eq_nil] using h)
    (by simpa [write_eq_nil] using k)]

theorem not_mem_marker {c : Char} (hc : Text.isAsciiDigit c = false) (h₁ : c ≠ '/')
    (h₂ : c ≠ '$') : c ∉ Comment.marker.write n := by
  intro hmem
  simp only [Comment.marker, Marker.write, List.append_nil, List.cons_append, List.nil_append,
    List.mem_cons] at hmem
  rcases hmem with h | h | h | h
  · exact h₁ h
  · exact h₁ h
  · exact h₂ h
  · rw [isAsciiDigit_decimal n c h] at hc
    cases hc

/-- A row with a marker ends in a digit. -/
theorem isAsciiDigit_of_getLast? {code : List Char} {c : Char}
    (h : (code ++ Comment.marker.write n).getLast? = some c) : isAsciiDigit c = true := by
  rw [Comment.marker, Marker.write, List.append_nil, ← List.append_assoc, List.getLast?_append] at h
  cases hd : (decimal n).getLast? with
  | none => exact absurd (List.getLast?_eq_none_iff.1 hd) (decimal_ne_nil n)
  | some d =>
      rw [hd, Option.some_or, Option.some.injEq] at h
      exact h ▸ isAsciiDigit_decimal n d (List.mem_of_getLast? hd)

theorem not_isBlank_of_isAsciiDigit {c : Char} (h : isAsciiDigit c = true) :
    isBlank c = false := by
  have hglued : Literal.markers.glued c = true := by
    simp [Literal.markers, Literal.Marked.isMarkerChar, h]
  cases hc : isBlank c with
  | false => rfl
  | true => rw [Literal.markers.glued_blank c hc] at hglued; cases hglued

theorem not_isBlank_of_getLast? (code : List Char) {c : Char}
    (h : (code ++ Comment.marker.write n).getLast? = some c) : isBlank c = false :=
  not_isBlank_of_isAsciiDigit (isAsciiDigit_of_getLast? h)

theorem Sound.line (h : r.Sound) : '\n' ∉ r.code := by
  cases h with
  | plain hline _ => exact hline
  | comment h => exact h.line

theorem not_mem_lifted {c : Char} (h : c ∉ r.code) (hc : Text.isAsciiDigit c = false)
    (h₁ : c ≠ '/') (h₂ : c ≠ '$') : c ∉ r.lifted n := by
  rw [lifted, List.mem_append, not_or]
  refine ⟨h, ?_⟩
  cases r.body with
  | none => simp
  | some b => exact not_mem_marker hc h₁ h₂

theorem Sound.not_mem_lifted (h : r.Sound) : '\n' ∉ r.lifted n :=
  Row.not_mem_lifted h.line rfl (by decide) (by decide)

theorem exists_of_mem_write {l : List Char} (h : l ∈ write n rows) :
    ∃ m, ∃ r ∈ rows, l = r.lifted m := by
  induction rows generalizing n with
  | nil => cases h
  | cons r rows ih =>
      rcases List.mem_cons.1 h with rfl | h
      · exact ⟨n, r, List.mem_cons_self, rfl⟩
      · obtain ⟨m, q, hq, rfl⟩ := ih h
        exact ⟨m, q, List.mem_cons_of_mem r hq, rfl⟩

theorem not_mem_unlines_write (h : ∀ r ∈ rows, ';' ∉ r.code) :
    ';' ∉ unlines (write n rows) := by
  intro hmem
  obtain ⟨l, hl, hmem⟩ := (mem_unlines (by decide)).1 hmem
  obtain ⟨m, r, hr, rfl⟩ := exists_of_mem_write hl
  exact not_mem_lifted (h r hr) rfl (by decide) (by decide) hmem

theorem lines_unlines_write (hne : rows ≠ []) (hs : ∀ r ∈ rows, r.Sound) :
    lines (unlines (write n rows)) = write n rows := by
  refine lines_unlines (by simpa [write_eq_nil] using hne) ?_
  clear hne
  induction rows generalizing n with
  | nil => simp [write]
  | cons r rows ih =>
      rw [List.forall_mem_cons] at hs
      rw [write, List.forall_mem_cons]
      exact ⟨hs.1.not_mem_lifted, ih hs.2⟩

/-- What a row begins with. -/
theorem head?_lifted_append {p : Char → Bool} {code tail : List Char} {body : Option (List Char)}
    (hcode : ∀ c ∈ code.head?, p c = false) (hslash : body ≠ none → p '/' = false)
    (htail : code = [] → body = none → ∀ c ∈ tail.head?, p c = false) :
    ∀ c ∈ ((⟨code, body⟩ : Row).lifted n ++ tail).head?, p c = false := by
  cases code with
  | cons c code => simpa [lifted] using hcode
  | nil =>
      cases body with
      | none => simpa [lifted] using htail
      | some b => simpa [lifted, Comment.marker, Marker.write] using hslash

/-- Changing a text this way turns lifted rows into lifted rows. -/
def KeepsRows (f : List Char → List Char) : Prop :=
  ∀ (n : Nat) (rows : List Row), rows ≠ [] → (∀ r ∈ rows, r.Sound) →
    ∃ rows', rows' ≠ [] ∧ Keeps rows rows' ∧ f (unlines (write n rows)) = unlines (write n rows')

theorem KeepsRows.comp {f g : List Char → List Char} (hf : KeepsRows f) (hg : KeepsRows g) :
    KeepsRows (g ∘ f) := by
  intro n rows hne hs
  obtain ⟨rows₁, hne₁, hk₁, h₁⟩ := hf n rows hne hs
  obtain ⟨rows₂, hne₂, hk₂, h₂⟩ := hg n rows₁ hne₁ (hk₁.sound hs)
  exact ⟨rows₂, hne₂, hk₁.trans hk₂, by rw [Function.comp, h₁, h₂]⟩

theorem bodies_of_keeps (h : Keeps [r] rows) : n + (bodies rows).length = r.next n := by
  rw [h.bodies]
  cases hr : r.body <;> simp [bodies, next, hr]

/-- It is enough to look at one row and what follows it. -/
theorem KeepsRows.of_row {f : List Char → List Char} (hnil : f [] = [])
    (hfeed : ∀ s, f ('\n' :: s) = '\n' :: f s)
    (hrow : ∀ (n : Nat) (r : Row) (tail : List Char), r.Sound →
      (∀ c ∈ tail.head?, c = '\n') →
      ∃ rows, rows ≠ [] ∧ Keeps [r] rows ∧
        f (r.lifted n ++ tail) = unlines (write n rows) ++ f tail) :
    KeepsRows f := by
  intro n rows hne hs
  induction rows generalizing n with
  | nil => exact absurd rfl hne
  | cons r rows ih =>
      rw [List.forall_mem_cons] at hs
      cases rows with
      | nil =>
          obtain ⟨rows', hne', hk, hf⟩ := hrow n r [] hs.1 (by simp)
          refine ⟨rows', hne', hk, ?_⟩
          rw [hnil, List.append_nil, List.append_nil] at hf
          exact hf
      | cons q rows =>
          obtain ⟨rows₂, hne₂, hk₂, hf₂⟩ := ih (r.next n) (by simp) hs.2
          obtain ⟨rows₁, hne₁, hk₁, hf₁⟩ :=
            hrow n r ('\n' :: unlines (write (r.next n) (q :: rows))) hs.1 (by simp)
          refine ⟨rows₁ ++ rows₂, by simp [hne₁], hk₁.append hk₂, ?_⟩
          rw [unlines_write_cons (by simp), hf₁, hfeed, hf₂, unlines_write_append hne₁ hne₂,
            bodies_of_keeps hk₁]

end Row
end MiniScriptLayout
