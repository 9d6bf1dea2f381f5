import MiniScriptLayout.Proofs.Indentation.Extent

/-!
Blocks as a forest. The leaves of a forest are statements, its inner nodes are blocks, and a line is
indented by one unit for each block around it; a line of a statement that an operator continues has
one continuation unit more. What follows the lines of a forest is indented as if it came first.
-/

namespace MiniScriptLayout

namespace Lexical

theorem Keyword.starts_inj {k k' : Keyword} {code : List Char} (h : k.starts code = true)
    (h' : k'.starts code = true) : k = k' := by
  simp only [starts, startsWithWord, Bool.and_eq_true, List.isPrefixOf_iff_prefix] at h h'
  rcases List.prefix_or_prefix_of_prefix h.1 h'.1 with hw | hw <;>
    revert hw <;> cases k <;> cases k' <;> decide

theorem endsOpen_of_endsWithOperation {code : List Char} (h : endsWithOperation code = true) :
    endsOpen code = false := by
  unfold endsWithOperation at h
  unfold endsOpen
  cases hc : lastChar? code with
  | none => rfl
  | some c =>
      rw [hc] at h
      simp only [Option.any_some, isOperatorEnd, Bool.or_eq_true, decide_eq_true_eq] at h
      rcases h with (((((((rfl | rfl) | rfl) | rfl) | rfl) | rfl) | rfl) | rfl) | rfl <;> rfl

end Lexical

namespace Indentation

open Lexical

/-- The line is `if … then` with nothing behind it. -/
def IsBranchHead (code : List Char) : Prop :=
  Keyword.ifWord.starts code = true ∧ Keyword.thenWord.ends code = true

instance (code : List Char) : Decidable (IsBranchHead code) :=
  inferInstanceAs (Decidable (_ ∧ _))

/-- The line starts with no keyword that divides or closes a block or opens a loop. -/
def StartsPlain (code : List Char) : Prop :=
  ∀ k ∈ [Keyword.endWord, .elseWord, .whileWord, .forWord], k.starts code = false

/-- The line opens, divides and closes no block. -/
structure IsPlain (code : List Char) : Prop where
  word : StartsPlain code
  branch : ¬ IsBranchHead code
  function : holdsFunction code = false

/-- The line opens a loop, or it holds a function and opens, divides and closes nothing else. -/
inductive IsBlockHead (code : List Char) : Prop
  | loop : Keyword.whileWord.starts code = true ∨ Keyword.forWord.starts code = true →
      IsBlockHead code
  | function : holdsFunction code = true → StartsPlain code → ¬ IsBranchHead code →
      IsBlockHead code

/-- A statement on one or more lines. A binary operator ends each of them but the last, which is
complete. -/
structure Chain where
  init : List (List Char)
  last : List Char
  plain : ∀ code ∈ init ++ [last], IsPlain code
  operators : ∀ code ∈ init, endsWithOperation code = true
  complete : isIncomplete last = false

abbrev Closer : Type :=
  { code : List Char // Keyword.endWord.starts code = true ∧ isIncomplete code = false }

/-- The statements and blocks in a region, in order. Only the branches of an `if` are divided. -/
inductive Forest : Region → Type
  | nil {r : Region} : Forest r
  | chain {r : Region} (statement : Chain) (rest : Forest r) : Forest r
  | block {r : Region}
      (head : { code : List Char // IsBlockHead code ∧ endsWithOperation code = false })
      (inner : Forest .block) (close : Closer) (rest : Forest r) : Forest r
  | choice {r : Region}
      (head : { code : List Char // IsBranchHead code ∧ endsWithOperation code = false })
      (inner : Forest .branch) (close : Closer) (rest : Forest r) : Forest r
  | divider
      (code : { code : List Char // Keyword.elseWord.starts code = true ∧
        endsWithOperation code = false })
      (rest : Forest .branch) : Forest .branch

/-- The blocks that a region adds around its lines. -/
def Region.levels : Region → Nat
  | document => 0
  | branch => 1
  | block => 1

namespace Chain

def lines (c : Chain) : List (List Char) :=
  c.init ++ [c.last]

def depths (d : Nat) (c : Chain) : List Depth :=
  ⟨d, 0⟩ :: List.replicate c.init.length ⟨d, 1⟩

end Chain

namespace Forest

def lines {r : Region} : Forest r → List (List Char)
  | nil => []
  | chain statement rest => statement.lines ++ rest.lines
  | block head inner close rest => head.val :: (inner.lines ++ close.val :: rest.lines)
  | choice head inner close rest => head.val :: (inner.lines ++ close.val :: rest.lines)
  | divider code rest => code.val :: rest.lines

/-- The depths of the lines if the lines around the region stand in `d` blocks. -/
def depths {r : Region} (d : Nat) : Forest r → List Depth
  | nil => []
  | chain statement rest => statement.depths (d + r.levels) ++ rest.depths d
  | block _ inner _ rest | choice _ inner _ rest =>
    ⟨d + r.levels, 0⟩ :: (inner.depths (d + r.levels) ++ ⟨d + r.levels, 0⟩ :: rest.depths d)
  | divider _ rest => ⟨d, 0⟩ :: rest.depths d

end Forest

/-- The walk over the lines of a region, with the lines that divide and close it. -/
def Region.walk : Region → Place → Stretch
  | document => body .document
  | branch => branches
  | block => Indentation.block

section Lines

variable {code : List Char}

theorem StartsPlain.starts (h : StartsPlain code) :
    Keyword.endWord.starts code = false ∧ Keyword.elseWord.starts code = false ∧
      Keyword.whileWord.starts code = false ∧ Keyword.forWord.starts code = false := by
  simpa [StartsPlain] using h

theorem startsPlain_of_starts {k : Keyword} (h : k.starts code = true)
    (hk : k ∉ [Keyword.endWord, .elseWord, .whileWord, .forWord]) : StartsPlain code := by
  intro k' hk'
  rw [← Bool.not_eq_true]
  intro h'
  exact hk (Keyword.starts_inj h h' ▸ hk')

theorem not_opensBranch : ¬ IsBranchHead code ↔ (Shape.ofCode code).opensBranch = false := by
  simp [IsBranchHead, Shape.ofCode]

theorem IsPlain.shape (h : IsPlain code) :
    (Shape.ofCode code).opensBranch = false ∧ (Shape.ofCode code).opensBlock = false ∧
      ∀ r : Region, r.endsAt (.ofCode code) = false := by
  obtain ⟨hend, helse, hwhile, hfor⟩ := h.word.starts
  refine ⟨not_opensBranch.1 h.branch, ?_, fun r => ?_⟩
  · simp [Shape.ofCode, hwhile, hfor, h.function]
  · cases r <;> simp [Region.endsAt, Shape.ofCode, hend, helse]

theorem IsBlockHead.shape (h : IsBlockHead code) :
    (Shape.ofCode code).opensBranch = false ∧ (Shape.ofCode code).opensBlock = true ∧
      ∀ r : Region, r.endsAt (.ofCode code) = false := by
  cases h with
  | loop hloop =>
      have hno : ∀ k : Keyword, k ≠ .whileWord → k ≠ .forWord → k.starts code = false := by
        intro k hwhile hfor
        rw [← Bool.not_eq_true]
        intro hk
        exact hloop.elim (fun h => hwhile (Keyword.starts_inj hk h))
          fun h => hfor (Keyword.starts_inj hk h)
      refine ⟨?_, ?_, fun r => ?_⟩
      · simp [Shape.ofCode, hno .ifWord (by decide) (by decide)]
      · simp only [Shape.ofCode, Bool.or_eq_true]
        exact .inl hloop
      · cases r <;> simp [Region.endsAt, Shape.ofCode, hno .endWord (by decide) (by decide),
          hno .elseWord (by decide) (by decide)]
  | function hfunction hplain hbranch =>
      obtain ⟨hend, helse, -, -⟩ := hplain.starts
      refine ⟨not_opensBranch.1 hbranch, ?_, fun r => ?_⟩
      · simp [Shape.ofCode, hfunction]
      · cases r <;> simp [Region.endsAt, Shape.ofCode, hend, helse]

theorem IsBranchHead.shape (h : IsBranchHead code) :
    (Shape.ofCode code).opensBranch = true ∧ ∀ r : Region, r.endsAt (.ofCode code) = false := by
  obtain ⟨hend, helse, -, -⟩ := (startsPlain_of_starts h.1 (by decide)).starts
  refine ⟨by simp [Shape.ofCode, h.1, h.2], fun r => ?_⟩
  cases r <;> simp [Region.endsAt, Shape.ofCode, hend, helse]

end Lines

section Statements

variable (r : Region) {after : Bool} {rest : List Shape}

/-- A line of a statement is indented for the operator before it alone. -/
theorem body_plain {code : List Char} (h : IsPlain code) (hopen : endsOpen code = false) :
    body r ⟨.ofCode code :: rest, 0, after⟩ =
      (body r ⟨rest, 0, endsWithOperation code⟩).behind [⟨0, if after then 1 else 0⟩] := by
  obtain ⟨hbranch, hblock, hends⟩ := h.shape
  have hopen : (Shape.ofCode code).endsOpen = false := hopen
  rw [body_cons r rfl]
  simp only [hends, hbranch, hblock, hopen, Bool.false_eq_true, if_false]
  rw [Nat.zero_add]
  rfl

end Statements

section Blocks

variable {r : Region} {rest : List Shape}

variable {code : List Char} {ds : List Depth} {ls : List Shape}

end Blocks

namespace Forest

variable {r : Region}

end Forest

end Indentation
end MiniScriptLayout
