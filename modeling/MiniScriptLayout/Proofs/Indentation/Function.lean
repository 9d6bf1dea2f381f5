import MiniScriptLayout.Options
import MiniScriptLayout.Proofs.Indentation.Forest

/-!
The word `function` inside a line. It opens a block at the start of a line and behind a blank, and
nowhere else. So a function behind a bracket opens none, and a line that begins with `end` or `else`
outside of all blocks opens one if it names a function.
-/

namespace MiniScriptLayout

namespace Lexical

/-- The line holds `function`, at its start or behind a character of the class, with a parenthesis,
a blank or the end of the line behind it. -/
def HasFunction (p : Char → Bool) (code : List Char) : Prop :=
  ∃ before after, code = before ++ (Keyword.functionWord.spelling ++ after) ∧
    (∀ c ∈ before.getLast?, p c = true) ∧ ∀ c ∈ after.head?, c = '(' ∨ Text.isBlank c = true

theorem startsFunction_iff {s : List Char} :
    startsFunction s = true ↔ ∃ after, s = Keyword.functionWord.spelling ++ after ∧
      ∀ c ∈ after.head?, c = '(' ∨ Text.isBlank c = true := by
  simp only [startsFunction, Bool.and_eq_true, List.isPrefixOf_iff_prefix]
  constructor
  · rintro ⟨⟨after, rfl⟩, h⟩
    rw [List.drop_left] at h
    exact ⟨after, rfl, by simpa [Option.all_eq_true] using h⟩
  · rintro ⟨after, rfl, h⟩
    refine ⟨List.prefix_append _ after, ?_⟩
    rw [List.drop_left]
    simpa [Option.all_eq_true] using h

theorem holdsFunctionFrom_iff (boundary : Bool) (s : List Char) :
    holdsFunctionFrom boundary s = true ↔
      ∃ before after, s = before ++ (Keyword.functionWord.spelling ++ after) ∧
        (if before = [] then boundary = true else ∀ c ∈ before.getLast?, Text.isBlank c = true) ∧
          ∀ c ∈ after.head?, c = '(' ∨ Text.isBlank c = true := by
  induction s generalizing boundary with
  | nil =>
      refine iff_of_false Bool.false_ne_true ?_
      rintro ⟨before, after, h, -⟩
      simp [Keyword.spelling] at h
  | cons c r ih =>
      rw [holdsFunctionFrom, Bool.or_eq_true, Bool.and_eq_true, startsFunction_iff, ih]
      constructor
      · rintro (⟨hboundary, after, hs, hafter⟩ | ⟨before, after, rfl, hbefore, hafter⟩)
        · exact ⟨[], after, hs, by simpa using hboundary, hafter⟩
        · refine ⟨c :: before, after, rfl, ?_, hafter⟩
          cases before with
          | nil => simpa using hbefore
          | cons d before => simpa using hbefore
      · rintro ⟨before, after, hs, hbefore, hafter⟩
        cases before with
        | nil => exact .inl ⟨by simpa using hbefore, after, hs, hafter⟩
        | cons d before =>
            simp only [List.cons_append, List.cons.injEq] at hs
            obtain ⟨rfl, rfl⟩ := hs
            refine .inr ⟨before, after, rfl, ?_, hafter⟩
            cases before with
            | nil => simpa using hbefore
            | cons d before => simpa using hbefore

theorem holdsFunction_iff {code : List Char} :
    holdsFunction code = true ↔ HasFunction Text.isBlank code := by
  rw [holdsFunction, holdsFunctionFrom_iff]
  refine exists_congr fun before => exists_congr fun after => and_congr_right fun _ => ?_
  cases before <;> simp

end Lexical

namespace Indentation

open Lexical

variable (u : Units) {code close : List Char} {lines : List (List Char)} {ls : List Shape}

/-- Lines that are statements by themselves stand in the region around them. -/
theorem body_plain_lines (r : Region)
    (h : ∀ code ∈ lines, IsPlain code ∧ isIncomplete code = false) (rest : List Shape) :
    body r ⟨lines.map .ofCode ++ rest, 0, false⟩ =
      (body r ⟨rest, 0, false⟩).behind (List.replicate lines.length ⟨0, 0⟩) := by
  induction lines with
  | nil => rfl
  | cons code lines ih =>
      rw [List.forall_mem_cons] at h
      obtain ⟨⟨hplain, hcomplete⟩, hrest⟩ := h
      simp only [isIncomplete, Bool.or_eq_false_iff] at hcomplete
      rw [List.map_cons, List.cons_append, body_plain r hplain hcomplete.2, hcomplete.1, ih hrest,
        Stretch.behind_behind]
      rfl

/-- The walk over the whole text behind a line that opens a block. -/
theorem body_opens (hbranch : (Shape.ofCode code).opensBranch = false)
    (hblock : (Shape.ofCode code).opensBlock = true) (hoperation : endsWithOperation code = false) :
    body .document ⟨.ofCode code :: ls, 0, false⟩ =
      ((block ⟨ls, 0, false⟩).cons ⟨0, 0⟩).append
        (body .document (block ⟨ls, 0, false⟩).next) := by
  have hoperation : (Shape.ofCode code).endsWithOperation = false := hoperation
  rw [body_cons .document rfl]
  simp only [Region.endsAt, hbranch, hblock, hoperation, Bool.false_eq_true, if_false, if_true]

section Stray

variable (hstray : Keyword.endWord.starts code = true ∨ Keyword.elseWord.starts code = true)
include hstray

theorem opensBranch_stray : (Shape.ofCode code).opensBranch = false := by
  have hif : Keyword.ifWord.starts code = false := by
    rw [← Bool.not_eq_true]
    intro hif
    rcases hstray with h | h <;> exact absurd (Keyword.starts_inj hif h) (by decide)
  simp [Shape.ofCode, hif]

theorem opensBlock_stray : (Shape.ofCode code).opensBlock = holdsFunction code := by
  have hloop : ∀ k ∈ [Keyword.whileWord, .forWord], k.starts code = false := by
    intro k hk
    rw [← Bool.not_eq_true]
    intro hloop
    rcases hstray with h | h <;>
      exact absurd (Keyword.starts_inj hloop h ▸ hk) (by decide)
  simp [Shape.ofCode, hloop .whileWord (by simp), hloop .forWord (by simp)]

/-- No line ends the body of the whole text, so a line without a function is like any other. -/
theorem body_stray (hcomplete : isIncomplete code = false)
    (hfunction : holdsFunction code = false) :
    body .document ⟨.ofCode code :: ls, 0, false⟩ =
      (body .document ⟨ls, 0, false⟩).behind [⟨0, 0⟩] := by
  simp only [isIncomplete, Bool.or_eq_false_iff] at hcomplete
  have hoperation : (Shape.ofCode code).endsWithOperation = false := hcomplete.1
  have hopen : (Shape.ofCode code).endsOpen = false := hcomplete.2
  rw [body_cons .document rfl]
  simp only [Region.endsAt, opensBranch_stray hstray, opensBlock_stray hstray, hfunction, hopen,
    hoperation, Bool.false_eq_true, if_false]
  rfl

end Stray

section Statements

variable (hlines : ∀ code ∈ lines, IsPlain code ∧ isIncomplete code = false)
include hlines

/-- Behind a line that opens a block, each statement up to the line that closes the block has one
block unit. -/
theorem indents_opens (hbranch : (Shape.ofCode code).opensBranch = false)
    (hblock : (Shape.ofCode code).opensBlock = true) (hoperation : endsWithOperation code = false)
    (hclose : Keyword.endWord.starts close = true) :
    indents u (code :: (lines ++ [close])) =
      [] :: (List.replicate lines.length u.block ++ [[]]) := by
  have hbody : body .block ⟨lines.map .ofCode ++ [.ofCode close], 0, false⟩ =
      (Stretch.stop ⟨[.ofCode close], 0, false⟩).behind (List.replicate lines.length ⟨0, 0⟩) := by
    have hends : Region.block.endsAt (.ofCode close) = true := hclose
    rw [body_plain_lines .block hlines, body_cons .block rfl]
    simp only [hends, if_true]
  have hnext : (body .block ⟨lines.map .ofCode ++ [.ofCode close], 0, false⟩).next.lines =
      [.ofCode close] := by
    rw [hbody]
    rfl
  rw [indents, List.map_cons, List.map_append, List.map_singleton, ofShapes,
    body_opens hbranch hblock hoperation, block_cons hnext, hbody, Stretch.close_behind]
  simp [Stretch.close, Stretch.stop, Stretch.map, Stretch.behind, Stretch.cons, Stretch.append,
    body_nil, Depth.intoBlock, Depth.render]

/-- Statements, and any line behind them, stand at the margin. -/
theorem indents_statements :
    indents u (lines ++ [close]) = List.replicate lines.length [] ++ [[]] := by
  have hlast : (body .document ⟨[.ofCode close], 0, false⟩).depths = [⟨0, 0⟩] := by
    have hlength := length_ofShapes [.ofCode close]
    have hhead := head?_ofShapes [.ofCode close]
    rw [ofShapes] at hlength hhead
    obtain ⟨d, hd⟩ := List.length_eq_one_iff.1 hlength
    rw [hd] at hhead ⊢
    rw [hhead d rfl]
  rw [indents, List.map_append, List.map_singleton, ofShapes, body_plain_lines .document hlines]
  simp [Stretch.behind, hlast, Depth.render]

end Statements

theorem plain_name : ∀ code ∈ [['x']], IsPlain code ∧ isIncomplete code = false := by
  rw [List.forall_mem_singleton]
  exact ⟨⟨by unfold StartsPlain; decide, by decide, by decide⟩, by decide⟩

/-- A line that begins with `end` or `else` outside of all blocks is inert exactly if it names no
function. If it does, the lines behind it stand in a block as if they followed a function. -/
theorem indents_stray_iff
    (hstray : Keyword.endWord.starts code = true ∨ Keyword.elseWord.starts code = true)
    (hcomplete : isIncomplete code = false) :
    ((∀ u lines, indents u (code :: lines) = [] :: indents u lines) ↔
        ¬ HasFunction Text.isBlank code) ∧
      (HasFunction Text.isBlank code →
        ∀ u lines, indents u (code :: lines) =
          indents u (Keyword.functionWord.spelling :: lines)) := by
  have hopens : HasFunction Text.isBlank code → ∀ u lines,
      indents u (code :: lines) = indents u (Keyword.functionWord.spelling :: lines) := by
    intro hfunction u lines
    have hblock : (Shape.ofCode code).opensBlock = true :=
      (opensBlock_stray hstray).trans (holdsFunction_iff.2 hfunction)
    have hoperation := (Bool.or_eq_false_iff.1 hcomplete).1
    rw [indents, indents, List.map_cons, List.map_cons, ofShapes, ofShapes,
      body_opens (opensBranch_stray hstray) hblock hoperation,
      body_opens (by decide) (by decide) (by decide)]
  refine ⟨⟨fun hinert hfunction => ?_, fun hfunction u lines => ?_⟩, hopens⟩
  · -- a statement and a line that closes the block tell both readings apart
    let u : Units := ⟨[' '], []⟩
    have h := (hinert u ([['x']] ++ [Keyword.endWord.spelling])).symm.trans
      (hopens hfunction u ([['x']] ++ [Keyword.endWord.spelling]))
    rw [indents_statements u plain_name,
      indents_opens u plain_name (by decide) (by decide) (by decide) (by decide)] at h
    cases h
  · rw [← holdsFunction_iff, Bool.not_eq_true] at hfunction
    rw [indents, List.map_cons, ofShapes, body_stray hstray hcomplete hfunction]
    rfl

/-- The word behind the parenthesis is no function that the line opens. -/
theorem indents_stray_else :
    let code := "else f(function(x)".toList
    (Keyword.endWord.starts code = true ∨ Keyword.elseWord.starts code = true) ∧
      isIncomplete code = false ∧
      ((∀ u lines, indents u (code :: lines) = [] :: indents u lines) ↔
        ¬ HasFunction Text.isBlank code) ∧
      (HasFunction Text.isBlank code →
        ∀ u lines, indents u (code :: lines) =
          indents u (Keyword.functionWord.spelling :: lines)) := by
  intro code
  have hstray : Keyword.endWord.starts code = true ∨ Keyword.elseWord.starts code = true := by
    decide
  have hcomplete : isIncomplete code = false := by decide
  exact ⟨hstray, hcomplete, indents_stray_iff hstray hcomplete⟩

/-- A line that closes a function which nothing opened opens a block itself. -/
theorem indents_stray_end_function :
    let code := "end function".toList
    let rest := [['x'], ['e', 'n', 'd']]
    Keyword.endWord.starts code = true ∧ isIncomplete code = false ∧
      indents Options.standard.units (code :: rest) ≠
        [] :: indents Options.standard.units rest := by
  intro code rest
  have hinert : indents Options.standard.units rest = [[], []] :=
    indents_statements _ plain_name
  have hopens : indents Options.standard.units (code :: rest) =
      [[], [' ', ' ', ' ', ' '], []] :=
    indents_opens _ plain_name (by decide) (by decide) (by decide) (by decide)
  rw [hinert, hopens]
  exact ⟨by decide, by decide, by decide⟩

/-- The statements behind a complete line that begins with no keyword, up to a line that begins with
`end`, have one block unit exactly if the line names a function at its start or behind a blank, or
if there is nothing to indent. -/
theorem indents_function_iff
    (hstart : ∀ k ∈ [Keyword.ifWord, .whileWord, .forWord, .elseWord, .endWord],
      k.starts code = false)
    (hcomplete : isIncomplete code = false)
    (hlines : ∀ code ∈ lines, IsPlain code ∧ isIncomplete code = false)
    (hclose : Keyword.endWord.starts close = true) :
    indents u (code :: (lines ++ [close])) =
        [] :: (List.replicate lines.length u.block ++ [[]]) ↔
      HasFunction Text.isBlank code ∨ lines = [] ∨ u.block = [] := by
  have hbranch : ¬ IsBranchHead code := fun h => by
    rw [IsBranchHead, hstart .ifWord (by simp)] at h
    exact Bool.false_ne_true h.1
  by_cases hfunction : HasFunction Text.isBlank code
  · have hholds := holdsFunction_iff.2 hfunction
    rw [indents_opens u hlines (not_opensBranch.1 hbranch) (by simp [Shape.ofCode, hholds])
      (Bool.or_eq_false_iff.1 hcomplete).1 hclose]
    exact iff_of_true rfl (.inl hfunction)
  · have hplain : IsPlain code :=
      ⟨fun k hk => hstart k (by revert k; decide), hbranch, by
        rwa [← holdsFunction_iff, Bool.not_eq_true] at hfunction⟩
    rw [← List.cons_append,
      indents_statements u (List.forall_mem_cons.2 ⟨⟨hplain, hcomplete⟩, hlines⟩)]
    simp [hfunction, List.replicate_succ, List.replicate_inj, eq_comm]

/-- The line names two functions, and the one behind the blank opens the block. -/
theorem indents_function_argument :
    let code := "f(function(x), function(y)".toList
    let lines := ["return x".toList, "f(function(z)".toList]
    let close := "end function)".toList
    (∀ k ∈ [Keyword.ifWord, .whileWord, .forWord, .elseWord, .endWord], k.starts code = false) ∧
      isIncomplete code = false ∧
      (∀ code ∈ lines, IsPlain code ∧ isIncomplete code = false) ∧
      Keyword.endWord.starts close = true ∧
      (indents Options.standard.units (code :: (lines ++ [close])) =
          [] :: (List.replicate lines.length Options.standard.units.block ++ [[]]) ↔
        HasFunction Text.isBlank code ∨ lines = [] ∨ Options.standard.units.block = []) := by
  intro code lines close
  have hstart : ∀ k ∈ [Keyword.ifWord, .whileWord, .forWord, .elseWord, .endWord],
      k.starts code = false := by decide
  have hcomplete : isIncomplete code = false := by decide
  have hlines : ∀ code ∈ lines, IsPlain code ∧ isIncomplete code = false := by
    simp only [lines, List.forall_mem_cons, List.not_mem_nil, false_imp_iff, implies_true, and_true]
    refine ⟨⟨⟨?_, ?_, ?_⟩, ?_⟩, ⟨?_, ?_, ?_⟩, ?_⟩ <;> (try unfold StartsPlain) <;> decide
  have hclose : Keyword.endWord.starts close = true := by decide
  exact ⟨hstart, hcomplete, hlines, hclose,
    indents_function_iff Options.standard.units hstart hcomplete hlines hclose⟩

/-- A function behind a parenthesis opens no block. -/
theorem indents_function_behind_parenthesis :
    let code := "f(function(x)".toList
    HasFunction (fun c => !isIdentifierChar c) code ∧
      (∀ k ∈ [Keyword.ifWord, .whileWord, .forWord, .elseWord, .endWord], k.starts code = false) ∧
      isIncomplete code = false ∧
      indents Options.standard.units [code, ['x'], ['e', 'n', 'd']] ≠
        [[], Options.standard.units.block, []] := by
  intro code
  have hline : ∀ line ∈ [code, ['x']], IsPlain line ∧ isIncomplete line = false := by
    refine List.forall_mem_cons.2 ⟨⟨⟨?_, by decide, by decide⟩, by decide⟩, plain_name⟩
    unfold StartsPlain
    decide
  have hmargin : indents Options.standard.units [code, ['x'], ['e', 'n', 'd']] = [[], [], []] :=
    indents_statements _ hline
  rw [hmargin]
  have hfunction : HasFunction (fun c => !isIdentifierChar c) code :=
    ⟨['f', '('], ['(', 'x', ')'], by decide, by simp [isIdentifierChar], by simp⟩
  exact ⟨hfunction, by decide, by decide, by decide⟩

end Indentation
end MiniScriptLayout
