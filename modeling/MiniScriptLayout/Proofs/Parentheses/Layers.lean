import MiniScriptLayout.Parentheses.Condition
import MiniScriptLayout.Proofs.Parentheses.Balanced
import MiniScriptLayout.Proofs.Text.Trim

/-!
Layers of parentheses around a condition. They are taken off one by one, from the outside, as long
as the partner of the first parenthesis stands right before `then`; each step takes one opening
parenthesis, so that the line settles after at most as many steps as it has of them.
-/

namespace MiniScriptLayout

open Text

namespace Lexical

/-- The text does not go on with a character of an identifier. -/
def EndsWord (s : List Char) : Prop :=
  ∀ c ∈ s.head?, isIdentifierChar c = false

namespace Keyword

theorem starts_iff {k : Keyword} {code : List Char} :
    k.starts code = true ↔ ∃ r, code = k.spelling ++ r ∧ EndsWord r := by
  simp only [starts, startsWithWord, Bool.and_eq_true, List.isPrefixOf_iff_prefix,
    Option.all_eq_true, Bool.not_eq_true']
  constructor
  · rintro ⟨⟨r, rfl⟩, hr⟩
    rw [List.drop_left] at hr
    exact ⟨r, rfl, hr⟩
  · rintro ⟨r, rfl, hr⟩
    refine ⟨List.prefix_append _ r, ?_⟩
    rw [List.drop_left]
    exact hr

theorem starts_of_append_space {k : Keyword} {s t : List Char}
    (h : k.starts (s ++ ' ' :: t) = true) : k.starts s = true := by
  have hspace : ' ' ∉ k.spelling := by cases k <;> decide
  obtain ⟨r, hr, hends⟩ := starts_iff.1 h
  rcases List.append_eq_append_iff.1 hr with ⟨u, hword, htail⟩ | ⟨u, rfl, rfl⟩
  · cases u with
    | nil =>
        rw [List.append_nil] at hword
        exact starts_iff.2 ⟨[], by rw [hword, List.append_nil], fun c hc => by cases hc⟩
    | cons d u =>
        cases htail
        exact absurd (by rw [hword]; simp) hspace
  · refine starts_iff.2 ⟨u, rfl, fun c hc => hends c ?_⟩
    rw [List.head?_append, Option.mem_def.1 hc]
    rfl

/-- The keyword is one of the words of the text. Blanks separate words, also those that identifiers
may hold. -/
def Occurs (k : Keyword) (code : List Char) : Prop :=
  ∃ before after, code = before ++ after ∧
    (∀ c ∈ before.getLast?, isIdentifierChar c = true → isBlank c = true) ∧ k.starts after = true

end Keyword
end Lexical

namespace Parentheses

open Lexical

section OneLayer

variable {s r line opened : List Char}

theorem openCondition?_eq_some_iff :
    openCondition? s = some r ↔ ∃ condition rest,
      trimLeft s = '(' :: (condition ++ ')' :: rest) ∧ Balanced '(' ')' condition ∧
        Keyword.thenWord.starts (trimLeft rest) = true ∧
          r = condition ++ ' ' :: trimLeft rest := by
  have hne : ')' ≠ '(' := by decide
  unfold openCondition?
  constructor
  · intro h
    split at h
    · cases h
    · rename_i c t htrim
      split at h
      · rename_i hc
        split at h
        · cases h
        · rename_i condition rest hread
          split at h
          · rename_i hthen
            obtain ⟨rfl, hbalanced⟩ := (enclosed_eq_some_iff hne).1 hread
            exact ⟨condition, rest, by rw [htrim, hc], hbalanced, hthen,
              (Option.some.inj h).symm⟩
          · cases h
      · cases h
  · rintro ⟨condition, rest, htrim, hbalanced, hthen, rfl⟩
    have hread : enclosed '(' ')' 0 (condition ++ ')' :: rest) = some (condition, rest) :=
      (enclosed_eq_some_iff hne).2 ⟨rfl, hbalanced⟩
    simp only [htrim, hread, hthen, if_true]

/-- The line is an `if … then` with parentheses around its condition that are partners. -/
def HasLayer (line condition behind : List Char) : Prop :=
  ∃ gap₁ gap₂, line = Keyword.ifWord.spelling ++ (gap₁ ++ '(' :: (condition ++ ')' ::
      (gap₂ ++ (Keyword.thenWord.spelling ++ behind)))) ∧
    (∀ c ∈ gap₁ ++ gap₂, isBlank c = true) ∧ EndsWord gap₁ ∧ Balanced '(' ')' condition ∧
      EndsWord behind

/-- A line `if … then` with a gap behind `if`. -/
def ifThen (gap condition behind : List Char) : List Char :=
  Keyword.ifWord.spelling ++ (gap ++ (condition ++ ' ' :: (Keyword.thenWord.spelling ++ behind)))

/-- Takes one pair of parentheses from around the condition of a line. -/
def openLine? (line : List Char) : Option (List Char) :=
  if Keyword.ifWord.starts line then
    (openCondition? (line.drop 2)).map fun r => 'i' :: 'f' :: ' ' :: r
  else none

theorem openLine?_eq_some_iff :
    openLine? line = some opened ↔ ∃ condition behind,
      HasLayer line condition behind ∧ opened = ifThen [' '] condition behind := by
  unfold openLine?
  constructor
  · intro h
    split at h
    · rename_i hif
      obtain ⟨s, rfl, hs⟩ := Keyword.starts_iff.1 hif
      obtain ⟨r, hr, rfl⟩ := Option.map_eq_some_iff.1 h
      obtain ⟨condition, rest, htrim, hbalanced, hthen, rfl⟩ := openCondition?_eq_some_iff.1 hr
      obtain ⟨behind, hbehind, hends⟩ := Keyword.starts_iff.1 hthen
      obtain ⟨gap₁, hgap₁, hs₁⟩ := exists_blanks_trimLeft s
      obtain ⟨gap₂, hgap₂, hs₂⟩ := exists_blanks_trimLeft rest
      have hsplit : s = gap₁ ++ '(' :: (condition ++ ')' :: (gap₂ ++
          (Keyword.thenWord.spelling ++ behind))) := by
        rw [← hbehind, ← hs₂, ← htrim]
        exact hs₁
      refine ⟨condition, behind, ⟨gap₁, gap₂, by rw [← hsplit], ?_, ?_, hbalanced, hends⟩, ?_⟩
      · exact List.forall_mem_append.2 ⟨hgap₁, hgap₂⟩
      · intro c hc
        exact hs c (by rw [hsplit, List.head?_append, Option.mem_def.1 hc]; rfl)
      · rw [hbehind]
        rfl
    · cases h
  · rintro ⟨condition, behind, ⟨gap₁, gap₂, rfl, hgap, hends₁, hbalanced, hends⟩, rfl⟩
    rw [List.forall_mem_append] at hgap
    have hif : Keyword.ifWord.starts (Keyword.ifWord.spelling ++ (gap₁ ++ '(' ::
        (condition ++ ')' :: (gap₂ ++ (Keyword.thenWord.spelling ++ behind))))) = true := by
      refine Keyword.starts_iff.2 ⟨_, rfl, fun c hc => ?_⟩
      cases gap₁ with
      | nil =>
          cases hc
          rfl
      | cons d gap => exact hends₁ c hc
    have htrim : trimLeft (gap₂ ++ (Keyword.thenWord.spelling ++ behind)) =
        Keyword.thenWord.spelling ++ behind := trimLeft_blanks_append hgap.2 _
    have hopen : openCondition? (gap₁ ++ '(' :: (condition ++ ')' ::
        (gap₂ ++ (Keyword.thenWord.spelling ++ behind)))) =
        some (condition ++ ' ' :: (Keyword.thenWord.spelling ++ behind)) :=
      openCondition?_eq_some_iff.2 ⟨condition, _, trimLeft_blanks_append hgap.1 _, hbalanced,
        Keyword.starts_iff.2 ⟨behind, htrim, hends⟩, by rw [htrim]⟩
    rw [if_pos hif]
    exact congrArg (Option.map _) hopen

end OneLayer

section Settling

variable {line opened : List Char}

/-- A line is stripped layer by layer. -/
theorem stripCondition_eq (line : List Char) : stripCondition line =
    match openLine? line with
    | none => line
    | some opened => stripCondition opened := by
  have hspace : ∀ r, openCondition? (' ' :: r) = openCondition? r := fun r => rfl
  unfold openLine?
  rw [stripCondition]
  split
  · cases h : openCondition? (line.drop 2) with
    | none => rfl
    | some r =>
        have hif : Keyword.ifWord.starts ('i' :: 'f' :: ' ' :: r) = true := rfl
        simp only [Option.map_some, stripCondition, hif, if_true, List.drop_succ_cons,
          List.drop_zero, hspace]
        rw [openConditions]
        split
        · rename_i hr
          rw [hr]
        · rename_i hr
          rw [hr]
  · rfl

theorem count_openLine? (h : openLine? line = some opened) :
    opened.count '(' + 1 = line.count '(' := by
  have hblank : ∀ gap : List Char, (∀ c ∈ gap, isBlank c = true) → gap.count '(' = 0 := by
    intro gap hgap
    refine List.count_eq_zero.2 fun hmem => ?_
    cases hgap _ hmem
  obtain ⟨condition, behind, ⟨gap₁, gap₂, rfl, hgap, -⟩, rfl⟩ := openLine?_eq_some_iff.1 h
  rw [List.forall_mem_append] at hgap
  simp [ifThen, List.count_append, hblank gap₁ hgap.1, hblank gap₂ hgap.2, Keyword.spelling]

/-- The line without its outer `n` pairs of parentheses, if it has so many. -/
def openLayers : Nat → List Char → Option (List Char)
  | 0, line => some line
  | n + 1, line => (openLine? line).bind (openLayers n)

/-- Stripping takes layers while there are any, no more than the line has parentheses. -/
theorem exists_openLayers (line : List Char) : ∃ n ≤ line.count '(',
    openLayers n line = some (stripCondition line) ∧ openLine? (stripCondition line) = none := by
  cases h : openLine? line with
  | none =>
      have heq : stripCondition line = line := by rw [stripCondition_eq, h]
      rw [heq]
      exact ⟨0, Nat.zero_le _, rfl, h⟩
  | some opened =>
      have hcount := count_openLine? h
      have heq : stripCondition line = stripCondition opened := by rw [stripCondition_eq, h]
      obtain ⟨n, hn, hlayers, hsettled⟩ := exists_openLayers opened
      rw [heq]
      exact ⟨n + 1, by omega, by rw [openLayers, h, Option.bind_some, hlayers], hsettled⟩
termination_by line.count '('

theorem stripCondition_stripCondition (line : List Char) :
    stripCondition (stripCondition line) = stripCondition line := by
  obtain ⟨_, -, -, hsettled⟩ := exists_openLayers line
  rw [stripCondition_eq, hsettled]

theorem exists_hasLayer (h : stripCondition line ≠ line) :
    ∃ condition behind, HasLayer line condition behind := by
  cases hopen : openLine? line with
  | none =>
      rw [stripCondition_eq, hopen] at h
      exact absurd rfl h
  | some opened =>
      obtain ⟨condition, behind, hlayer, -⟩ := openLine?_eq_some_iff.1 hopen
      exact ⟨condition, behind, hlayer⟩

end Settling

section Wrapped

variable {c r : List Char}

/-- The text is one pair of parentheses that are partners, and what stands between them. -/
def Wrapped (s : List Char) : Prop :=
  ∃ inner, s = '(' :: (inner ++ [')']) ∧ Balanced '(' ')' inner

/-- A condition that needs no parentheses around it and ends before the next `then`. -/
structure IsBare (c : List Char) : Prop where
  trimmed : trim c = c
  balanced : Balanced '(' ')' c
  unwrapped : ¬ Wrapped c
  without_then : ¬ Keyword.thenWord.Occurs c

/-- The text between `n` opening and `n` closing parentheses. -/
def wrap (n : Nat) (s : List Char) : List Char :=
  List.replicate n '(' ++ (s ++ List.replicate n ')')

theorem wrap_zero (s : List Char) : wrap 0 s = s := by
  simp [wrap]

theorem wrap_succ (n : Nat) (s : List Char) : wrap (n + 1) s = '(' :: (wrap n s ++ [')']) := by
  rw [wrap, wrap, List.replicate_succ, List.replicate_succ']
  simp only [List.cons_append, List.append_assoc]

theorem balanced_wrap (hc : Balanced '(' ')' c) (n : Nat) : Balanced '(' ')' (wrap n c) := by
  induction n with
  | zero => rwa [wrap_zero]
  | succ n ih =>
      rw [wrap_succ]
      exact .group ih .nil

theorem isBlank_space : ∀ c ∈ [' '], isBlank c = true :=
  List.forall_mem_singleton.2 rfl

theorem openLine?_wrapped {gap : List Char} (hgap : ∀ c ∈ gap, isBlank c = true)
    (hends : EndsWord gap) (hc : Balanced '(' ')' c) (hr : EndsWord r) :
    openLine? (ifThen gap ('(' :: (c ++ [')'])) r) = some (ifThen [' '] c r) := by
  refine openLine?_eq_some_iff.2 ⟨c, r, ⟨gap, [' '], ?_, ?_, hends, hc, hr⟩, rfl⟩
  · simp [ifThen]
  · exact List.forall_mem_append.2 ⟨hgap, isBlank_space⟩

/-- What stands behind a group and starts with the keyword before a space has it as a word. -/
theorem occurs_of_starts {k : Keyword} {inner t : List Char} (ht : trimLeft t ≠ [])
    (h : k.starts (trimLeft (t ++ ' ' :: r)) = true) : k.Occurs ('(' :: (inner ++ ')' :: t)) := by
  obtain ⟨gap, hgap, hsplit⟩ := exists_blanks_trimLeft t
  refine ⟨'(' :: (inner ++ ')' :: gap), trimLeft t, ?_, ?_, ?_⟩
  · rw [List.cons_append, List.append_assoc, List.cons_append, ← hsplit]
  · intro c hc hname
    rw [← List.cons_append, List.getLast?_append, List.getLast?_cons, Option.some_or,
      Option.mem_some_iff] at hc
    cases hlast : gap.getLast? with
    | none =>
        rw [hlast] at hc
        cases hc
        cases hname
    | some d =>
        rw [hlast] at hc
        cases hc
        exact hgap d (List.mem_of_getLast? hlast)
  · rw [trimLeft, List.dropWhile_append, if_neg (by rwa [List.isEmpty_iff])] at h
    exact Keyword.starts_of_append_space h

/-- A condition that no pair of parentheses wraps loses none. -/
theorem openLine?_bare (hbare : IsBare c) : openLine? (ifThen [' '] c r) = none := by
  cases h : openLine? (ifThen [' '] c r) with
  | none => rfl
  | some opened =>
      exfalso
      obtain ⟨condition, behind, ⟨gap₁, gap₂, hline, hgap, -, hbalanced, hends⟩, -⟩ :=
        openLine?_eq_some_iff.1 h
      rw [List.forall_mem_append] at hgap
      obtain ⟨htrim, hc, hwrapped, hthen⟩ := hbare
      rw [trim_eq_self_iff] at htrim
      have hstart : trimLeft (' ' :: (c ++ ' ' :: (Keyword.thenWord.spelling ++ r))) =
          '(' :: (condition ++ ')' :: (gap₂ ++ (Keyword.thenWord.spelling ++ behind))) := by
        have hbehind := List.append_cancel_left hline
        rw [List.singleton_append] at hbehind
        rw [hbehind, trimLeft_blanks_append hgap.1]
        rfl
      have hhead : ∀ {d : Char} {s : List Char}, isBlank d = false →
          trimLeft (' ' :: (d :: s)) = d :: s := by
        intro d s hd
        have hspace : isBlank ' ' = true := rfl
        rw [trimLeft, List.dropWhile_cons_of_pos hspace, List.dropWhile_cons_of_neg (by simp [hd])]
      cases hc with
      | nil => cases hstart
      | char ho _ _ =>
          rw [List.cons_append, hhead (htrim.1 _ rfl)] at hstart
          exact ho (List.cons.inj hstart).1
      | @group s t hs ht =>
          rw [List.cons_append, hhead rfl, List.append_assoc, List.cons_append] at hstart
          -- the first parenthesis has only one partner
          have hread : some (s, t ++ ' ' :: (Keyword.thenWord.spelling ++ r)) =
              some (condition, gap₂ ++ (Keyword.thenWord.spelling ++ behind)) := by
            rw [← (enclosed_eq_some_iff (by decide)).2 ⟨rfl, hs⟩,
              ← (enclosed_eq_some_iff (by decide)).2 ⟨rfl, hbalanced⟩, (List.cons.inj hstart).2]
          simp only [Option.some.injEq, Prod.mk.injEq] at hread
          by_cases hblank : trimLeft t = []
          · cases t with
            | nil => exact hwrapped ⟨s, rfl, hs⟩
            | cons d t =>
                rw [trimLeft_eq_nil] at hblank
                have hlast : ('(' :: (s ++ ')' :: d :: t)).getLast? =
                    some ((d :: t).getLast (List.cons_ne_nil d t)) := by
                  rw [← List.cons_append, List.getLast?_append, List.getLast?_cons_cons,
                    List.getLast?_eq_some_getLast (List.cons_ne_nil d t)]
                  rfl
                have hd := htrim.2 _ hlast
                rw [hblank _ (List.getLast_mem _)] at hd
                cases hd
          · refine hthen (occurs_of_starts (r := Keyword.thenWord.spelling ++ r) hblank ?_)
            rw [hread.2, trimLeft_blanks_append hgap.2]
            exact Keyword.starts_iff.2 ⟨behind, rfl, hends⟩

theorem stripCondition_wrap (n : Nat) {gap : List Char} (hgap : ∀ c ∈ gap, isBlank c = true)
    (hends : EndsWord gap) (hc : IsBare c) (hr : EndsWord r) :
    stripCondition (ifThen gap (wrap (n + 1) c) r) = ifThen [' '] c r := by
  have hbalanced := balanced_wrap hc.balanced n
  rw [stripCondition_eq, wrap_succ, openLine?_wrapped hgap hends hbalanced hr]
  cases n with
  | zero =>
      simp only [wrap_zero]
      rw [stripCondition_eq, openLine?_bare hc]
  | succ n =>
      exact stripCondition_wrap n isBlank_space (fun c hc => by cases hc; rfl) hc hr

end Wrapped

/-- Stripping ends on every line, after no more layers than the line has parentheses, and ends for
good. It frees a bare condition of all the parentheses around it, and changes no line but those with
a pair of parentheses around the condition. -/
theorem stripCondition_layers :
    (∀ line, (∃ n ≤ line.count '(', openLayers n line = some (stripCondition line)) ∧
      openLine? (stripCondition line) = none ∧
      stripCondition (stripCondition line) = stripCondition line) ∧
    (∀ n gap c r, 1 ≤ n → (∀ d ∈ gap, isBlank d = true) → EndsWord gap → IsBare c → EndsWord r →
      stripCondition (ifThen gap (wrap n c) r) = ifThen [' '] c r) ∧
    (∀ line, stripCondition line ≠ line →
      ∃ condition behind, HasLayer line condition behind) := by
  refine ⟨fun line => ?_, fun n gap c r hn hgap hends hc hr => ?_, fun line => exists_hasLayer⟩
  · obtain ⟨n, hn, hlayers, hsettled⟩ := exists_openLayers line
    exact ⟨⟨n, hn, hlayers⟩, hsettled, stripCondition_stripCondition line⟩
  · obtain ⟨m, rfl⟩ := Nat.exists_eq_add_of_le' hn
    exact stripCondition_wrap m hgap hends hc hr

/-- Two layers around a condition that itself starts and ends with a parenthesis. -/
theorem stripCondition_layers_or : IsBare "(a) or (b)".toList ∧
    stripCondition "if(((a) or (b))) then x".toList = "if (a) or (b) then x".toList := by
  have hne : ')' ≠ '(' := by decide
  have hbare : IsBare "(a) or (b)".toList := by
    refine ⟨by decide, ?_, ?_, ?_⟩
    · -- a closer behind the text would be the partner of an opener before it
      have hread : enclosed '(' ')' 0 "(a) or (b))".toList = some ("(a) or (b)".toList, []) := by
        decide
      exact ((enclosed_eq_some_iff hne).1 hread).2
    · rintro ⟨inner, hinner, hbalanced⟩
      have htail : "a) or (b)".toList = inner ++ [')'] := (List.cons.inj hinner).2
      have hread := (enclosed_eq_some_iff hne).2 ⟨htail, hbalanced⟩
      have hfirst : enclosed '(' ')' 0 "a) or (b)".toList = some (['a'], " or (b)".toList) := by
        decide
      rw [hfirst] at hread
      cases hread
    · rintro ⟨before, after, hsplit, -, hstart⟩
      obtain ⟨r, rfl, -⟩ := Keyword.starts_iff.1 hstart
      have hmem : 't' ∈ "(a) or (b)".toList := by simp [hsplit, Keyword.spelling]
      revert hmem
      decide
  exact ⟨hbare, stripCondition_layers.2.1 2 [] _ " x".toList (by decide) (by simp)
    (fun c hc => by cases hc) hbare (fun c hc => by cases hc; rfl)⟩

end Parentheses
end MiniScriptLayout
