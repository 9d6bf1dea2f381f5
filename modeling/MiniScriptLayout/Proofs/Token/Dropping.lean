import MiniScriptLayout.Parentheses.Call
import MiniScriptLayout.Parentheses.Condition
import MiniScriptLayout.Proofs.Token.Apart
import MiniScriptLayout.Proofs.Token.Spacing

/-!
The rules that drop commas and parentheses keep all tokens of a view that skips these characters.
The parentheses behind `function` are dropped without a space in their place, so a word must not
follow them directly; the spacing behind closing brackets sees to that.
-/

namespace MiniScriptLayout

open Spacing Parentheses

namespace View

variable {v : View}

theorem tokens_dropTrailingCommas (hcomma : v.skips ',' = true)
    (hclose : ∀ c, closesItems c = true → v.glued c = false) (s : List Char) :
    v.tokens (dropTrailingCommas s) = v.tokens s := by
  suffices hs : v.Same (dropTrailingCommas s) s from hs.1
  fun_induction dropTrailingCommas s with
  | case1 => exact .refl []
  | case2 c => exact .refl [c]
  | case3 c d r _ _ ih => exact ih.cons c
  | case4 c d r hc e rest hr he ih =>
      simp only [Bool.and_eq_true, isComma, decide_eq_true_eq] at hc
      obtain ⟨_, rfl⟩ := hc
      apply Same.cons
      refine ⟨?_, (hclose e he).trans (glued_of_skips hcomma).symm⟩
      calc
        v.tokens (e :: dropTrailingCommas rest) = v.tokens (e :: rest) := (ih.cons e).1
        _ = v.tokens (Text.trimLeft r) := by rw [hr]
        _ = v.tokens r := tokens_trimLeft r
        _ = v.tokens (',' :: r) := (tokens_skips hcomma r).symm
  | case5 c d r _ e rest _ _ ih => exact ih.cons c
  | case6 c d r _ ih => exact ih.cons c

end View

namespace Spacing

theorem emptyParameters?_eq_some {s r : List Char} (h : emptyParameters? s = some r) :
    ∃ gap₁ gap₂ : List Char,
      s = Lexical.Keyword.functionWord.spelling ++ (gap₁ ++ '(' :: (gap₂ ++ ')' :: r)) ∧
        (∀ c ∈ gap₁ ++ gap₂, Text.isBlank c = true) := by
  unfold emptyParameters? at h
  split at h
  · simp at h
  · rename_i t ht
    split at h
    · simp at h
    · rename_i u hu
      obtain ⟨gap₁, hb₁, h₁⟩ := Text.exists_blanks_trimLeft t
      obtain ⟨gap₂, hb₂, h₂⟩ := Text.exists_blanks_trimLeft u
      rw [Text.strip?_eq_some] at ht hu h
      refine ⟨gap₁, gap₂, ?_, ?_⟩
      · rw [ht, h₁, hu, h₂, h]
        rfl
      · intro c hc
        rcases List.mem_append.1 hc with hc | hc
        · exact hb₁ c hc
        · exact hb₂ c hc

theorem dropTrailingCommas_eq_self {s : List Char} (h : ∀ c ∈ s, closesItems c = false) :
    dropTrailingCommas s = s := by
  fun_induction dropTrailingCommas s with
  | case1 => rfl
  | case2 c => rfl
  | case3 c d r _ _ ih =>
      rw [List.forall_mem_cons] at h
      rw [ih h.2]
  | case4 c d r _ e rest hr he ih =>
      have hmem : e ∈ r := by
        have : e ∈ Text.trimLeft r := by rw [hr]; exact List.mem_cons_self
        exact (List.dropWhile_sublist _).subset this
      rw [h e (List.mem_cons_of_mem c (List.mem_cons_of_mem d hmem))] at he
      cases he
  | case5 c d r _ e rest _ _ ih =>
      rw [List.forall_mem_cons] at h
      rw [ih h.2]
  | case6 c d r _ ih =>
      rw [List.forall_mem_cons] at h
      rw [ih h.2]

theorem dropEmptyParameters_eq_self {s : List Char} (h : 'f' ∉ s ∨ '(' ∉ s) :
    dropEmptyParameters s = s := by
  suffices run : ∀ (inName : Bool) (s : List Char), 'f' ∉ s ∨ '(' ∉ s →
      dropEmptyParametersFrom inName s = s from run false s h
  have htail : ∀ {c : Char} {r : List Char}, 'f' ∉ c :: r ∨ '(' ∉ c :: r → 'f' ∉ r ∨ '(' ∉ r :=
    fun h => h.imp (fun h hr => h (List.mem_cons_of_mem _ hr)) fun h hr =>
      h (List.mem_cons_of_mem _ hr)
  intro inName s h
  fun_induction dropEmptyParametersFrom inName s with
  | case1 => rfl
  | case2 c r ih => rw [ih (htail h)]
  | case3 inName c r _ rest hread ih =>
      obtain ⟨gap₁, gap₂, hs, -⟩ := emptyParameters?_eq_some hread
      rw [hs] at h
      rcases h with h | h
      · exact absurd (List.mem_append_left _ (by decide)) h
      · exact absurd (by simp) h
  | case4 inName c r _ _ ih => rw [ih (htail h)]

end Spacing

namespace Parentheses

theorem eq_of_ifWord_starts {s : List Char} (h : Lexical.Keyword.ifWord.starts s = true) :
    s = ['i', 'f'] ++ s.drop 2 := by
  simp only [Lexical.Keyword.starts, Lexical.startsWithWord, Bool.and_eq_true] at h
  obtain ⟨t, ht⟩ := List.isPrefixOf_iff_prefix.1 h.1
  rw [← ht]
  rfl

end Parentheses

namespace View

variable {v : View}

theorem same_dropEmptyParametersFrom (ho : v.skips '(' = true) (hc : v.skips ')' = true)
    (inName : Bool) (s : List Char)
    (h : v.glued 'n' = true → Text.Apart (· = ')') v.glued s) :
    v.Same (dropEmptyParametersFrom inName s) s := by
  fun_induction dropEmptyParametersFrom inName s with
  | case1 => exact .refl []
  | case2 c r ih => exact (ih fun hn => (h hn).tail).cons c
  | case3 inName c r _ rest hread ih =>
      obtain ⟨gap₁, gap₂, hs, hb⟩ := emptyParameters?_eq_some hread
      rw [hs] at h ⊢
      have hb₁ : ∀ c ∈ gap₁, Text.isBlank c = true := fun c hc => hb c (by simp [hc])
      have hb₂ : ∀ c ∈ gap₂, Text.isBlank c = true := fun c hc => hb c (by simp [hc])
      have hrest : v.glued 'n' = true → Text.Apart (· = ')') v.glued (')' :: rest) := by
        intro hn
        exact (h hn).suffix
          ⟨Lexical.Keyword.functionWord.spelling ++ (gap₁ ++ '(' :: gap₂), by simp⟩
      have ih := ih fun hn => (hrest hn).tail
      have dropped : v.tokens (dropEmptyParametersFrom false rest) =
          v.tokens (gap₁ ++ '(' :: (gap₂ ++ ')' :: rest)) := by
        rw [tokens_blanks_append hb₁, tokens_skips ho, tokens_blanks_append hb₂, tokens_skips hc]
        exact ih.1
      have hstop : v.continues (gap₁ ++ '(' :: (gap₂ ++ ')' :: rest)) = false := by
        have ho : v.continues ('(' :: (gap₂ ++ ')' :: rest)) = false := glued_of_skips ho
        rw [(Same.blanks_append hb₁ ho).2, ho]
      cases hn : v.glued 'n' with
      | false =>
          exact Same.append_left (Same.cons_loose hn dropped)
            ['f', 'u', 'n', 'c', 't', 'i', 'o']
      | true =>
          refine Same.append_left ⟨dropped, ?_⟩ _
          rw [ih.2, hstop]
          cases rest with
          | nil => rfl
          | cons d t => exact ((Text.apart_cons.1 (hrest hn)).1 d rfl) (by simp)
  | case4 inName c r _ _ ih => exact (ih fun hn => (h hn).tail).cons c

theorem tokens_dropEmptyParameters (ho : v.skips '(' = true) (hc : v.skips ')' = true)
    {s : List Char} (h : v.glued 'n' = true → Text.Apart (· = ')') v.glued s) :
    v.tokens (dropEmptyParameters s) = v.tokens s :=
  (same_dropEmptyParametersFrom ho hc false s h).1

/-- A closing bracket comes right before no character that stands apart from it. -/
theorem apart_spaceAfterClosers (s : List Char) :
    Text.Apart Lexical.isCloser standsApart (spaceAfterClosers s) := by
  have head : ∀ {p : Char → Bool} {s : List Char}, s.head?.any p = false →
      ∀ d ∈ s.head?, p d = false := by
    intro p s hs d hd
    simpa [Option.mem_def.1 hd] using hs
  induction s with
  | nil => exact List.isChain_nil
  | cons c r ih =>
      simp only [spaceAfterClosers]
      split
      · rw [Text.apart_cons, Text.apart_cons]
        refine ⟨?_, ?_, ih.suffix (List.dropWhile_suffix _)⟩
        · intro d hd _
          simp only [List.head?_cons, Option.mem_some_iff] at hd
          rw [← hd]
          rfl
        · intro d _ hsp
          simp [Lexical.isCloser] at hsp
      · rename_i hc
        rw [Text.apart_cons]
        refine ⟨?_, ih⟩
        intro d hd hclose
        simp only [hclose, Bool.true_and, Bool.not_eq_true] at hc
        cases r with
        | nil => simp [spaceAfterClosers] at hd
        | cons e t =>
            have hed : e = d := by
              simp only [spaceAfterClosers] at hd
              split at hd <;> simpa using hd
            subst hed
            cases hb : Text.isBlank e with
            | true => simp [standsApart, hb]
            | false =>
                simp only [Text.trimLeft, List.dropWhile_cons, hb] at hc
                simpa using hc

theorem tokens_stripCall (ho : v.skips '(' = true) (hc : v.skips ')' = true) (s : List Char) :
    v.tokens (stripCall s) = v.tokens s := by
  have htrim := (same_trimRight (v := v) s).1
  simp only [stripCall]
  split
  · rename_i r hr
    split
    · exact htrim
    · rename_i arguments chain he
      split
      · have hs := List.reverse_eq_iff.1 hr
        rw [enclosed_eq_some he] at hs
        rw [← htrim, hs]
        simp only [List.reverse_append, List.reverse_cons, List.append_assoc, List.cons_append,
          List.nil_append]
        refine (Same.append_left (t := '(' :: (arguments.reverse ++ [')'])) ⟨?_, ?_⟩ _).1
        · rw [tokens_blank rfl, tokens_skips ho]
          exact (Same.append_skips _ (by simpa using hc)).1.symm
        · exact (continues_blank rfl _).trans (glued_of_skips ho).symm
      · exact htrim
  · exact htrim

/-- Opening a condition keeps the tokens, and the parenthesis in front is where words end. -/
theorem tokens_openCondition? (ho : v.skips '(' = true) (hc : v.skips ')' = true)
    {s r : List Char} (h : openCondition? s = some r) :
    v.tokens r = v.tokens s ∧ v.continues s = false := by
  obtain ⟨gap, hb, hs⟩ := Text.exists_blanks_trimLeft s
  unfold openCondition? at h
  split at h
  · simp at h
  · rename_i c t ht
    split at h
    · rename_i hparen
      split at h
      · simp at h
      · rename_i condition rest he
        split at h
        · simp only [Option.some.injEq] at h
          rw [ht, hparen, enclosed_eq_some he] at hs
          rw [hs, ← h]
          refine ⟨?_, ?_⟩
          · rw [tokens_blanks_append hb, tokens_skips ho]
            refine (Same.append_left (t := ')' :: rest) ⟨?_, ?_⟩ _).1
            · rw [tokens_blank rfl, tokens_skips hc, tokens_trimLeft]
            · exact (continues_blank rfl _).trans (glued_of_skips hc).symm
          · have hstop : v.continues ('(' :: (condition ++ ')' :: rest)) = false :=
              glued_of_skips ho
            rw [(Same.blanks_append hb hstop).2, hstop]
        · simp at h
    · simp at h

theorem tokens_openConditions (ho : v.skips '(' = true) (hc : v.skips ')' = true)
    (s : List Char) : v.tokens (openConditions s) = v.tokens s := by
  fun_induction openConditions s with
  | case1 s _ => rfl
  | case2 s r h ih => exact ih.trans (tokens_openCondition? ho hc h).1

theorem tokens_stripCondition (ho : v.skips '(' = true) (hc : v.skips ')' = true)
    (s : List Char) : v.tokens (stripCondition s) = v.tokens s := by
  unfold stripCondition
  split
  · rename_i hif
    split
    · rfl
    · rename_i r hr
      obtain ⟨htok, hstop⟩ := tokens_openCondition? ho hc hr
      conv => rhs; rw [eq_of_ifWord_starts hif]
      refine (Same.append_left (s := ' ' :: openConditions r) ⟨?_, ?_⟩ ['i', 'f']).1
      · rw [tokens_blank rfl, tokens_openConditions ho hc, htok]
      · exact (continues_blank rfl _).trans hstop.symm
  · rfl

end View
end MiniScriptLayout
