import MiniScriptLayout.Proofs.Text.Lines
import MiniScriptLayout.Proofs.Text.Trim

/-!
Tokens of a text. A view says which characters hold together and which are tokens by themselves;
blanks belong to no token, and neither does any other character. Two texts with the same tokens
differ in the spacing and in the characters that the view leaves out.
-/

namespace MiniScriptLayout

/-- A way to read a text as tokens. -/
structure View where
  /-- Neighbours of this class stand in one token. -/
  glued : Char → Bool
  /-- Any other character of this class is a token. -/
  kept : Char → Bool
  glued_blank : ∀ c, Text.isBlank c = true → glued c = false
  kept_blank : ∀ c, Text.isBlank c = true → kept c = false

namespace View

variable (v : View)

/-- The text goes on with a character that a token before it would take. -/
def continues (s : List Char) : Bool :=
  s.head?.any v.glued

/-- The character belongs to no token. -/
def skips (c : Char) : Bool :=
  !v.glued c && !v.kept c

def tokens : List Char → List (List Char)
  | [] => []
  | c :: r =>
    if v.glued c then
      if v.continues r then Text.consPiece c (tokens r) else [c] :: tokens r
    else if v.kept c then [c] :: tokens r
    else tokens r

/-- Two texts read the same behind any text. -/
def Same (s t : List Char) : Prop :=
  v.tokens s = v.tokens t ∧ v.continues s = v.continues t

variable {v}

theorem continues_cons (c : Char) (r : List Char) : v.continues (c :: r) = v.glued c := rfl

theorem skips_blank {c : Char} (h : Text.isBlank c = true) : v.skips c = true := by
  simp [skips, v.glued_blank c h, v.kept_blank c h]

theorem glued_of_skips {c : Char} (h : v.skips c = true) : v.glued c = false := by
  simp only [skips, Bool.and_eq_true, Bool.not_eq_true'] at h
  exact h.1

theorem continues_blank {c : Char} (h : Text.isBlank c = true) (r : List Char) :
    v.continues (c :: r) = false :=
  v.glued_blank c h

theorem tokens_skips {c : Char} (h : v.skips c = true) (r : List Char) :
    v.tokens (c :: r) = v.tokens r := by
  simp only [skips, Bool.and_eq_true, Bool.not_eq_true'] at h
  simp [tokens, h.1, h.2]

theorem tokens_blank {c : Char} (h : Text.isBlank c = true) (r : List Char) :
    v.tokens (c :: r) = v.tokens r :=
  tokens_skips (skips_blank h) r

theorem Same.refl (s : List Char) : v.Same s s :=
  ⟨rfl, rfl⟩

theorem Same.trans {s t u : List Char} (h : v.Same s t) (k : v.Same t u) : v.Same s u :=
  ⟨h.1.trans k.1, h.2.trans k.2⟩

theorem Same.cons {s t : List Char} (h : v.Same s t) (c : Char) : v.Same (c :: s) (c :: t) := by
  refine ⟨?_, rfl⟩
  simp only [tokens, h.1, h.2]

theorem Same.append_left {s t : List Char} (h : v.Same s t) (x : List Char) :
    v.Same (x ++ s) (x ++ t) := by
  induction x with
  | nil => exact h
  | cons c x ih => exact ih.cons c

/-- Behind a character that is not glued, only the tokens count. -/
theorem Same.cons_loose {c : Char} (hc : v.glued c = false) {s t : List Char}
    (h : v.tokens s = v.tokens t) : v.Same (c :: s) (c :: t) := by
  refine ⟨?_, rfl⟩
  simp [tokens, hc, h]

theorem Same.append_loose {x : List Char} (hx : x ≠ []) (hg : ∀ c ∈ x, v.glued c = false)
    {s t : List Char} (h : v.tokens s = v.tokens t) : v.Same (x ++ s) (x ++ t) := by
  induction x with
  | nil => exact absurd rfl hx
  | cons c x ih =>
      cases x with
      | nil => exact cons_loose (hg c (by simp)) h
      | cons d x => exact (ih (by simp) fun e he => hg e (by simp [he])).cons c

theorem tokens_cons_loose {c : Char} (hc : v.glued c = false) {s t : List Char}
    (h : v.tokens s = v.tokens t) : v.tokens (c :: s) = v.tokens (c :: t) :=
  (Same.cons_loose hc h).1

/-- A character of no token may stand before a text that continues no token. -/
theorem Same.insert {c : Char} (hc : v.skips c = true) {s : List Char}
    (hs : v.continues s = false) : v.Same (c :: s) s :=
  ⟨tokens_skips hc s, (glued_of_skips hc).trans hs.symm⟩

theorem Same.insert_blank {c : Char} (hc : Text.isBlank c = true) {s : List Char}
    (hs : v.continues s = false) : v.Same (c :: s) s :=
  Same.insert (skips_blank hc) hs

theorem tokens_skips_append {gap : List Char} (hb : ∀ c ∈ gap, v.skips c = true)
    (s : List Char) : v.tokens (gap ++ s) = v.tokens s := by
  induction gap with
  | nil => rfl
  | cons c gap ih =>
      rw [List.cons_append, tokens_skips (hb c (by simp))]
      exact ih fun d hd => hb d (by simp [hd])

theorem tokens_blanks_append {gap : List Char} (hb : ∀ c ∈ gap, Text.isBlank c = true)
    (s : List Char) : v.tokens (gap ++ s) = v.tokens s :=
  tokens_skips_append (fun c hc => skips_blank (hb c hc)) s

theorem Same.skips_append {gap s : List Char} (hb : ∀ c ∈ gap, v.skips c = true)
    (hs : v.continues s = false) : v.Same (gap ++ s) s := by
  refine ⟨tokens_skips_append hb s, ?_⟩
  cases gap with
  | nil => rfl
  | cons c gap => exact (glued_of_skips (hb c (by simp))).trans hs.symm

theorem Same.blanks_append {gap s : List Char} (hb : ∀ c ∈ gap, Text.isBlank c = true)
    (hs : v.continues s = false) : v.Same (gap ++ s) s :=
  Same.skips_append (fun c hc => skips_blank (hb c hc)) hs

theorem Same.append_skips (s : List Char) {gap : List Char} (hb : ∀ c ∈ gap, v.skips c = true) :
    v.Same (s ++ gap) s := by
  have h : v.Same gap [] := by simpa using Same.skips_append hb (s := []) rfl
  simpa using h.append_left s

theorem tokens_of_continues {r : List Char} (h : v.continues r = true) :
    ∃ d t w ws, r = d :: t ∧ v.tokens r = (d :: w) :: ws := by
  cases r with
  | nil => simp [continues] at h
  | cons d t =>
      rw [continues_cons] at h
      simp only [tokens, h, if_true]
      split
      · cases ht : v.tokens t with
        | nil => exact ⟨d, t, [], [], rfl, rfl⟩
        | cons w ws => exact ⟨d, t, w, ws, rfl, rfl⟩
      · exact ⟨d, t, [], v.tokens t, rfl, rfl⟩

/-- Tokens end where a text begins that continues none. -/
theorem tokens_append {s t : List Char} (ht : v.continues t = false) :
    v.tokens (s ++ t) = v.tokens s ++ v.tokens t := by
  induction s with
  | nil => rfl
  | cons c s ih =>
      have hcontinues : v.continues (s ++ t) = v.continues s := by
        cases s with
        | nil => exact ht
        | cons d s => rfl
      simp only [List.cons_append, tokens, hcontinues, ih]
      split
      · split
        · rename_i hs
          obtain ⟨d, _, w, ws, _, hw⟩ := tokens_of_continues hs
          simp [hw, Text.consPiece]
        · simp
      · split <;> simp

/-- A glued run that nothing continues is a token. -/
theorem tokens_run_append {w s : List Char} (hne : w ≠ []) (hw : ∀ c ∈ w, v.glued c = true)
    (hs : v.continues s = false) : v.tokens (w ++ s) = w :: v.tokens s := by
  induction w with
  | nil => exact absurd rfl hne
  | cons c w ih =>
      have hc := hw c (by simp)
      cases w with
      | nil => simp [tokens, hc, hs]
      | cons d w =>
          have hd : v.continues (d :: w ++ s) = true := hw d (by simp)
          rw [List.cons_append, tokens, if_pos hc, if_pos hd,
            ih (by simp) fun e he => hw e (by simp [he]), Text.consPiece]

/-- A text is a glued run, or one with another character and a text behind it. -/
theorem run_induction (v : View) {P : List Char → Prop}
    (run : ∀ w : List Char, (∀ c ∈ w, v.glued c = true) → P w)
    (cut : ∀ (w : List Char) (c : Char) (t : List Char),
      (∀ d ∈ w, v.glued d = true) → v.glued c = false → P t → P (w ++ c :: t))
    (s : List Char) : P s := by
  induction hn : s.length using Nat.strongRecOn generalizing s with
  | ind n ih =>
      have hw : ∀ d ∈ s.takeWhile v.glued, v.glued d = true := fun _ h => List.mem_takeWhile_imp h
      rw [← List.takeWhile_append_dropWhile (p := v.glued) (l := s)]
      cases hr : s.dropWhile v.glued with
      | nil =>
          rw [List.append_nil]
          exact run _ hw
      | cons c t =>
          have hc : v.glued c = false := by
            have := List.head?_dropWhile_not v.glued s
            rw [hr] at this
            simpa using this
          refine cut _ c t hw hc (ih t.length ?_ t rfl)
          have := Text.length_dropWhile_le v.glued s
          rw [hr, List.length_cons] at this
          omega

/-- The tokens of a text put together are its characters that are part of a token. -/
theorem flatten_tokens (s : List Char) :
    (v.tokens s).flatten = s.filter fun c => v.glued c || v.kept c := by
  induction s with
  | nil => rfl
  | cons c r ih =>
      have hcons : ∀ ws : List (List Char), (Text.consPiece c ws).flatten = c :: ws.flatten := by
        intro ws
        cases ws <;> rfl
      simp only [tokens, List.filter_cons]
      cases hg : v.glued c <;> cases hk : v.kept c <;> simp [ih] <;> split <;> simp [hcons, ih]

theorem tokens_trimLeft (s : List Char) : v.tokens (Text.trimLeft s) = v.tokens s := by
  obtain ⟨gap, hb, hs⟩ := Text.exists_blanks_trimLeft s
  conv => rhs; rw [hs, tokens_blanks_append hb]

theorem same_trimRight (s : List Char) : v.Same (Text.trimRight s) s := by
  obtain ⟨gap, hb, hs⟩ := Text.exists_trimRight_blanks s
  have h := Same.append_skips (v := v) (Text.trimRight s) fun c hc => skips_blank (hb c hc)
  rw [← hs] at h
  exact ⟨h.1.symm, h.2.symm⟩

theorem tokens_trim (s : List Char) : v.tokens (Text.trim s) = v.tokens s :=
  (same_trimRight _).1.trans (tokens_trimLeft s)

theorem continues_of_trimLeft {s : List Char} (h : v.continues (Text.trimLeft s) = false) :
    v.continues s = false := by
  cases s with
  | nil => rfl
  | cons c r =>
      cases hc : Text.isBlank c with
      | true => exact continues_blank hc r
      | false => simpa [Text.trimLeft, List.dropWhile_cons, hc] using h

/-- The characters of a class, each a token. -/
def single (p : Char → Bool) : View where
  glued _ := false
  kept c := p c && !Text.isBlank c
  glued_blank _ _ := rfl
  kept_blank c h := by simp [h]

theorem tokens_single (p : Char → Bool) (s : List Char) :
    (single p).tokens s = (s.filter (single p).kept).map fun c => [c] := by
  induction s with
  | nil => rfl
  | cons c s ih =>
      simp only [tokens, List.filter_cons, ih]
      cases hc : (single p).kept c <;> simp [single]

theorem filter_of_tokens {p : Char → Bool} {s t : List Char}
    (h : (single p).tokens s = (single p).tokens t) :
    s.filter (single p).kept = t.filter (single p).kept := by
  rw [tokens_single, tokens_single] at h
  exact List.map_injective_iff.2 (fun c d hcd => by simpa using hcd) h

theorem tokens_joinReturns (s : List Char) : v.tokens (Text.joinReturns s) = v.tokens s := by
  suffices hs : v.Same (Text.joinReturns s) s from hs.1
  fun_induction Text.joinReturns s with
  | case1 => exact .refl []
  | case2 c => exact .refl [c]
  | case3 c d r hc ih =>
      obtain ⟨rfl, rfl⟩ := hc
      have hfeed : v.Same ('\n' :: Text.joinReturns r) ('\n' :: r) := ih.cons '\n'
      exact hfeed.trans ⟨(tokens_blank (c := '\r') rfl _).symm,
        (continues_blank rfl r).trans (continues_blank (c := '\r') rfl _).symm⟩
  | case4 c d r _ ih => exact ih.cons c

theorem tokens_unlines (ls : List (List Char)) :
    v.tokens (Text.unlines ls) = ls.flatMap v.tokens := by
  induction ls with
  | nil => rfl
  | cons l ls ih =>
      cases ls with
      | nil => simp [Text.unlines, Text.join]
      | cons m ls =>
          have hstop : v.continues ('\n' :: Text.unlines (m :: ls)) = false := continues_blank rfl _
          rw [Text.unlines_cons l (by simp), tokens_append hstop, tokens_blank rfl, ih]
          rfl

end View
end MiniScriptLayout
