import MiniScriptLayout.Proofs.Lifting.Literal

/-!
Quotes inside literals stand in pairs. A closed literal is such a text between two quotes, and a
literal without end is one behind a quote, which is the last one of its text. So all literals of a
text are closed exactly if it has an even number of quotes.
-/

namespace MiniScriptLayout
namespace Literal

/-- The quotes of the text stand in pairs. -/
inductive Doubled : List Char → Prop
  | nil : Doubled []
  | char {c : Char} {s : List Char} : c ≠ '"' → Doubled s → Doubled (c :: s)
  | pair {s : List Char} : Doubled s → Doubled ('"' :: '"' :: s)

/-- A text is doubled, or it is up to a quote that no other one follows. -/
theorem exists_doubled (s : List Char) :
    Doubled s ∨ ∃ body rest, Doubled body ∧ rest.head? ≠ some '"' ∧ s = body ++ '"' :: rest := by
  fun_induction close s with
  | case1 => exact .inl .nil
  | case2 c =>
      by_cases hc : c = '"'
      · exact .inr ⟨[], [], .nil, by simp, by rw [hc]; rfl⟩
      · exact .inl (.char hc .nil)
  | case3 r body rest _ ih =>
      rcases ih with h | ⟨body, rest, hbody, hrest, rfl⟩
      · exact .inl (.pair h)
      · exact .inr ⟨_, rest, .pair hbody, hrest, rfl⟩
  | case4 d r hd => exact .inr ⟨[], d :: r, .nil, by simpa using hd, rfl⟩
  | case5 c d r hc body rest _ ih =>
      rcases ih with h | ⟨body, rest, hbody, hrest, hs⟩
      · exact .inl (.char hc h)
      · exact .inr ⟨c :: body, rest, .char hc hbody, hrest, by rw [hs]; rfl⟩

namespace Doubled

variable {body rest : List Char}

theorem count_quote (h : Doubled body) : body.count '"' % 2 = 0 := by
  induction h with
  | nil => rfl
  | char hc _ ih => rwa [List.count_cons_of_ne hc]
  | pair _ ih =>
      rw [List.count_cons_self, List.count_cons_self]
      omega

theorem append (h : Doubled body) (hrest : Doubled rest) : Doubled (body ++ rest) := by
  induction h with
  | nil => exact hrest
  | char hc _ ih => exact .char hc ih
  | pair _ ih => exact .pair ih

/-- Nothing in the text closes a literal. -/
theorem close_append (h : Doubled body) (s : List Char) :
    close (body ++ s) = (body ++ (close s).1, (close s).2) := by
  induction h with
  | nil => rfl
  | @char c body hc _ ih =>
      rw [List.cons_append]
      cases hs : body ++ s with
      | nil =>
          rw [List.append_eq_nil_iff] at hs
          rw [hs.1, hs.2]
          rfl
      | cons d r =>
          rw [hs] at ih
          simp [close, hc, ih]
  | pair _ ih => simp [close, ih]

theorem close_eq (h : Doubled body) : close body = (body, []) := by
  have hclose := h.close_append []
  rwa [List.append_nil, close, List.append_nil] at hclose

theorem close_quote (h : Doubled body) (hrest : rest.head? ≠ some '"') :
    close (body ++ '"' :: rest) = (body ++ ['"'], rest) := by
  have hquote : close ('"' :: rest) = (['"'], rest) := by
    cases rest with
    | nil => rfl
    | cons c rest => simpa [close] using hrest
  rw [h.close_append, hquote]

theorem not_closed (h : Doubled body) : ¬ Closed ('"' :: body) := by
  rintro ⟨body', heq, hclosed⟩
  obtain rfl := (List.cons.inj heq).2
  have hclose := hclosed [' '] (by simp)
  rw [h.close_append] at hclose
  simp [close] at hclose

end Doubled

/-- A closed literal is a doubled text between two quotes. -/
theorem closed_iff {l : List Char} :
    Closed l ↔ ∃ body, Doubled body ∧ l = '"' :: (body ++ ['"']) := by
  constructor
  · rintro ⟨text, rfl, hclosed⟩
    have hclose := hclosed [] (by simp)
    rw [List.append_nil] at hclose
    rcases exists_doubled text with h | ⟨body, rest, hbody, hrest, rfl⟩
    · exact absurd ⟨text, rfl, hclosed⟩ h.not_closed
    · rw [hbody.close_quote hrest, Prod.mk.injEq] at hclose
      exact ⟨body, hbody, by rw [hclose.2]⟩
  · rintro ⟨body, hbody, rfl⟩
    refine ⟨_, rfl, fun rest hrest => ?_⟩
    rw [List.append_assoc]
    exact hbody.close_quote hrest

theorem liftFrom_doubled (n : Nat) {body : List Char} (h : Doubled body) :
    liftFrom n ('"' :: body) = ⟨marker.write n, ['"' :: body]⟩ := by
  rw [liftFrom_quote, h.close_eq, liftFrom, List.append_nil]

theorem liftFrom_closed (n : Nat) {body rest : List Char} (h : Doubled body)
    (hrest : rest.head? ≠ some '"') :
    liftFrom n ('"' :: (body ++ '"' :: rest)) =
      ⟨marker.write n ++ (liftFrom (n + 1) rest).text,
        ('"' :: (body ++ ['"'])) :: (liftFrom (n + 1) rest).table⟩ := by
  rw [liftFrom_quote, h.close_quote hrest]

/-- A text has closed literals alone, or a literal without end is behind those. -/
theorem exists_open (n : Nat) (s : List Char) :
    (∀ l ∈ (liftFrom n s).table, Closed l) ∨
      ∃ before body, Doubled body ∧ (∀ l ∈ (liftFrom n before).table, Closed l) ∧
        before.getLast? ≠ some '"' ∧ s = before ++ '"' :: body := by
  induction n, s using liftFrom.induct with
  | case1 n =>
      rw [liftFrom]
      exact .inl (List.forall_mem_nil _)
  | case2 n r ih =>
      rcases exists_doubled r with h | ⟨body, rest, hbody, hrest, rfl⟩
      · exact .inr ⟨[], r, h, by simp [liftFrom], by simp, rfl⟩
      · have hclosed : Closed ('"' :: (body ++ ['"'])) := closed_iff.2 ⟨body, hbody, rfl⟩
        rw [hbody.close_quote hrest] at ih
        rw [liftFrom_closed n hbody hrest]
        refine ih.imp (fun h => List.forall_mem_cons.2 ⟨hclosed, h⟩) ?_
        rintro ⟨before, body', hbody', hbefore, hlast, rfl⟩
        have hhead : before.head? ≠ some '"' := by
          cases before with
          | nil => simp
          | cons c before => simpa using hrest
        -- something stands between the two literals
        have hne : before ≠ [] := by
          rintro rfl
          exact hrest rfl
        refine ⟨'"' :: (body ++ '"' :: before), body', hbody', ?_, ?_, by simp⟩
        · rw [liftFrom_closed n hbody hhead, List.forall_mem_cons]
          exact ⟨hclosed, hbefore⟩
        · rw [← List.cons_append, List.getLast?_append, List.getLast?_cons_of_ne_nil hne]
          cases hb : before.getLast? with
          | none => exact absurd (List.getLast?_eq_none_iff.1 hb) hne
          | some c => rwa [hb] at hlast
  | case3 n c r hc ih =>
      rw [liftFrom_char n hc]
      refine ih.imp_right ?_
      rintro ⟨before, body, hbody, hbefore, hlast, rfl⟩
      refine ⟨c :: before, body, hbody, by rwa [liftFrom_char n hc], ?_, rfl⟩
      cases before with
      | nil => simpa using hc
      | cons d before => rwa [List.getLast?_cons_cons]

/-- The literal without end is the last one, and its marker ends the text. -/
theorem lift_open {before body : List Char} (hbody : Doubled body)
    (hbefore : ∀ l ∈ (lift before).table, Closed l) (hlast : before.getLast? ≠ some '"') :
    lift (before ++ '"' :: body) =
      ⟨(lift before).text ++ marker.write (lift before).table.length,
        (lift before).table ++ ['"' :: body]⟩ := by
  have hlift := liftFrom_append hbefore (t := '"' :: body) fun h => absurd h hlast
  rwa [Nat.zero_add, liftFrom_doubled _ hbody] at hlift

theorem count_quote_of_closed (n : Nat) {s : List Char}
    (h : ∀ l ∈ (liftFrom n s).table, Closed l) : s.count '"' % 2 = 0 := by
  induction n, s using liftFrom.induct with
  | case1 n => rfl
  | case2 n r ih =>
      rcases exists_doubled r with hdoubled | ⟨body, rest, hbody, hrest, rfl⟩
      · rw [liftFrom_doubled n hdoubled, List.forall_mem_singleton] at h
        exact absurd h hdoubled.not_closed
      · rw [liftFrom_closed n hbody hrest, List.forall_mem_cons] at h
        rw [hbody.close_quote hrest] at ih
        have hcount : rest.count '"' % 2 = 0 := ih h.2
        have hpairs := hbody.count_quote
        rw [List.count_cons_self, List.count_append, List.count_cons_self]
        omega
  | case3 n c r hc ih =>
      rw [liftFrom_char n hc] at h
      rw [List.count_cons_of_ne hc]
      exact ih h

/-- All literals are closed exactly if the number of quotes is even. -/
theorem closed_iff_count (s : List Char) :
    (∀ l ∈ (lift s).table, Closed l) ↔ s.count '"' % 2 = 0 := by
  refine ⟨count_quote_of_closed 0, fun heven => (exists_open 0 s).resolve_right ?_⟩
  rintro ⟨before, body, hbody, hbefore, -, rfl⟩
  have hcount := count_quote_of_closed 0 hbefore
  have hpairs := hbody.count_quote
  rw [List.count_append, List.count_cons_self] at heven
  omega

end Literal
end MiniScriptLayout
