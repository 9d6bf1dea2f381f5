/-!
Partners of parentheses. `enclosed` reads what stands between an opener, which is read already, and
its partner, counting one pair of characters only.
-/

namespace MiniScriptLayout
namespace Parentheses

/-- The text up to the partner and the text behind it; `depth` counts the inner openers that are
still without partner. -/
def enclosed (opener closer : Char) (depth : Nat) : List Char → Option (List Char × List Char)
  | [] => none
  | c :: r =>
    if c = opener then
      (enclosed opener closer (depth + 1) r).map fun (inner, rest) => (c :: inner, rest)
    else if c = closer then
      match depth with
      | 0 => some ([], r)
      | depth + 1 => (enclosed opener closer depth r).map fun (inner, rest) => (c :: inner, rest)
    else (enclosed opener closer depth r).map fun (inner, rest) => (c :: inner, rest)

theorem enclosed_eq_some {opener closer : Char} {depth : Nat} {s inner rest : List Char}
    (h : enclosed opener closer depth s = some (inner, rest)) : s = inner ++ closer :: rest := by
  induction s generalizing depth inner with
  | nil => simp [enclosed] at h
  | cons c r ih =>
      simp only [enclosed] at h
      split at h
      · simp only [Option.map_eq_some_iff, Prod.mk.injEq, Prod.exists] at h
        obtain ⟨i, t, hi, rfl, rfl⟩ := h
        simp [ih hi]
      · split at h
        · split at h
          · simp_all
          · simp only [Option.map_eq_some_iff, Prod.mk.injEq, Prod.exists] at h
            obtain ⟨i, t, hi, rfl, rfl⟩ := h
            simp [ih hi]
        · simp only [Option.map_eq_some_iff, Prod.mk.injEq, Prod.exists] at h
          obtain ⟨i, t, hi, rfl, rfl⟩ := h
          simp [ih hi]

theorem length_enclosed {opener closer : Char} {depth : Nat} {s inner rest : List Char}
    (h : enclosed opener closer depth s = some (inner, rest)) :
    s.length = inner.length + rest.length + 1 := by
  rw [enclosed_eq_some h, List.length_append, List.length_cons]
  omega

end Parentheses
end MiniScriptLayout
