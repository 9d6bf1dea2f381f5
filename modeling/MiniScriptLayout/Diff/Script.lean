import MiniScriptLayout.Diff.Match

/-!
Edit scripts: an old and a new text, cut into stretches of lines that are the same and stretches
that are replaced. `olds` and `news` of a script between two texts are these texts.
-/

namespace MiniScriptLayout
namespace Diff

inductive Segment where
  | same (lines : List Line)
  | change (old new : List Line)
  deriving DecidableEq, Repr

namespace Segment

def old : Segment → List Line
  | same lines => lines
  | change old _ => old

def new : Segment → List Line
  | same lines => lines
  | change _ new => new

/-- The segment stands for no lines. -/
def isEmpty : Segment → Bool
  | same lines => lines.isEmpty
  | change old new => old.isEmpty && new.isEmpty

end Segment

abbrev Script := List Segment

namespace Script

def olds (s : Script) : List Line :=
  s.flatMap Segment.old

def news (s : Script) : List Line :=
  s.flatMap Segment.new

/-- Cuts two texts at their longest common run, and what is before and behind it in the same way. -/
def cut (frequent old new : List Line) : Script :=
  let p := parts frequent old new
  if _h : p.run = [] then [.change old new]
  else
    cut frequent p.oldBefore p.newBefore ++ .same p.run :: cut frequent p.oldBehind p.newBehind
termination_by old.length
decreasing_by
  all_goals
    have h := congrArg List.length (old_parts frequent old new)
    have : 0 < (parts frequent old new).run.length := List.length_pos_iff.2 _h
    simp only [List.length_append] at h
    omega

/-- Puts a segment in front of a script; the same lines on both sides of a cut are one segment. -/
def consSegment (s : Segment) (script : Script) : Script :=
  if s.isEmpty then script
  else
    match s, script with
    | .same xs, .same ys :: rest => .same (xs ++ ys) :: rest
    | s, script => s :: script

/-- Leaves out what is empty and joins what is the same. -/
def merge : Script → Script
  | [] => []
  | s :: rest => consSegment s (merge rest)

/-- The script that turns an old text into a new one. -/
def between (old new : List Line) : Script :=
  merge (cut (frequentLines new) old new)

theorem olds_cut (frequent old new : List Line) : (cut frequent old new).olds = old := by
  fun_induction cut frequent old new with
  | case1 => simp [olds, Segment.old]
  | case2 old new p _ ihb iha =>
      simp only [olds, List.flatMap_append, List.flatMap_cons, Segment.old] at ihb iha ⊢
      rw [ihb, iha, old_parts]

theorem news_cut (frequent old new : List Line) : (cut frequent old new).news = new := by
  fun_induction cut frequent old new with
  | case1 => simp [news, Segment.new]
  | case2 old new p _ ihb iha =>
      simp only [news, List.flatMap_append, List.flatMap_cons, Segment.new] at ihb iha ⊢
      rw [ihb, iha, new_parts]

theorem olds_consSegment (s : Segment) (script : Script) :
    (consSegment s script).olds = s.old ++ script.olds := by
  unfold consSegment
  split
  · cases s <;> simp_all [Segment.isEmpty, Segment.old]
  · split <;> simp [olds, Segment.old]

theorem news_consSegment (s : Segment) (script : Script) :
    (consSegment s script).news = s.new ++ script.news := by
  unfold consSegment
  split
  · cases s <;> simp_all [Segment.isEmpty, Segment.new]
  · split <;> simp [news, Segment.new]

theorem olds_merge (s : Script) : (merge s).olds = s.olds := by
  induction s with
  | nil => rfl
  | cons x rest ih =>
      rw [merge, olds_consSegment, ih]
      rfl

theorem news_merge (s : Script) : (merge s).news = s.news := by
  induction s with
  | nil => rfl
  | cons x rest ih =>
      rw [merge, news_consSegment, ih]
      rfl

theorem olds_between (old new : List Line) : (between old new).olds = old := by
  rw [between, olds_merge, olds_cut]

theorem news_between (old new : List Line) : (between old new).news = new := by
  rw [between, news_merge, news_cut]

end Script
end Diff
end MiniScriptLayout
