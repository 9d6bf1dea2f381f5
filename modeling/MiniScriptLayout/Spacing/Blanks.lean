import MiniScriptLayout.Text.Blank

/-!
Runs of blanks: shortening them to one space, and dropping those that stand right before or right
after characters of a class.
-/

namespace MiniScriptLayout
namespace Spacing

/-- Writes every run of blanks as one space; `inRun` says that the text goes on in a run. -/
def collapseFrom (inRun : Bool) : List Char → List Char
  | [] => []
  | c :: r =>
    if Text.isBlank c then
      if inRun then collapseFrom true r else ' ' :: collapseFrom true r
    else c :: collapseFrom false r

def collapse (s : List Char) : List Char :=
  collapseFrom false s

/-- Drops the blanks right before characters of the class. -/
def dropBefore (p : Char → Bool) : List Char → List Char
  | [] => []
  | c :: r =>
    let rest := dropBefore p r
    if Text.isBlank c && rest.head?.any p then rest else c :: rest

/-- Drops the blanks right after characters of the class; `after` says that the text comes right
after one. -/
def dropAfterFrom (p : Char → Bool) (after : Bool) : List Char → List Char
  | [] => []
  | c :: r =>
    if after && Text.isBlank c then dropAfterFrom p after r
    else c :: dropAfterFrom p (p c) r

def dropAfter (p : Char → Bool) (s : List Char) : List Char :=
  dropAfterFrom p false s

end Spacing
end MiniScriptLayout
