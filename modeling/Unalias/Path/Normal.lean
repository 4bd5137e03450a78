import Unalias.Path.Basic

/-!
Lexical normalization: `.` and `..` are folded into the steps before them, without a look at the
disk.
-/

namespace Unalias.Path

/-- Takes one more step. The steps taken so far stand last first. -/
def step (taken : List Component) : Component → List Component
  | .current => taken
  | .parent =>
    match taken with
    | .name _ :: below => below
    | .root :: below => .root :: below
    | _ => .parent :: taken
  | c => c :: taken

/-- A `..` undoes the name before it, disappears at the root and stays anywhere else. -/
def normalize (p : Path) : Path :=
  ofComponents (p.components.foldl step []).reverse

def resolve (base : Path) (parts : List Path) : Path :=
  (parts.foldl join base).normalize

/-- A relative path is taken from the directory `here`. -/
def absolutize (here p : Path) : Path :=
  if p.isAbsolute then p.normalize else (here.join p).normalize

end Unalias.Path
