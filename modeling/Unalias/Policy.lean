/-!
Where the targets of an alias are looked up.
-/

namespace Unalias

/-- Targets are looked up among the sources, and a reference then points to the place of what was
found in the output tree; or they are looked up in the output tree itself. -/
inductive Policy where
  | source
  | output
  deriving DecidableEq, Inhabited, Repr

namespace Policy

def name : Policy → String
  | .source => "source"
  | .output => "output"

/-- The policy of a name or its short form, in any letter case. -/
def ofName? (s : String) : Option Policy :=
  let s := String.ofList (s.toList.map Char.toLower)
  if s = "source" ∨ s = "src" then some .source
  else if s = "output" ∨ s = "out" then some .output
  else none

def unknownName (s : String) : String :=
  "Invalid resolution root '" ++ s ++ "'. Valid values: source, output"

end Policy

end Unalias
