import Unalias.Error

/-!
Alias rules. A rule stands for the references that start with its stem; a pattern and its targets
give a rule once the star at the end of each is dropped.
-/

namespace Unalias

structure Rule where
  stem : String
  targets : List String
  deriving DecidableEq, Repr

namespace Rule

def dropStar (s : String) : String :=
  if s.toList.getLast? = some '*' then String.ofList s.toList.dropLast else s

/-- A pattern without a stem gives no rule. -/
def ofPattern? (pattern : String) (targets : List String) : Option Rule :=
  if dropStar pattern = "" then none else some ⟨dropStar pattern, targets.map dropStar⟩

def rest? (rule : Rule) (reference : String) : Option String :=
  (rule.stem.toList.isPrefixOf? reference.toList).map String.ofList

/-- Adds a rule at the end, or over the rule that has its stem. -/
def put (rule : Rule) : List Rule → List Rule
  | [] => [rule]
  | r :: rules => if r.stem = rule.stem then rule :: rules else r :: put rule rules

def putAll (rules : List Rule) : List (String × Json) → Except ConfigError (List Rule)
  | [] => .ok rules
  | (pattern, value) :: rest =>
    match value.strings? with
    | none => .error (.targetsNotStrings pattern)
    | some targets =>
      match ofPattern? pattern targets with
      | none => putAll rules rest
      | some rule => putAll (put rule rules) rest

def ofPaths (paths : List (String × Json)) : Except ConfigError (List Rule) :=
  putAll [] paths

end Rule

end Unalias
