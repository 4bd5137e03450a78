import Unalias.Config.Rule
import Unalias.Path.Relative
import Unalias.Policy

/-!
Resolution of aliased references. The first rule whose stem a reference starts with decides; its
targets are tried in order, and the first that leads to a module on disk gives the new reference.
-/

namespace Unalias

structure Resolver where
  rules : List Rule
  resolveFrom : Policy
  aliasRoot : Path
  srcRoot : Path
  outRoot : Path
  deriving DecidableEq, Repr

inductive Resolution where
  | notAliased
  | resolved (reference : String)
  | unresolved
  deriving DecidableEq, Repr

/-! ### Modules on disk -/

def moduleSuffixes : List String := [".js", ".jsx", ".ts", ".tsx", ".d.ts", ".json"]

/-- The paths under which a module is looked for. -/
def Path.spellings (p : Path) : List Path :=
  p :: moduleSuffixes.map p.addSuffix

namespace Files

def someExists : List Path → Script Bool
  | [] => return false
  | p :: ps => do
    if ← doesExist p then return true
    someExists ps

def moduleExists (p : Path) : Script Bool :=
  someExists p.spellings

def firstModule : List Path → Script (Option Path)
  | [] => return none
  | p :: ps => do
    if ← moduleExists p then return some p
    firstModule ps

end Files

namespace Resolver

/-- The first rule whose stem the reference starts with, and what follows the stem. -/
def matching? (r : Resolver) (reference : String) : Option (Rule × String) :=
  r.rules.findSome? fun rule => (rule.rest? reference).map fun rest => (rule, rest)

def probeRoot (r : Resolver) : Path :=
  match r.resolveFrom with
  | .source => r.aliasRoot
  | .output => r.outRoot

def candidates (r : Resolver) (rule : Rule) (rest : String) : List Path :=
  rule.targets.map fun target => r.probeRoot.resolve [⟨target⟩, ⟨rest⟩]

/-- Where a found module is at run time: one among the sources has its place in the output tree. -/
def destination (r : Resolver) (found : Path) : Path :=
  match r.resolveFrom with
  | .output => found
  | .source =>
    match found.stripPrefix? r.srcRoot with
    | some inside => r.outRoot.join inside
    | none => found

def resolve (r : Resolver) (reference : String) (file : Path) : Script Resolution :=
  match r.matching? reference with
  | none => return .notAliased
  | some (rule, rest) => do
    match ← Files.firstModule (r.candidates rule rest) with
    | none => return .unresolved
    | some found =>
      let directory := file.parent?.getD r.outRoot
      return .resolved (Path.moduleReference directory (r.destination found))

end Resolver

end Unalias
