import Unalias.Error

/-!
The settings of a run in three layers: defaults, environment variables, and values given
explicitly, each over the one before.
-/

namespace Unalias

structure Settings where
  dryRun : Bool := false
  verbose : Bool := false
  sync : Bool := false
  concurrency : Nat := 16
  resolveFrom : Policy := .source
  deriving DecidableEq, Inhabited, Repr

namespace Settings

structure Overrides where
  dryRun : Option Bool := none
  verbose : Option Bool := none
  sync : Option Bool := none
  concurrency : Option Nat := none
  resolveFrom : Option Policy := none
  deriving DecidableEq, Inhabited, Repr

def fields (s : Settings) : List (String × Value) :=
  [("concurrency", .unsigned s.concurrency), ("dry_run", .bool s.dryRun),
    ("resolve_from", .string s.resolveFrom.name), ("sync", .bool s.sync),
    ("verbose", .bool s.verbose)]

/-- A field with a value, if there is one. -/
def given {α : Type} (key : String) (encode : α → Value) (a? : Option α) :
    List (String × Value) :=
  (a?.map fun a => (key, encode a)).toList

/-- The fields that are given explicitly. -/
def Overrides.fields (o : Overrides) : List (String × Value) :=
  given "concurrency" .unsigned o.concurrency ++ given "dry_run" .bool o.dryRun ++
    given "resolve_from" (fun p => .string p.name) o.resolveFrom ++ given "sync" .bool o.sync ++
    given "verbose" .bool o.verbose

/-- The fields of the defaults, the variables and the explicit values, each over those before. -/
def layers (environment : List (String × String)) (o : Overrides) : List (String × Value) :=
  overEntries (overEntries (fields {}) (fieldsOf environment)) o.fields

/-- The value of a field; without one the default stands. -/
def readField {α : Type} (fields : List (String × Value)) (key : String)
    (read : String → Value → Except FieldError α) (default : α) : Except FieldError α :=
  match fields.lookup key with
  | some value => read key value
  | none => .ok default

/-- Fields are read in the order of their names, and the first that does not fit is reported. -/
def ofFields (fields : List (String × Value)) : Except FieldError Settings := do
  let default : Settings := {}
  let concurrency ← readField fields "concurrency" count default.concurrency
  let dryRun ← readField fields "dry_run" boolean default.dryRun
  let resolveFrom ← readField fields "resolve_from" policy default.resolveFrom
  let sync ← readField fields "sync" boolean default.sync
  let verbose ← readField fields "verbose" boolean default.verbose
  return ⟨dryRun, verbose, sync, concurrency, resolveFrom⟩

/-- The settings of a run; it needs at least one file in flight. -/
def load (environment : List (String × String)) (overrides : Overrides) :
    Except Error Settings :=
  match ofFields (layers environment overrides) with
  | .error e => .error (.config (.field e))
  | .ok settings =>
    if settings.concurrency = 0 then .error (.config .zeroConcurrency) else .ok settings

/-- A dry run always shows its report. -/
def emitsReport (s : Settings) : Bool :=
  s.dryRun || s.verbose

end Settings

end Unalias
