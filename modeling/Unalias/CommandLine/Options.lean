import Unalias.Settings.Load

/-!
The options of the command line. Arguments are read from left to right and the first that stops
the reading decides; each option is given at most once.
-/

namespace Unalias

structure Options where
  project : Path
  src : Path
  out : Option Path
  overrides : Settings.Overrides
  quiet : Bool
  deriving DecidableEq, Repr

namespace Options

/-- Why there is nothing to run: the command line is wrong, or asks for a text. -/
inductive Stop where
  | misuse
  | help
  | version
  deriving DecidableEq, Repr

inductive Switch where
  | dryRun
  | verbose
  | quiet
  | sync
  deriving DecidableEq, Repr

inductive Setting where
  | project
  | src
  | out
  | concurrency
  | resolveFrom
  deriving DecidableEq, Repr

inductive Meaning where
  | switch (s : Switch)
  | setting (s : Setting)
  | text (stop : Stop)
  deriving DecidableEq, Repr

def longNames : List (String × Meaning) :=
  [("project", .setting .project), ("tsconfig", .setting .project), ("src", .setting .src),
    ("out", .setting .out), ("dry-run", .switch .dryRun), ("verbose", .switch .verbose),
    ("quiet", .switch .quiet), ("sync", .switch .sync), ("concurrency", .setting .concurrency),
    ("resolve-from", .setting .resolveFrom), ("help", .text .help), ("version", .text .version)]

def shortNames : List (Char × Meaning) :=
  [('p', .setting .project), ('s', .setting .src), ('o', .setting .out), ('d', .switch .dryRun),
    ('v', .switch .verbose), ('q', .switch .quiet), ('h', .text .help), ('V', .text .version)]

structure Draft where
  switches : List Switch := []
  project : Option Path := none
  src : Option Path := none
  out : Option Path := none
  concurrency : Option Nat := none
  resolveFrom : Option Policy := none
  deriving DecidableEq, Repr

namespace Draft

def addSwitch (d : Draft) (s : Switch) : Except Stop Draft :=
  if s ∈ d.switches then .error .misuse else .ok { d with switches := s :: d.switches }

/-- The value of an option that was not given before and now is given as `value?`. -/
def fill {α : Type} (old value? : Option α) : Except Stop (Option α) :=
  match old, value? with
  | none, some a => .ok (some a)
  | _, _ => .error .misuse

/-- A path on the command line is not empty. -/
def path? (s : String) : Option Path :=
  if s = "" then none else some ⟨s⟩

def addSetting (d : Draft) (s : Setting) (value : String) : Except Stop Draft :=
  match s with
  | .project => do return { d with project := ← fill d.project (path? value) }
  | .src => do return { d with src := ← fill d.src (path? value) }
  | .out => do return { d with out := ← fill d.out (path? value) }
  | .concurrency => do
    return { d with concurrency := ← fill d.concurrency (Settings.unsigned? value.toList) }
  | .resolveFrom => do
    return { d with resolveFrom := ← fill d.resolveFrom (Policy.ofName? value) }

end Draft

/-- Options read so far, and the one that waits for its value in the next argument. -/
abbrev Progress := Draft × Option Setting

/-- Reads the letters after a single dash. Those after an option with a value are its value, from
which one equals sign is dropped. -/
def readLetters (d : Draft) : List Char → Except Stop Progress
  | [] => .ok (d, none)
  | c :: cs =>
    match shortNames.lookup c with
    | none => .error .misuse
    | some (.text stop) => .error stop
    | some (.switch s) => do readLetters (← d.addSwitch s) cs
    | some (.setting s) =>
      match cs with
      | [] => .ok (d, some s)
      | '=' :: value => do return (← d.addSetting s (String.ofList value), none)
      | value => do return (← d.addSetting s (String.ofList value), none)

/-- Reads what follows two dashes: a name, and a value after an equals sign. -/
def readLong (d : Draft) (cs : List Char) : Except Stop Progress :=
  let name := String.ofList (cs.takeWhile (· ≠ '='))
  match longNames.lookup name, cs.dropWhile (· ≠ '=') with
  | some (.text stop), [] => .error stop
  | some (.switch s), [] => do return (← d.addSwitch s, none)
  | some (.setting s), [] => .ok (d, some s)
  | some (.setting s), _ :: value => do return (← d.addSetting s (String.ofList value), none)
  | _, _ => .error .misuse

/-- A dash alone is a value. -/
def isOption (arg : String) : Bool :=
  arg.toList.head? = some '-' && arg ≠ "-"

/-- Reads arguments after `waiting`, an option whose value comes next. Nothing may follow the end
of all options. -/
def readAll (d : Draft) : (waiting : Option Setting) → List String → Except Stop Draft
  | none, [] => .ok d
  | some _, [] => .error .misuse
  | some s, arg :: args =>
    if isOption arg then .error .misuse else do readAll (← d.addSetting s arg) none args
  | none, arg :: args =>
    match arg.toList with
    | ['-', '-'] => if args.isEmpty then .ok d else .error .misuse
    | '-' :: '-' :: cs => do
      let (d, waiting) ← readLong d cs
      readAll d waiting args
    | '-' :: c :: cs => do
      let (d, waiting) ← readLetters d (c :: cs)
      readAll d waiting args
    | _ => .error .misuse

def Draft.explicit (d : Draft) (s : Switch) : Option Bool :=
  if s ∈ d.switches then some true else none

/-- A project and sources are needed, and a run is not quiet and verbose at once. -/
def Draft.finish (d : Draft) : Except Stop Options :=
  match d.project, d.src with
  | some project, some src =>
    if .verbose ∈ d.switches ∧ .quiet ∈ d.switches then .error .misuse
    else
      .ok {
        project := project
        src := src
        out := d.out
        overrides := {
          dryRun := d.explicit .dryRun
          verbose := d.explicit .verbose
          sync := d.explicit .sync
          concurrency := d.concurrency
          resolveFrom := d.resolveFrom }
        quiet := .quiet ∈ d.switches }
  | _, _ => .error .misuse

def ofArguments (args : List String) : Except Stop Options := do
  (← readAll {} none args).finish

end Options

end Unalias
