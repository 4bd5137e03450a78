import Unalias.Policy
import Unalias.Settings.Value
import Unalias.Text.Split

/-!
Settings in environment variables. A variable counts if its name starts with `ALIAS_REWRITE_` in
any letter case; the rest of the name, in lower case, is the field it sets.
-/

namespace Unalias.Settings

def variablePrefix : String := "ALIAS_REWRITE_"

def lower (cs : List Char) : List Char :=
  cs.map Char.toLower

/-- The field a variable sets, as the pieces between its dots. A name with an empty piece sets
none. -/
def fieldPath? (name : String) : Option (List String) :=
  match (lower variablePrefix.toList).isPrefixOf? (lower (Text.trim name.toList)) with
  | none => none
  | some rest =>
    let pieces := Text.split '.' (Text.trim rest)
    if [] ∈ pieces then none else some (pieces.map String.ofList)

def nest : List String → Value → Value
  | [], value => value
  | key :: keys, value => .map [(key, nest keys value)]

def addVariable (fields : List (String × Value)) (setting : String × String) :
    List (String × Value) :=
  match fieldPath? setting.1 with
  | none => fields
  | some path =>
    match nest path (Value.ofText setting.2) with
    | .map new => overEntries fields new
    | _ => fields

/-- The fields that variables set; of two variables for one field the later counts. -/
def fieldsOf (environment : List (String × String)) : List (String × Value) :=
  environment.foldl addVariable []

inductive Misfit where
  | wrongType (found expected : String)
  | negative (n : Int)
  | unknownPolicy (name : String)
  deriving DecidableEq, Repr

/-- A field, as the keys that lead to it, with a value that does not fit. -/
structure FieldError where
  path : List String
  misfit : Misfit
  deriving DecidableEq, Repr

def Misfit.message : Misfit → String
  | .wrongType found expected => "invalid type: found " ++ found ++ ", expected " ++ expected
  | .negative n => "invalid value signed int `" ++ toString n ++ "`, expected usize"
  | .unknownPolicy name =>
    "unknown variant: found `" ++ name ++ "`, expected ``source` or `output``"

def FieldError.message (e : FieldError) : String :=
  "Configuration error: " ++ e.misfit.message ++ " for key " ++
    Text.quoted (String.ofList ((".".intercalate e.path).toList.map Char.toUpper)) ++ " in `" ++
    variablePrefix ++ "` environment variable(s)"

def boolean (key : String) : Value → Except FieldError Bool
  | .bool b => .ok b
  | v => .error ⟨[key], .wrongType v.describe "a boolean"⟩

def count (key : String) : Value → Except FieldError Nat
  | .unsigned n => .ok n
  | .signed n => if n < 0 then .error ⟨[key], .negative n⟩ else .ok n.toNat
  | v => .error ⟨[key], .wrongType v.describe "usize"⟩

/-- A policy is a string. A map names it by its first key and could only hold nothing below, which
no variable can say. -/
def policy (key : String) : Value → Except FieldError Policy
  | .string s =>
    if s = "source" then .ok .source
    else if s = "output" then .ok .output
    else .error ⟨[key], .unknownPolicy s⟩
  | .map [] => .error ⟨[key], .wrongType "map" "enum"⟩
  | .map ((name, v) :: _) =>
    if name = "source" ∨ name = "output" then .error ⟨[key, name], .wrongType v.describe "unit"⟩
    else .error ⟨[key, name], .unknownPolicy name⟩
  | v => .error ⟨[key], .wrongType v.describe "enum ResolveFrom"⟩

end Unalias.Settings
