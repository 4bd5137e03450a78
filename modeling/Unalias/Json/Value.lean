/-!
JSON values. An object keeps its members in the order in which their keys first came.
-/

namespace Unalias

/-- A number is an integer of at most 64 bits or a binary real, held by its bits. -/
inductive Number where
  | integer (n : Int)
  | real (bits : UInt64)
  deriving DecidableEq, Repr

inductive Json where
  | null
  | bool (b : Bool)
  | number (n : Number)
  | string (s : String)
  | array (elements : List Json)
  | object (members : List (String × Json))
  deriving Inhabited, Repr

namespace Json

def ofNat (n : Nat) : Json := .number (.integer n)

def strings (l : List String) : Json := .array (l.map .string)

def strings? : Json → Option (List String)
  | .array l => l.mapM fun | .string s => some s | _ => none
  | _ => none

def member? (key : String) : Json → Option Json
  | .object members => members.lookup key
  | _ => none

end Json

end Unalias
