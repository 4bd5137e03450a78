import Unalias.Files.Script
import Unalias.Json.Parser
import Unalias.Settings.Variable

/-!
What can go wrong, by cause, and the message of each cause.
-/

namespace Unalias

inductive ConfigError where
  | missingOption (name : String)
  | circularExtends (route : List Path)
  | parentNotFound (entry : String) (source : Path)
  | targetsNotStrings (pattern : String)
  | field (e : Settings.FieldError)
  | zeroConcurrency
  | custom (message : String)
  deriving DecidableEq, Repr

/-- A failed operation on files, with the path where one is known; a text that is no document; a
wrong configuration; a run started during another; a report that was not taken. -/
inductive Error where
  | files (cause : OsError)
  | filesAt (path : Path) (cause : OsError)
  | invalidJson (path : Path) (refusal : Json.Refusal)
  | config (cause : ConfigError)
  | alreadyRunning
  | report (message : String)
  deriving DecidableEq, Repr

def ConfigError.message : ConfigError → String
  | .missingOption name => "compilerOptions." ++ name ++ " is not set"
  | .circularExtends route =>
    "circular extends chain: " ++ " -> ".intercalate (route.map Path.text)
  | .parentNotFound entry source =>
    "cannot find extends target '" ++ entry ++ "' referenced from " ++ source.text
  | .targetsNotStrings pattern =>
    "compilerOptions.paths['" ++ pattern ++ "'] must be an array of strings"
  | .field e => e.message
  | .zeroConcurrency => "concurrency must be greater than 0"
  | .custom message => message

namespace Error

def message : Error → String
  | .files cause => "IO error: " ++ cause.message
  | .filesAt path cause => "IO error at " ++ path.text ++ ": " ++ cause.message
  | .invalidJson path _ => "Invalid JSON in " ++ path.text
  | .config cause => cause.message
  | .alreadyRunning => "Replacer already running"
  | .report message => "Report error: " ++ message

/-- What a caller tells errors apart by. -/
inductive Class where
  | config
  | reentrancy
  | io
  deriving DecidableEq, Repr

def Class.name : Class → String
  | .config => "CONFIG"
  | .reentrancy => "REENTRANCY"
  | .io => "IO"

def kind : Error → Class
  | .config _ => .config
  | .invalidJson _ _ => .config
  | .alreadyRunning => .reentrancy
  | .files _ => .io
  | .filesAt _ _ => .io
  | .report _ => .io

end Error

end Unalias
