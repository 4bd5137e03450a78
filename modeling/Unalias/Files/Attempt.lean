import Unalias.Error
import Unalias.Files.Script

/-!
Scripts that may fail; the error of a failed operation names its path.
-/

namespace Unalias

abbrev Attempt := ExceptT Error Script

/-- The error of a walk below `root`, which stands in where the walk knows of no path. -/
def Halt.error (root : Path) (halt : Halt) : Error :=
  .filesAt (halt.path.getD root) halt.cause

namespace Attempt

def read (p : Path) : Attempt String :=
  ExceptT.mk do return (← Files.read p).mapError (Error.filesAt p)

def overwrite (p : Path) (text : String) : Attempt Unit :=
  ExceptT.mk do return (← Files.overwrite p text).mapError (Error.filesAt p)

def entries (root : Path) : Attempt (List Below) :=
  ExceptT.mk do return (← Files.entries root).mapError (Halt.error root)

end Attempt

end Unalias
