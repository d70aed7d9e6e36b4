import GradleBuild.Log.Level
import GradleBuild.Path

/-!
# Log settings

The console shows events up to one level.  A log file, if there is one, has a level of its own.
-/

namespace GradleBuild.Log

structure Settings where
  console : Level := .info
  file : Level := .trace
  logFile : Option Path := none
  showSource : Bool := false
  deriving DecidableEq, Repr, Inhabited

end GradleBuild.Log
