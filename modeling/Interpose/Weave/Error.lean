import Interpose.Code.Error
import Interpose.Matching.Matcher
/-!
# Faults of a transformation

Why a class could not be transformed. Each of them is a fault of one class and leaves that class as
it is.
-/

namespace Interpose

/-- Why a class could not be woven. -/
inductive WeaveError where
  | method (signCode : String) (cause : CodeError)
  | pool (cause : FormatError)
deriving DecidableEq

/-- What is said about the fault. -/
def WeaveError.message : WeaveError → String
  | method signCode cause => "cannot rewrite " ++ signCode ++ ": " ++ cause.message
  | pool cause => cause.message

/-- Why a class could not be transformed. -/
inductive TransformError where
  | malformed (cause : FormatError)
  | weaving (cause : WeaveError)
  | matching (cause : MatchError)
  /-- The host's description of a loaded type broke down. -/
  | crashed
deriving DecidableEq

/-- What is said about the fault. -/
def TransformError.message : TransformError → String
  | malformed cause => "malformed class file: " ++ cause.message
  | weaving cause => "weaving failed: " ++ cause.message
  | matching cause => cause.message
  | crashed => "the description of the loaded type is not available"

end Interpose
