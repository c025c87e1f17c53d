/-
Log records.

Building and emitting kernels leaves a trail of records.  They are plain values; what becomes of
them is decided by whoever asked for the work.
-/

set_option relaxedAutoImplicit false
set_option autoImplicit false

namespace Electrokinetics

namespace Log

/-- How much a record matters. -/
inductive Level where
  | debug
  | info
  | warning
  deriving DecidableEq, Repr

/-- The name of a level in texts. -/
def Level.text : Level → String
  | debug => "DEBUG"
  | info => "INFO"
  | warning => "WARN"

/-- One record. -/
structure Record where
  level : Level
  text : String
  deriving DecidableEq, Repr

end Log

end Electrokinetics
