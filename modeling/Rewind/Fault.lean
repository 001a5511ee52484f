/-!
What can go wrong outside a grammar: arguments that are refused where they are given, and faults,
which stop the computation that meets them.
-/
namespace Rewind

/-- The number of values of a machine word. Coordinates stay below it. -/
def wordLimit : Nat := 1 <<< 64

inductive Refusal where
  | zeroLookahead
  | lookaheadTooDeep (depth : Nat)
  | line (given : Nat)
  | column (given : Nat)
  | alreadyDefined
  deriving DecidableEq

def Refusal.message : Refusal → String
  | .zeroLookahead => "lookahead depth must be at least 1"
  | .lookaheadTooDeep depth => s!"lookahead depth {depth} exceeds the maximum window size"
  | .line given => s!"line numbers start at 1, got {given}"
  | .column given => s!"column numbers start at 1, got {given}"
  | .alreadyDefined => "recursive parser is already defined"

inductive Fault where
  /-- A coordinate would pass the last word. -/
  | addOverflow
  /-- A span ends before it starts. -/
  | subtractOverflow
  /-- Storage for so many values cannot be reserved. -/
  | capacityOverflow
  /-- A delayed value is needed to compute itself, or its computation stopped before. -/
  | forcedWhileComputing
  /-- Raised by a computation of the user's. -/
  | raised (message : String)
  deriving DecidableEq

def Fault.message : Fault → String
  | .addOverflow => "attempt to add with overflow"
  | .subtractOverflow => "attempt to subtract with overflow"
  | .capacityOverflow => "capacity overflow"
  | .forcedWhileComputing => "delayed value forced while it was being computed"
  | .raised message => message

end Rewind
