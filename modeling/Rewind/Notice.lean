import Rewind.Position

/-!
The log of a run. Each notice says what happened, with the numbers, the text or the place
that belongs to it.
-/
namespace Rewind

inductive Notice where
  | windowGrew (before after : Nat)
  | sourceExhausted (buffered : Nat)
  | readFailed (reason : String)
  | zeroWidthRepetition (place : Position)
  | zeroWidthItem (place : Position)
  | escalationSoftened (text : String) (place : Position)
  | usedBeforeDefinition (place : Position)
  | noLongerExists (place : Position)
  deriving DecidableEq

namespace Notice

inductive Level where
  | trace
  | debug
  | warn
  deriving DecidableEq

def Level.name : Level → String
  | .trace => "TRACE"
  | .debug => "DEBUG"
  | .warn => "WARN"

def level : Notice → Level
  | windowGrew .. | sourceExhausted .. => .trace
  | zeroWidthRepetition .. | zeroWidthItem .. | escalationSoftened .. => .debug
  | readFailed .. | usedBeforeDefinition .. | noLongerExists .. => .warn

def message : Notice → String
  | windowGrew .. => "growing lookahead window"
  | sourceExhausted .. => "source exhausted"
  | readFailed .. => "source read failed, ending input"
  | zeroWidthRepetition .. => "rejecting zero-width repetition"
  | zeroWidthItem .. => "rejecting zero-width list item"
  | escalationSoftened .. => "intercepted escalation"
  | usedBeforeDefinition .. => "recursive parser used before definition"
  | noLongerExists .. => "recursive parser no longer exists"

end Notice
end Rewind
