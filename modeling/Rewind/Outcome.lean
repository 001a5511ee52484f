import Rewind.Stream

/-!
The three outcomes of a parser: a value and the stream after it, a failure that lets others
try, or an error with a message that nobody tries past. The message of an escalation cannot
even be recovered from.
-/
namespace Rewind

structure Message where
  text : String
  escalated : Bool
  deriving DecidableEq

namespace Message

def unspecified : String := "unspecified parse error"

/-- An empty text is replaced. -/
def ofText (text : String) : Message := ⟨if text.isEmpty then unspecified else text, false⟩

def escalation (text : String) : Message := { ofText text with escalated := true }

def softened (m : Message) : Message := { m with escalated := false }

instance : Describe Message :=
  ⟨fun m =>
    Describe.record "ErrorMessage" [("text", describe m.text), ("escalated", describe m.escalated)]⟩

end Message

/-- Why a whole parse gave no value. -/
inductive ParseError where
  | noMatch (position : Position)
  | rejected (text : String) (position : Position)
  deriving DecidableEq

namespace ParseError

def position : ParseError → Position
  | noMatch position => position
  | rejected _ position => position

def message : ParseError → String
  | noMatch _ => "no alternative matched"
  | rejected text _ => text

instance : ToString ParseError := ⟨fun e => toString e.position ++ ": " ++ e.message⟩

end ParseError

inductive Outcome (σ α : Type) where
  | success (value : α) (rest : Stream σ)
  | failure (rest : Stream σ)
  | error (rest : Stream σ) (message : Message)
  deriving DecidableEq

namespace Outcome

variable {σ α β : Type}

def rest : Outcome σ α → Stream σ
  | success _ rest => rest
  | failure rest => rest
  | error rest _ => rest

def position (r : Outcome σ α) : Position := r.rest.position

def value? : Outcome σ α → Option α
  | success value _ => some value
  | failure _ | error .. => none

def message? : Outcome σ α → Option Message
  | error _ message => some message
  | success .. | failure _ => none

def isSuccess : Outcome σ α → Bool
  | success .. => true
  | failure _ | error .. => false

def isFailure : Outcome σ α → Bool
  | failure _ => true
  | success .. | error .. => false

def isError : Outcome σ α → Bool
  | error .. => true
  | success .. | failure _ => false

def isEscalation (r : Outcome σ α) : Bool := r.message?.any Message.escalated

def map (f : α → β) : Outcome σ α → Outcome σ β
  | success value rest => success (f value) rest
  | failure rest => failure rest
  | error rest message => error rest message

/-- Goes on from a success; the other outcomes stay as they are. -/
def andThen {m : Type → Type} [Pure m] (next : α → Stream σ → m (Outcome σ β)) :
    Outcome σ α → m (Outcome σ β)
  | success value rest => next value rest
  | failure rest => pure (failure rest)
  | error rest message => pure (error rest message)

/-- The value and stream of a success, or the other outcome, which has no value to be typed by. -/
def split : Outcome σ α → Except (Outcome σ β) (α × Stream σ)
  | success value rest => .ok (value, rest)
  | failure rest => .error (failure rest)
  | error rest message => .error (error rest message)

def fold (onSuccess : α → Stream σ → β) (onFailure : Stream σ → β)
    (onError : Stream σ → Message → β) :
    Outcome σ α → β
  | success value rest => onSuccess value rest
  | failure rest => onFailure rest
  | error rest message => onError rest message

/-- Failures and errors become a parse error at the stream they leave. -/
def result : Outcome σ α → Except ParseError (α × Stream σ)
  | success value rest => .ok (value, rest)
  | failure rest => .error (.noMatch rest.position)
  | error rest message => .error (.rejected message.text rest.position)

instance [Describe σ] [Describe α] : Describe (Outcome σ α) where
  describe
    | success value rest =>
      Describe.record "Success" [("value", describe value), ("stream", describe rest)]
    | failure rest => Describe.record "Failure" [("stream", describe rest)]
    | error rest message =>
      Describe.record "Error" [("stream", describe rest), ("message", describe message)]

end Outcome
end Rewind
