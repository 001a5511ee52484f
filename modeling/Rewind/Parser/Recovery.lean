import Rewind.Session

/-!
Turning outcomes into each other: failures into errors or escalations, errors back into failures,
and escalations into errors.
-/
namespace Rewind.Parser

variable {τ σ ε α : Type}

/-- Makes an escalation an ordinary error, and says so in the log. -/
def soften (outcome : Outcome σ α) : Run τ σ ε (Outcome σ α) := do
  match outcome with
  | .error rest message =>
    if message.escalated then
      Run.note (.escalationSoftened message.text rest.position)
      return .error rest message.softened
    else return .error rest message
  | outcome => return outcome

def label (text : String) (p : Parser τ σ ε α) : Parser τ σ ε α := fun s => do
  match ← p s with
  | .failure _ => return .error s (.ofText text)
  | outcome => return outcome

def commit (text : String) (p : Parser τ σ ε α) : Parser τ σ ε α := fun s => do
  match ← p s with
  | .failure _ => return .error s (.escalation text)
  | outcome => return outcome

/-- Turns an ordinary error into a failure. -/
def attempt (p : Parser τ σ ε α) : Parser τ σ ε α := fun s => do
  match ← p s with
  | .error rest message =>
    if message.escalated then return .error rest message else return .failure s
  | outcome => return outcome

def boundary (p : Parser τ σ ε α) : Parser τ σ ε α := fun s => do soften (← p s)

/-- Something under a label, as far as it can be described. -/
structure Labelled (α : Type) where
  inner : α
  text : String

instance {α : Type} [Describe α] : Describe (Labelled α) :=
  ⟨fun l => Describe.record "Label" [("parser", describe l.inner), ("message", describe l.text)]⟩

def undefinedText : String := "recursive parser used before definition"

def droppedText : String := "recursive parser no longer exists"

/-- Stands for a declared parser that has no definition yet. -/
def undefinedRule : Parser τ σ ε α := fun s => do
  Run.note (.usedBeforeDefinition s.position)
  return .error s (.escalation undefinedText)

/-- Stands for a declared parser that nobody owns any more. -/
def droppedRule : Parser τ σ ε α := fun s => do
  Run.note (.noLongerExists s.position)
  return .error s (.escalation droppedText)

end Rewind.Parser
