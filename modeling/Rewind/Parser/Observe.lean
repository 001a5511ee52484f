import Rewind.Session

/-!
Parsers that tell about a parse: the stretch of input that it took, or an event for each value.
-/
namespace Rewind.Parser

variable {τ σ ε α : Type}

def spanned (p : Parser τ σ ε α) : Parser τ σ ε (α × Span) := fun s => do
  (← p s).andThen fun value rest => return .success (value, ⟨s.position, rest.position⟩) rest

/-- Leaves an event for each value. An observer that faults stops the parse. -/
def inspect (observe : α → Except Fault ε) (p : Parser τ σ ε α) : Parser τ σ ε α := fun s => do
  let outcome ← p s
  match outcome with
  | .success value _ =>
    match observe value with
    | .ok event => Run.emit event
    | .error f => Run.fault f
    return outcome
  | _ => return outcome

end Rewind.Parser
