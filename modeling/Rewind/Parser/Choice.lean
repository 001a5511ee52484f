import Rewind.Session

/-!
Ordered choice and lookahead. What is tried next is tried on the stream that was given first, and
only after a failure: an error ends the choice.
-/
namespace Rewind.Parser

variable {τ σ ε α : Type}

def orElse (p q : Parser τ σ ε α) : Parser τ σ ε α := fun s => do
  match ← p s with
  | .failure _ => q s
  | outcome => return outcome

def choice : List (Parser τ σ ε α) → Parser τ σ ε α
  | [], s => pure (.failure s)
  | p :: rest, s => do
    match ← p s with
    | .failure _ => choice rest s
    | outcome => return outcome

def optional (p : Parser τ σ ε α) : Parser τ σ ε (Option α) := fun s => do
  match ← p s with
  | .success value rest => return .success (some value) rest
  | .failure _ => return .success none s
  | .error rest message => return .error rest message

/-- The value of what comes next, which is left where it is. -/
def lookAhead (p : Parser τ σ ε α) : Parser τ σ ε α := fun s => do
  match ← p s with
  | .success value _ => return .success value s
  | .failure _ => return .failure s
  | .error rest message => return .error rest message

def notAhead (p : Parser τ σ ε α) : Parser τ σ ε Unit := fun s => do
  match ← p s with
  | .success .. => return .failure s
  | .failure _ => return .success () s
  | .error rest message => return .error rest message

def filter (accepts : α → Bool) (p : Parser τ σ ε α) : Parser τ σ ε α := fun s => do
  match ← p s with
  | .success value rest => if accepts value then return .success value rest else return .failure s
  | outcome => return outcome

end Rewind.Parser
