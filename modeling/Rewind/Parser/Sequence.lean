import Rewind.Session

/-!
Parsers one after another. Failures and errors of a part are those of the whole, except that a list
of parsers fails where the failing one was tried.
-/
namespace Rewind.Parser

variable {τ σ ε α β γ : Type}

def map (f : α → β) (p : Parser τ σ ε α) : Parser τ σ ε β := fun s => return (← p s).map f

def ignore (p : Parser τ σ ε α) : Parser τ σ ε Unit := fun s => return (← p s).map fun _ => ()

def bind (p : Parser τ σ ε α) (next : α → Parser τ σ ε β) : Parser τ σ ε β := fun s => do
  (← p s).andThen fun value rest => next value rest

def pair (p : Parser τ σ ε α) (q : Parser τ σ ε β) : Parser τ σ ε (α × β) := fun s => do
  (← p s).andThen fun first rest => return (← q rest).map fun second => (first, second)

def keepLeft (p : Parser τ σ ε α) (q : Parser τ σ ε β) : Parser τ σ ε α := fun s => do
  (← p s).andThen fun first rest => return (← q rest).map fun _ => first

def keepRight (p : Parser τ σ ε α) (q : Parser τ σ ε β) : Parser τ σ ε β := fun s => do
  (← p s).andThen fun _ rest => q rest

def between (opening : Parser τ σ ε α) (p : Parser τ σ ε β) (closing : Parser τ σ ε γ) :
    Parser τ σ ε β :=
  fun s => do
    (← opening s).andThen fun _ rest => do
      (← p rest).andThen fun value rest => return (← closing rest).map fun _ => value

/-- Runs the parsers that are left, with the values so far in reverse. -/
def sequenceFrom : List α → List (Parser τ σ ε α) → Parser τ σ ε (List α)
  | values, [], s => pure (.success values.reverse s)
  | values, p :: rest, s => do
    match ← p s with
    | .success value next => sequenceFrom (value :: values) rest next
    | .failure _ => return .failure s
    | .error next message => return .error next message

def sequence (ps : List (Parser τ σ ε α)) : Parser τ σ ε (List α) := sequenceFrom [] ps

end Rewind.Parser
