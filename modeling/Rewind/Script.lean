import Rewind.Session

/-!
Parsers written by hand: a script moves along the streams that it is given, leaves events, and ends
with an outcome of its own making.
-/
namespace Rewind

inductive Script (σ ε α : Type) where
  | done (outcome : Outcome σ α)
  | consume (s : Stream σ) (next : Stream σ → Script σ ε α)
  | emit (event : ε) (next : Script σ ε α)

namespace Script

variable {τ σ ε α : Type}

/-- The script that moves so many symbols on before it goes on. -/
def advance (next : Stream σ → Script σ ε α) : Nat → Stream σ → Script σ ε α
  | 0, s => next s
  | count + 1, s => .consume s (advance next count)

def run [Source τ σ] [Symbol σ] : Script σ ε α → Run τ σ ε (Outcome σ α)
  | done outcome => pure outcome
  | consume s next => do (next (← Run.consume s)).run
  | emit event next => do
    Run.emit event
    next.run

end Script
end Rewind
