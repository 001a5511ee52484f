import Rewind.Outcome

/-!
What a parse works on: the chain of streams and the events that observers left. A parse ends with an
outcome, or halts at a fault or for want of fuel, and what it did to the session stays either way.
-/
namespace Rewind

structure Session (τ σ ε : Type) where
  chain : Chain τ σ
  events : Array ε

inductive Halt where
  | fault (fault : Fault)
  | outOfFuel
  deriving DecidableEq

abbrev Run (τ σ ε α : Type) := EStateM Halt (Session τ σ ε) α

/-- A parser answers each stream with an outcome. -/
abbrev Parser (τ σ ε α : Type) := Stream σ → Run τ σ ε (Outcome σ α)

namespace Session

variable {τ σ ε : Type} [Source τ σ]

/-- Opens the input in a window at the given position. -/
def ofWindow (window : Window τ σ) (position : Position) : Stream σ × Session τ σ ε :=
  match Chain.ofWindow window position with
  | (stream, chain) => (stream, ⟨chain, #[]⟩)

def log (s : Session τ σ ε) : Array Notice := s.chain.window.log

end Session

namespace Run

variable {τ σ ε : Type}

def fault {α : Type} (f : Fault) : Run τ σ ε α := throw (.fault f)

def outOfFuel {α : Type} : Run τ σ ε α := throw .outOfFuel

def note (notice : Notice) : Run τ σ ε Unit :=
  modify fun ⟨chain, events⟩ => ⟨chain.note notice, events⟩

def emit (event : ε) : Run τ σ ε Unit :=
  modify fun ⟨chain, events⟩ => ⟨chain, events.push event⟩

def consume [Source τ σ] [Symbol σ] (s : Stream σ) : Run τ σ ε (Stream σ) := fun
  | ⟨chain, events⟩ =>
    match chain.consume s with
    | (.ok next, chain) => .ok next ⟨chain, events⟩
    | (.error f, chain) => .error (.fault f) ⟨chain, events⟩

end Run
end Rewind
