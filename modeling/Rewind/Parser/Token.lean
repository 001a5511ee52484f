import Rewind.Session

/-!
Parsers of single symbols and fixed runs of them, of the end of the input, and those that look at
nothing. Each of them that does not match fails at the stream it was given.
-/
namespace Rewind.Parser

variable {τ σ ε α : Type}

def succeed (value : α) : Parser τ σ ε α := fun s => pure (.success value s)

def fail : Parser τ σ ε α := fun s => pure (.failure s)

def error (text : String) : Parser τ σ ε α := fun s => pure (.error s (.ofText text))

/-- An error that only a boundary settles. -/
def cut (text : String) : Parser τ σ ε α := fun s => pure (.error s (.escalation text))

def endOfInput : Parser τ σ ε Unit := fun s =>
  if s.isEnd then pure (.success () s) else pure (.failure s)

variable [Source τ σ] [Symbol σ]

def any : Parser τ σ ε σ := fun s => do
  match s.current with
  | some symbol => return .success symbol (← Run.consume s)
  | none => return .failure s

def satisfy (accepts : σ → Bool) : Parser τ σ ε σ := fun s => do
  match s.current with
  | some symbol =>
    if accepts symbol then return .success symbol (← Run.consume s) else return .failure s
  | none => return .failure s

def symbol (expected : σ) : Parser τ σ ε σ := fun s => do
  match s.current with
  | some symbol =>
    if symbol = expected then return .success symbol (← Run.consume s) else return .failure s
  | none => return .failure s

/-- The stream after the expected symbols, none at the first that differs. -/
def matchAll : List σ → Stream σ → Run τ σ ε (Option (Stream σ))
  | [], s => pure (some s)
  | expected :: rest, s => do
    if s.current = some expected then matchAll rest (← Run.consume s) else return none

def literal (expected : List σ) : Parser τ σ ε (List σ) := fun s => do
  match ← matchAll expected s with
  | some rest => return .success expected rest
  | none => return .failure s

end Rewind.Parser
