import Rewind.Session

/-!
Repetition. Open-ended repetition refuses a round that moves nowhere, since it would go on for
ever; the rounds of one repetition are bounded by fuel, and running out of it is not an
outcome of the grammar.
-/
namespace Rewind.Parser

variable {τ σ ε α β : Type}

def zeroWidthRepetition : String := "repeated parser succeeded without consuming input"

def zeroWidthItem : String := "separated item succeeded without consuming input"

/-- So many more times, with the values so far in reverse. -/
def exactlyFrom (p : Parser τ σ ε α) : Nat → List α → Parser τ σ ε (List α)
  | 0, values, s => pure (.success values.reverse s)
  | count + 1, values, s => do
    match ← p s with
    | .success value next => exactlyFrom p count (value :: values) next
    | .failure _ => return .failure s
    | .error next message => return .error next message

/-- Storage for all values is reserved before the first is parsed. -/
def exactly [Stored α] (p : Parser τ σ ε α) (count : Nat) : Parser τ σ ε (List α) := fun s =>
  if HasStorage α count then exactlyFrom p count [] s else Run.fault .capacityOverflow

theorem exactly_of_storage [Stored α] {p : Parser τ σ ε α} {count : Nat}
    (storage : HasStorage α count) : exactly p count = exactlyFrom p count [] :=
  funext fun _ => if_pos storage

theorem exactly_of_full [Stored α] {p : Parser τ σ ε α} {count : Nat}
    (full : ¬ HasStorage α count) : exactly p count = fun _ => Run.fault .capacityOverflow :=
  funext fun _ => if_neg full

/-- As often as it matches, with the values so far in reverse. -/
def manyFrom (p : Parser τ σ ε α) : Nat → List α → Parser τ σ ε (List α)
  | 0, _, _ => Run.outOfFuel
  | fuel + 1, values, s => do
    match ← p s with
    | .success value next =>
      if next.position.index = s.position.index then
        Run.note (.zeroWidthRepetition s.position)
        return .error s (.ofText zeroWidthRepetition)
      else manyFrom p fuel (value :: values) next
    | .failure _ => return .success values.reverse s
    | .error next message => return .error next message

def many (fuel : Nat) (p : Parser τ σ ε α) : Parser τ σ ε (List α) := manyFrom p fuel []

def atLeast [Stored α] (fuel : Nat) (p : Parser τ σ ε α) (count : Nat) :
    Parser τ σ ε (List α) := fun s => do
  (← exactly p count s).andThen fun values rest => manyFrom p fuel values.reverse rest

theorem atLeast_of_full [Stored α] {fuel : Nat} {p : Parser τ σ ε α} {count : Nat}
    (full : ¬ HasStorage α count) :
    atLeast fuel p count = fun _ => Run.fault .capacityOverflow := by
  funext s session
  rw [atLeast, exactly_of_full full]
  rfl

/-- Separators and items after the first, with the values so far in reverse. -/
def separatedFrom (p : Parser τ σ ε α) (separator : Parser τ σ ε β) :
    Nat → List α → Parser τ σ ε (List α)
  | 0, _, _ => Run.outOfFuel
  | fuel + 1, values, s => do
    match ← separator s with
    | .success _ middle =>
      match ← p middle with
      | .success value next =>
        if next.position.index = s.position.index then
          Run.note (.zeroWidthItem s.position)
          return .error s (.ofText zeroWidthItem)
        else separatedFrom p separator fuel (value :: values) next
      | .failure _ => return .failure middle
      | .error next message => return .error next message
    | .failure _ => return .success values.reverse s
    | .error next message => return .error next message

/-- One item or more. A separator has to be followed by an item. -/
def separated (fuel : Nat) (p : Parser τ σ ε α) (separator : Parser τ σ ε β) :
    Parser τ σ ε (List α) :=
  fun s => do (← p s).andThen fun value rest => separatedFrom p separator fuel [value] rest

end Rewind.Parser
