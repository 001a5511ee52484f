import Rewind.Describe
import Rewind.Fault

/-!
Values computed at most once, on first demand. A cell holds the thunk that will compute its
value, or the value, or neither: that last state lasts while the thunk runs, and for good if the
thunk did not finish.
-/
namespace Rewind

inductive Cell (θ α : Type) where
  | pending (thunk : θ)
  | ready (value : α)
  | spent

namespace Cell

variable {θ α : Type}

def isForced : Cell θ α → Bool
  | ready _ => true
  | pending _ | spent => false

/-- What a cell answers to a demand for its value. -/
inductive Answer (θ α : Type) where
  | known (value : α)
  | start (thunk : θ)
  | refused

/-- A demand takes the thunk out of a pending cell; whoever gets it fills the cell when the
value is there. -/
def demand : Cell θ α → Answer θ α × Cell θ α
  | ready value => (.known value, ready value)
  | pending thunk => (.start thunk, spent)
  | spent => (.refused, spent)

/-- A computation that may look at the cell it computes. -/
inductive Task (α : Type) where
  | value (value : α)
  | raise (message : String)
  | force (next : α → Task α)
  | probe (next : Bool → Task α)

/-- A task runs beside its own cell, which stays as it is until the task has finished. -/
def Task.run (cell : Cell (Task α) α) : Task α → Except Fault α
  | value a => .ok a
  | raise message => .error (.raised message)
  | force next =>
    match cell.demand.1 with
    | .known a => (next a).run cell
    | _ => .error .forcedWhileComputing
  | probe next => (next cell.isForced).run cell

structure Forced (α : Type) where
  result : Except Fault α
  started : Bool
  cell : Cell (Task α) α

def force (cell : Cell (Task α) α) : Forced α :=
  match cell.demand with
  | (.known a, cell) => ⟨.ok a, false, cell⟩
  | (.refused, cell) => ⟨.error .forcedWhileComputing, false, cell⟩
  | (.start task, cell) =>
    match task.run cell with
    | .ok a => ⟨.ok a, true, ready a⟩
    | .error fault => ⟨.error fault, true, cell⟩

instance [Describe α] : Describe (Cell θ α) where
  describe
    | ready value => Describe.tagged "Delayed" (describe value)
    | pending _ | spent => Describe.tagged "Delayed" "<pending>"

end Cell
end Rewind
