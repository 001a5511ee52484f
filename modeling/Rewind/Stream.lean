import Rewind.Window
import Rewind.Cell

/-!
The input as a chain of streams. A stream is the input from one symbol on and never changes; the
chain behind it computes the successor of each stream once and keeps it, so that going back to an
earlier stream costs nothing and no symbol is read twice.
-/
namespace Rewind

structure Stream (σ : Type) where
  /-- The place of the stream's successor in the chain. Streams of one chain are the same node
  when it agrees. -/
  node : Nat
  /-- The first symbol, none at the end of the input. -/
  current : Option σ
  position : Position
  deriving DecidableEq

namespace Stream

variable {σ : Type}

def isEnd (s : Stream σ) : Bool := s.current.isNone

def isSame (s t : Stream σ) : Bool := s.node = t.node

instance [Describe σ] : Describe (Stream σ) :=
  ⟨fun s =>
    Describe.record "Stream" [("current", describe s.current), ("position", describe s.position)]⟩

/-- The step that leads to a stream's successor: past this symbol, from this position. -/
structure Step (σ : Type) where
  symbol : σ
  position : Position

/-- The line ends with a line feed, and with a carriage return that no line feed follows. -/
def Step.endsLine [Symbol σ] (step : Step σ) (following : Option σ) : Bool :=
  Symbol.isLineFeed step.symbol ||
    (Symbol.isCarriageReturn step.symbol && !following.any Symbol.isLineFeed)

def Step.target [Symbol σ] (step : Step σ) (following : Option σ) : Except Fault Position :=
  if step.endsLine following then step.position.nextLine else step.position.nextColumn

end Stream

/-- The successors found so far, and the window that the next one will be read from. -/
structure Chain (τ σ : Type) where
  window : Window τ σ
  successors : Array (Cell (Stream.Step σ) (Stream σ))

namespace Chain

variable {τ σ : Type}

def note (c : Chain τ σ) (notice : Notice) : Chain τ σ := { c with window := c.window.note notice }

variable [Source τ σ]

/-- The stream at the window's next unread symbol. The end of the input is its own successor. -/
def extend (c : Chain τ σ) (position : Position) : Stream σ × Chain τ σ :=
  match c.window.look 1 with
  | (current, window) =>
    let stream : Stream σ := ⟨c.successors.size, current, position⟩
    let successor := match current with
      | some symbol => .pending ⟨symbol, position⟩
      | none => .ready stream
    (stream, ⟨window, c.successors.push successor⟩)

/-- Opens the input in a window at the given position. -/
def ofWindow (window : Window τ σ) (position : Position) : Stream σ × Chain τ σ :=
  extend ⟨window, #[]⟩ position

variable [Symbol σ]

/-- Reads past one symbol. The symbol is gone from the window even where the position has
no successor. -/
def advance (c : Chain τ σ) (step : Stream.Step σ) : Except Fault (Stream σ) × Chain τ σ :=
  match c.window.look 2 with
  | (following, window) =>
    let c := { c with window := window.pass 1 }
    match step.target following with
    | .error fault => (.error fault, c)
    | .ok position =>
      match c.extend position with
      | (next, c) => (.ok next, c)

/-- The stream one symbol further on. -/
def consume (c : Chain τ σ) (s : Stream σ) : Except Fault (Stream σ) × Chain τ σ :=
  match (c.successors.getD s.node .spent).demand with
  | (.known next, _) => (.ok next, c)
  | (.refused, _) => (.error .forcedWhileComputing, c)
  | (.start step, taken) =>
    match { c with successors := c.successors.setIfInBounds s.node taken }.advance step with
    | (.error fault, c) => (.error fault, c)
    | (.ok next, c) =>
      (.ok next, { c with successors := c.successors.setIfInBounds s.node (.ready next) })

end Chain
end Rewind
