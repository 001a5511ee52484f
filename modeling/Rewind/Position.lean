import Rewind.Describe
import Rewind.Fault

/-!
Places in an input: a line and a column from 1, an index from 0. Positions of one input are ordered
by index alone. A step to the next column or line faults where a coordinate would leave the word.
-/
namespace Rewind

structure Position where
  line : Nat
  column : Nat
  index : Nat
  deriving DecidableEq

namespace Position

def start : Position := ⟨1, 1, 0⟩

def make (line column index : Nat) : Except Refusal Position :=
  if line < 1 then .error (.line line)
  else if column < 1 then .error (.column column)
  else .ok ⟨line, column, index⟩

instance : Ord Position := ⟨fun a b => compare a.index b.index⟩

/-- The later of two positions, the second one when neither is. -/
def later (a b : Position) : Position := if compare a b = .gt then a else b

/-- The earlier of two positions, the first one when neither is. -/
def earlier (a b : Position) : Position := if compare a b = .gt then b else a

def nextColumn (p : Position) : Except Fault Position :=
  if p.column + 1 < wordLimit ∧ p.index + 1 < wordLimit then .ok ⟨p.line, p.column + 1, p.index + 1⟩
  else .error .addOverflow

def nextLine (p : Position) : Except Fault Position :=
  if p.line + 1 < wordLimit ∧ p.index + 1 < wordLimit then .ok ⟨p.line + 1, 1, p.index + 1⟩
  else .error .addOverflow

instance : ToString Position := ⟨fun p => s!"{p.line}:{p.column}"⟩

instance : Describe Position :=
  ⟨fun p => Describe.record "Position"
    [("line", describe p.line), ("column", describe p.column), ("index", describe p.index)]⟩

end Position

/-- A stretch of input, from its first symbol to just after its last. -/
structure Span where
  start : Position
  stop : Position
  deriving DecidableEq

namespace Span

def length (s : Span) : Except Fault Nat :=
  if s.start.index ≤ s.stop.index then .ok (s.stop.index - s.start.index)
  else .error .subtractOverflow

def isEmpty (s : Span) : Bool := s.start.index = s.stop.index

instance : Describe Span :=
  ⟨fun s => Describe.record "Span" [("start", describe s.start), ("end", describe s.stop)]⟩

end Span
end Rewind
