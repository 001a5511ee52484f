import Rewind.Fault
import Rewind.Grammar

/-!
Parsers that are declared first and defined later. Names hold owners of declared parsers, or
handles, which own nothing. A parser lasts while a name or the definition of a parser that lasts
owns it; what is dropped never comes back.
-/
namespace Rewind

inductive Holding where
  | owner (slot : Nat)
  | handle (slot : Nat)
  deriving DecidableEq

namespace Holding

def slot : Holding → Nat
  | owner slot => slot
  | handle slot => slot

/-- The slot that a holding keeps alive. -/
def owned? : Holding → Option Nat
  | owner slot => some slot
  | handle _ => none

end Holding

/-- A declared parser and the slots that its definition owns. -/
structure Declaration (γ : Type) where
  state : Slot γ
  owns : List Nat

structure Workspace (κ γ : Type) where
  names : List (κ × Holding)
  declarations : List (Declaration γ)

namespace Workspace

variable {κ : Type} [DecidableEq κ] {γ : Type}

def empty : Workspace κ γ := ⟨[], []⟩

def find? (w : Workspace κ γ) (name : κ) : Option Holding := w.names.lookup name

omit [DecidableEq κ] in
def slot (w : Workspace κ γ) (slot : Nat) : Slot γ :=
  match w.declarations[slot]? with
  | some d => d.state
  | none => .undefined

omit [DecidableEq κ] in
/-- Whether a name or a definition owns the slot. -/
def isOwned (w : Workspace κ γ) (slot : Nat) : Bool :=
  w.names.any (fun entry => entry.2.owned? = some slot) ||
    w.declarations.any (fun d => slot ∈ d.owns)

omit [DecidableEq κ] in
/-- Drops every parser that nobody owns. Its definition goes with it. -/
def dropUnowned (w : Workspace κ γ) : Workspace κ γ :=
  { w with
    declarations := w.declarations.mapIdx fun i d => if w.isOwned i then d else ⟨.dropped, []⟩ }

omit [DecidableEq κ] in
/-- Dropping one parser may leave others without an owner. -/
def dropAllUnowned : Nat → Workspace κ γ → Workspace κ γ
  | 0, w => w
  | rounds + 1, w => dropAllUnowned rounds w.dropUnowned

omit [DecidableEq κ] in
def collect (w : Workspace κ γ) : Workspace κ γ := dropAllUnowned w.declarations.length w

/-- Lets a name hold something, or nothing, in place of what it held. -/
def hold (w : Workspace κ γ) (name : κ) (holding : Option Holding) : Workspace κ γ :=
  let others := w.names.filter fun entry => entry.1 ≠ name
  collect { w with names := (holding.map fun h => (name, h)).toList ++ others }

def declare (w : Workspace κ γ) (name : κ) : Workspace κ γ :=
  let slot := w.declarations.length
  hold { w with declarations := w.declarations ++ [⟨.undefined, []⟩] } name (some (.owner slot))

/-- A handle for what another name holds. -/
def handle (w : Workspace κ γ) (name copy : κ) : Workspace κ γ :=
  w.hold copy ((w.find? name).map fun h => .handle h.slot)

/-- The same holding for another name. -/
def clone (w : Workspace κ γ) (name copy : κ) : Workspace κ γ := w.hold copy (w.find? name)

def drop (w : Workspace κ γ) (name : κ) : Workspace κ γ := w.hold name none

/-- The slots that a definition owns which mentions the given names. -/
def ownedBy (w : Workspace κ γ) (mentioned : List κ) : List Nat :=
  mentioned.filterMap fun name => (w.find? name).bind Holding.owned?

omit [DecidableEq κ] in
/-- Defines a slot, once. -/
def define (w : Workspace κ γ) (slot : Nat) (definition : γ) (owns : List Nat) :
    Except Refusal (Workspace κ γ) :=
  match w.slot slot with
  | .undefined => .ok { w with declarations := w.declarations.set slot ⟨.defined definition, owns⟩ }
  | _ => .error .alreadyDefined

omit [DecidableEq κ] in
def isDefined (w : Workspace κ γ) (slot : Nat) : Bool :=
  match w.slot slot with
  | .defined _ => true
  | _ => false

end Workspace
end Rewind
