import Rewind.Source

/-!
The window between a source and those who look ahead. Symbols that were read are dropped lazily:
only a request that the window cannot serve compacts it, widens it if it must, and pulls.
-/
namespace Rewind

structure Window (τ σ : Type) where
  source : τ
  /-- The symbols in the window, read or not. -/
  staged : Array σ
  /-- The place of the next unread symbol among them. -/
  cursor : Nat
  capacity : Nat
  exhausted : Bool
  log : Array Notice

namespace Window

variable {τ σ : Type}

def defaultCapacity : Nat := 8

def leastCapacity : Nat := 1

/-- The deepest lookahead that may be asked for. -/
def deepest : Nat := 1 <<< 20

def ofSource (source : τ) : Window τ σ := ⟨source, #[], 0, defaultCapacity, false, #[]⟩

/-- Storage for as many symbols as the window may hold is reserved when it is opened. -/
def withCapacity [Stored σ] (source : τ) (capacity : Nat) : Except Fault (Window τ σ) :=
  if HasStorage σ (max leastCapacity capacity) then
    .ok ⟨source, #[], 0, max leastCapacity capacity, false, #[]⟩
  else .error .capacityOverflow

/-- The number of unread symbols that are staged. -/
def buffered (w : Window τ σ) : Nat := w.staged.size - w.cursor

def note (w : Window τ σ) (notice : Notice) : Window τ σ := { w with log := w.log.push notice }

/-- Drops what was read. -/
def compact (w : Window τ σ) : Window τ σ :=
  if w.cursor = 0 then w
  else { w with staged := w.staged.extract w.cursor w.staged.size, cursor := 0 }

def widen (w : Window τ σ) (depth : Nat) : Window τ σ :=
  if w.capacity < depth then { w.note (.windowGrew w.capacity depth) with capacity := depth } else w

variable [Source τ σ]

/-- One pull for all the room that the window has left. -/
def pullOnce (w : Window τ σ) : Window τ σ :=
  let p := Source.pull w.source (w.capacity - w.staged.size)
  let w :=
    { w with
      source := p.source, log := w.log ++ p.notices.toArray,
      staged := w.staged ++ p.symbols.toArray }
  if p.symbols.isEmpty then { w.note (.sourceExhausted w.staged.size) with exhausted := true }
  else w

/-- Pulls until the window holds `depth` symbols. Each round brings a symbol or is the last. -/
def fill (depth : Nat) : Nat → Window τ σ → Window τ σ
  | 0, w => w
  | rounds + 1, w =>
    if w.exhausted || depth ≤ w.staged.size then w else fill depth rounds w.pullOnce

/-- Sees to it that `depth` unread symbols are in the window, unless the source runs dry. -/
def ensure (w : Window τ σ) (depth : Nat) : Window τ σ :=
  if depth ≤ w.buffered then w else fill depth depth (w.compact.widen depth)

/-- The unread symbol at the given depth, which is at least 1. -/
def look (w : Window τ σ) (depth : Nat) : Option σ × Window τ σ :=
  let w := w.ensure depth
  (w.staged[w.cursor + depth - 1]?, w)

def pass (w : Window τ σ) (count : Nat) : Window τ σ :=
  { w with cursor := min (w.cursor + count) w.staged.size }

def peek (w : Window τ σ) (depth : Nat) : Except Refusal (Option σ) × Window τ σ :=
  if depth = 0 then (.error .zeroLookahead, w)
  else if deepest < depth then (.error (.lookaheadTooDeep depth), w)
  else
    match w.look depth with
    | (found, w) => (.ok found, w)

/-- Reads past the symbol at the given depth, where there is one. -/
def read (w : Window τ σ) (depth : Nat) : Except Refusal (Option σ) × Window τ σ :=
  match w.peek depth with
  | (.ok (some s), w) => (.ok (some s), w.pass depth)
  | answer => answer

/-- A number of symbols that is not exceeded by the unread ones. -/
def size (w : Window τ σ) : Nat := w.buffered + Source.size w.source

def collectLine [Symbol σ] : Nat → List σ → Window τ σ → List σ × Window τ σ
  | 0, line, w => (line.reverse, w)
  | rounds + 1, line, w =>
    match w.look 1 with
    | (none, w) => (line.reverse, w)
    | (some s, w) =>
      let w := w.pass 1
      if Symbol.isLineFeed s then (line.reverse, w)
      else if Symbol.isCarriageReturn s then
        match w.look 1 with
        | (some t, w) => (line.reverse, if Symbol.isLineFeed t then w.pass 1 else w)
        | (none, w) => (line.reverse, w)
      else collectLine rounds (s :: line) w

/-- Reads a line and its terminator, and returns the line. A carriage return and a line feed after
it are one terminator. -/
def readLine [Symbol σ] (w : Window τ σ) : List σ × Window τ σ := collectLine (w.size + 1) [] w

def collectAll : Nat → List σ → Window τ σ → List σ × Window τ σ
  | 0, all, w => (all.reverse, w)
  | rounds + 1, all, w =>
    match w.look 1 with
    | (none, w) => (all.reverse, w)
    | (some s, w) => collectAll rounds (s :: all) (w.pass 1)

def readToEnd (w : Window τ σ) : List σ × Window τ σ := collectAll (w.size + 1) [] w

end Window
end Rewind
