import Rewind.Grammar
import Rewind.SymbolClass
import Rewind.Value

/-!
Outlines of grammars: descriptions that can be read from a file, over values whose types are not
known before. Assembling an outline gives the grammar that it describes, with a table of the
declared parsers and the lazily built grammars that the grammar refers to by number.
-/
namespace Rewind

inductive Outline (σ : Type) where
  | any
  | endOfInput
  | satisfy (accepted : SymbolClass σ)
  | symbol (expected : σ)
  | literal (expected : List σ)
  | text (expected : String)
  | succeed (value : Value σ)
  | fail
  | error (message : String)
  | cut (message : String)
  | orElse (p q : Outline σ)
  | choice (parts : List (Outline σ))
  | optional (p : Outline σ)
  | lookAhead (p : Outline σ)
  | notAhead (p : Outline σ)
  | filter (criterion : Criterion) (p : Outline σ)
  | map (conversion : Conversion) (p : Outline σ)
  | ignore (p : Outline σ)
  | pair (p q : Outline σ)
  | keepLeft (p q : Outline σ)
  | keepRight (p q : Outline σ)
  | between (opening p closing : Outline σ)
  | sequence (parts : List (Outline σ))
  | exactly (p : Outline σ) (count : Nat)
  | many (p : Outline σ)
  | atLeast (p : Outline σ) (count : Nat)
  | many1 (p : Outline σ)
  | separated (p separator : Outline σ)
  | label (message : String) (p : Outline σ)
  | commit (message : String) (p : Outline σ)
  | attempt (p : Outline σ)
  | boundary (p : Outline σ)
  | spanned (p : Outline σ)
  /-- Leaves an event for each value. -/
  | inspect (tag : String) (p : Outline σ)
  /-- Leaves an event for each stream that it is tried on. -/
  | probe (tag : String) (p : Outline σ)
  /-- Then the text of the value again. -/
  | again (p : Outline σ)
  /-- Then as many times the second part as the value says. -/
  | counted (p q : Outline σ)
  /-- Then the second part; yields both values. -/
  | keep (p q : Outline σ)
  /-- Then nothing more. -/
  | plain (p : Outline σ)
  /-- Then the case whose key the value spells, or the last part. -/
  | switch (p : Outline σ) (keys : List String) (cases : List (Outline σ)) (otherwise : Outline σ)
  /-- Built for each parse, with an event. -/
  | lazy (tag : String) (p : Outline σ)
  /-- The production of that name, built for each parse. -/
  | production (name : String)
  /-- A declared parser of that name, for use within its own definition. -/
  | recursive (name : String) (p : Outline σ)
  | rule (name : String)
  /-- A handle to a declared parser that is there no more. -/
  | dangling
  | skip (count : Nat)
  | skipThenFail (count : Nat)
  | skipThenError (count : Nat) (message : String)
  /-- Goes back to where the whole parse was started. -/
  | rewind

/-- What observers of an outline's grammar see. -/
inductive Event (σ : Type) where
  | probed (tag : String) (place : Position)
  | seen (tag : String) (value : Value σ)
  | built (tag : String)

/-- The names in assembled grammars are numbers: of a parser declared in a workspace, of one
declared within the outline itself, or of a lazily built grammar. -/
inductive Reference (σ : Type) : Type → Type where
  | declared (slot : Nat) : Reference σ (Value σ)
  | enclosing (slot : Nat) : Reference σ (Value σ)
  | product (place : Nat) : Reference σ (Value σ)

abbrev Assembled (σ : Type) := Grammar σ (Reference σ) (Event σ) (Value σ)

structure Assembly (σ : Type) : Type 1 where
  slots : Array (Slot (Assembled σ))
  products : Array (Product σ (Reference σ) (Event σ) (Value σ))

namespace Assembly

variable {σ : Type}

def empty : Assembly σ := ⟨#[], #[]⟩

/-- The meaning of the names, given the parsers that are declared in a workspace. -/
def rules (a : Assembly σ) (declared : Nat → Slot (Assembled σ)) :
    Rules σ (Reference σ) (Event σ) where
  slot := fun
    | .declared slot => declared slot
    | .enclosing slot => a.slots.getD slot .undefined
    | .product _ => .undefined
  build := fun
    | .product place => a.products.getD place ⟨[], .fail⟩
    | .declared _ | .enclosing _ => ⟨[], .fail⟩

end Assembly

/-- What the names in an outline stand for, and the stream that it goes back to. -/
structure Scope (σ : Type) where
  rules : List (String × Reference σ (Value σ))
  productions : List (String × Nat)
  home : Stream σ

namespace Outline

variable {σ : Type}

abbrev Assembler (σ : Type) := StateM (Assembly σ)

/-- Adds a lazily built grammar to the table and refers to it. -/
def refer (events : List (Event σ)) (g : Assembled σ) : Assembler σ (Assembled σ) := fun a =>
  (.lazy (.product a.products.size), { a with products := a.products.push ⟨events, g⟩ })

/-- Declares a parser in the table, assembles its definition and refers to it. -/
def declare (define : Reference σ (Value σ) → Assembler σ (Assembled σ)) :
    Assembler σ (Assembled σ) := fun a =>
  let slot := a.slots.size
  match define (.enclosing slot) { a with slots := a.slots.push .undefined } with
  | (definition, a) =>
    (.rule (.enclosing slot), { a with slots := a.slots.setIfInBounds slot (.defined definition) })

def refuse : Assembler σ (Assembled σ) := fun a =>
  (.rule (.enclosing a.slots.size), { a with slots := a.slots.push .dropped })

/-- A script that ends after some steps. -/
def stepping (count : Nat) (last : Stream σ → Outcome σ (Value σ)) : Assembled σ :=
  .scripted (Script.advance (fun s => .done (last s)) count)

def observed (tag : String) (v : Value σ) : Except Fault (Event σ) :=
  if v.spansHold then .ok (.seen tag v) else .error .subtractOverflow

variable [Symbol σ]

mutual

def assemble (scope : Scope σ) : Outline σ → Assembler σ (Assembled σ)
  | any => pure (.map .symbol .any)
  | endOfInput => pure (.map (fun _ => .unit) .endOfInput)
  | satisfy accepted => pure (.map .symbol (.satisfy accepted.accepts))
  | symbol expected => pure (.map .symbol (.symbol expected))
  | literal expected => pure (.map (fun ss => .list (ss.map .symbol)) (.literal expected))
  | text expected => pure (.map (fun _ => .text expected) (.literal (Symbol.spell expected)))
  | succeed value => pure (.succeed value)
  | fail => pure .fail
  | error message => pure (.error message)
  | cut message => pure (.cut message)
  | orElse p q => return .orElse (← p.assemble scope) (← q.assemble scope)
  | choice parts => return .choice (← assembleAll scope parts)
  | optional p => return .map (fun v => v.elim .none .some) (.optional (← p.assemble scope))
  | lookAhead p => return .lookAhead (← p.assemble scope)
  | notAhead p => return .map (fun _ => .unit) (.notAhead (← p.assemble scope))
  | filter criterion p => return .filter criterion.accepts (← p.assemble scope)
  | map conversion p => return .map conversion.apply (← p.assemble scope)
  | ignore p => return .map (fun _ => .unit) (.ignore (← p.assemble scope))
  | pair p q =>
    return .map (fun v => .pair v.1 v.2) (.pair (← p.assemble scope) (← q.assemble scope))
  | keepLeft p q => return .keepLeft (← p.assemble scope) (← q.assemble scope)
  | keepRight p q => return .keepRight (← p.assemble scope) (← q.assemble scope)
  | between opening p closing =>
    return .between (← opening.assemble scope) (← p.assemble scope) (← closing.assemble scope)
  | sequence parts => return .map .list (.sequence (← assembleAll scope parts))
  | exactly p count => return .map .list (.exactly (← p.assemble scope) count)
  | many p => return .map .list (.many (← p.assemble scope))
  | atLeast p count => return .map .list (.atLeast (← p.assemble scope) count)
  | many1 p => return .map .list (.many1 (← p.assemble scope))
  | separated p separator =>
    return .map .list (.separated (← p.assemble scope) (← separator.assemble scope))
  | label message p => return .label message (← p.assemble scope)
  | commit message p => return .commit message (← p.assemble scope)
  | attempt p => return .attempt (← p.assemble scope)
  | boundary p => return .boundary (← p.assemble scope)
  | spanned p => return .map (fun v => .spanned v.1 v.2) (.spanned (← p.assemble scope))
  | inspect tag p => return .inspect (observed tag) (← p.assemble scope)
  | probe tag p => do
    let announce : Grammar σ (Reference σ) (Event σ) Unit :=
      .scripted fun s => .emit (.probed tag s.position) (.done (.success () s))
    return .keepRight announce (← p.assemble scope)
  | again p => do
    let repeated (v : Value σ) : Assembled σ :=
      .map (fun ss => .list (ss.map .symbol)) (.literal (Symbol.spell v.toText))
    return .bind (← p.assemble scope) repeated
  | counted p q => do
    let first ← p.assemble scope
    let second ← q.assemble scope
    return .bind first fun v => .map .list (.exactly second v.toCount)
  | keep p q => do
    let first ← p.assemble scope
    let second ← q.assemble scope
    return .bind first fun v => .map (.pair v) second
  | plain p => return .bind (← p.assemble scope) .succeed
  | switch p keys cases otherwise => do
    let first ← p.assemble scope
    let parts ← assembleAll scope cases
    let last ← otherwise.assemble scope
    return .bind first fun v => ((keys.zip parts).lookup v.toText).getD last
  | lazy tag p => do refer [.built tag] (← p.assemble scope)
  | production name =>
    match scope.productions.lookup name with
    | some place => pure (.lazy (.product place))
    | none => refuse
  | recursive name p =>
    declare fun self => p.assemble { scope with rules := (name, self) :: scope.rules }
  | rule name =>
    match scope.rules.lookup name with
    | some reference => pure (.rule reference)
    | none => refuse
  | dangling => refuse
  | skip count => pure (stepping count fun s => .success .unit s)
  | skipThenFail count => pure (stepping count fun s => .failure s)
  | skipThenError count message => pure (stepping count fun s => .error s (.ofText message))
  | rewind => pure (.scripted fun _ => .done (.success .unit scope.home))

def assembleAll (scope : Scope σ) : List (Outline σ) → Assembler σ (List (Assembled σ))
  | [] => pure []
  | p :: rest => return (← p.assemble scope) :: (← assembleAll scope rest)

end

/-- Enters the grammars of productions at the head of the table. -/
def enter : Nat → List (Assembled σ) → Assembly σ → Assembly σ
  | _, [], a => a
  | place, g :: rest, a =>
    enter (place + 1) rest { a with products := a.products.setIfInBounds place ⟨[], g⟩ }

/-- Assembles an outline that may use productions, which may use each other. -/
def assembleWith (productions : List (String × Outline σ)) (home : Stream σ) (p : Outline σ) :
    Assembled σ × Assembly σ :=
  let scope : Scope σ := ⟨[], productions.mapIdx fun place entry => (entry.1, place), home⟩
  let reserved : Assembly σ := ⟨#[], Array.replicate productions.length ⟨[], .fail⟩⟩
  match assembleAll scope (productions.map Prod.snd) reserved with
  | (grammars, a) => p.assemble scope (enter 0 grammars a)

end Outline
end Rewind
