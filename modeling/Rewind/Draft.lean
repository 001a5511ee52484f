import Rewind.Outline
import Rewind.Workspace

/-!
Outlines as definitions in a workspace. A draft keeps with an outline the slots that its rule names
stood for when it was written; what these names hold later makes no difference to it.
-/
namespace Rewind

structure Draft (σ : Type) where
  outline : Outline σ
  slots : List (String × Nat)

namespace Outline

variable {σ : Type}

mutual

/-- The rule names that an outline does not declare itself. -/
def mentions : Outline σ → List String
  | rule name => [name]
  | recursive name p => p.mentions.filter (· ≠ name)
  | any | endOfInput | satisfy _ | symbol _ | literal _ | text _ | succeed _ | fail | error _
  | cut _
  | production _ | dangling | skip _ | skipThenFail _ | skipThenError _ _ | rewind => []
  | optional p | lookAhead p | notAhead p | filter _ p | map _ p | ignore p | exactly p _ | many p
  | atLeast p _
  | many1 p | label _ p | commit _ p | attempt p | boundary p | spanned p | inspect _ p | probe _ p
  | again p
  | plain p | lazy _ p => p.mentions
  | orElse p q | pair p q | keepLeft p q | keepRight p q | separated p q | counted p q | keep p q =>
    p.mentions ++ q.mentions
  | between opening p closing => opening.mentions ++ p.mentions ++ closing.mentions
  | choice parts | sequence parts => allMentions parts
  | switch p _ cases otherwise => p.mentions ++ allMentions cases ++ otherwise.mentions

def allMentions : List (Outline σ) → List String
  | [] => []
  | p :: rest => p.mentions ++ allMentions rest

end

end Outline

namespace Draft

variable {σ : Type}

/-- Takes down an outline with what its names stand for now. -/
def ofOutline (w : Workspace String (Draft σ)) (p : Outline σ) : Draft σ :=
  ⟨p, p.mentions.filterMap fun name => (w.find? name).map fun h => (name, h.slot)⟩

/-- Defines a declared parser by an outline. -/
def define (w : Workspace String (Draft σ)) (slot : Nat) (p : Outline σ) :
    Except Refusal (Workspace String (Draft σ)) :=
  w.define slot (ofOutline w p) (w.ownedBy p.mentions)

variable [Symbol σ]

def assemble (home : Stream σ) (d : Draft σ) : Outline.Assembler σ (Assembled σ) :=
  d.outline.assemble ⟨d.slots.map fun entry => (entry.1, .declared entry.2), [], home⟩

/-- Assembles what is defined among some declarations. -/
def assembleAll (home : Stream σ) :
    List (Declaration (Draft σ)) → Outline.Assembler σ (List (Slot (Assembled σ)))
  | [] => pure []
  | d :: rest => do
    let state ← match d.state with
      | .undefined => pure .undefined
      | .dropped => pure .dropped
      | .defined draft => .defined <$> draft.assemble home
    return state :: (← assembleAll home rest)

/-- The meaning of the declared parsers, for a parse that starts at the given stream. -/
def rules (w : Workspace String (Draft σ)) (home : Stream σ) : Rules σ (Reference σ) (Event σ) :=
  match assembleAll home w.declarations Assembly.empty with
  | (states, assembly) => assembly.rules fun slot => states[slot]?.getD .undefined

end Draft
end Rewind
