import Rewind.Script

/-!
Grammars as values. A grammar over symbols `σ` yields values of the type that it is indexed by. It
refers to rules and to lazily built grammars by names from `ν`, which a table of rules gives a
meaning, and it may leave events of type `ε` for an observer.
-/
namespace Rewind

inductive Grammar (σ : Type) (ν : Type → Type) (ε : Type) : Type → Type 1 where
  | any : Grammar σ ν ε σ
  | satisfy (accepts : σ → Bool) : Grammar σ ν ε σ
  | symbol (expected : σ) : Grammar σ ν ε σ
  | literal (expected : List σ) : Grammar σ ν ε (List σ)
  | endOfInput : Grammar σ ν ε Unit
  | succeed {α : Type} (value : α) : Grammar σ ν ε α
  | fail {α : Type} : Grammar σ ν ε α
  | error {α : Type} (text : String) : Grammar σ ν ε α
  | cut {α : Type} (text : String) : Grammar σ ν ε α
  | orElse {α : Type} (p q : Grammar σ ν ε α) : Grammar σ ν ε α
  | choiceOf {α : Type} (count : Nat) (parts : Fin count → Grammar σ ν ε α) : Grammar σ ν ε α
  | optional {α : Type} (p : Grammar σ ν ε α) : Grammar σ ν ε (Option α)
  | lookAhead {α : Type} (p : Grammar σ ν ε α) : Grammar σ ν ε α
  | notAhead {α : Type} (p : Grammar σ ν ε α) : Grammar σ ν ε Unit
  | filter {α : Type} (accepts : α → Bool) (p : Grammar σ ν ε α) : Grammar σ ν ε α
  | map {α β : Type} (f : α → β) (p : Grammar σ ν ε α) : Grammar σ ν ε β
  | ignore {α : Type} (p : Grammar σ ν ε α) : Grammar σ ν ε Unit
  | bind {α β : Type} (p : Grammar σ ν ε α) (next : α → Grammar σ ν ε β) : Grammar σ ν ε β
  | pair {α β : Type} (p : Grammar σ ν ε α) (q : Grammar σ ν ε β) : Grammar σ ν ε (α × β)
  | keepLeft {α β : Type} (p : Grammar σ ν ε α) (q : Grammar σ ν ε β) : Grammar σ ν ε α
  | keepRight {α β : Type} (p : Grammar σ ν ε α) (q : Grammar σ ν ε β) : Grammar σ ν ε β
  | between {α β γ : Type} (opening : Grammar σ ν ε α) (p : Grammar σ ν ε β)
    (closing : Grammar σ ν ε γ) :
      Grammar σ ν ε β
  | sequenceOf {α : Type} (count : Nat) (parts : Fin count → Grammar σ ν ε α) :
    Grammar σ ν ε (List α)
  | exactly {α : Type} [Stored α] (p : Grammar σ ν ε α) (count : Nat) : Grammar σ ν ε (List α)
  | many {α : Type} (p : Grammar σ ν ε α) : Grammar σ ν ε (List α)
  | atLeast {α : Type} [Stored α] (p : Grammar σ ν ε α) (count : Nat) : Grammar σ ν ε (List α)
  | separated {α β : Type} (p : Grammar σ ν ε α) (separator : Grammar σ ν ε β) :
    Grammar σ ν ε (List α)
  | label {α : Type} (text : String) (p : Grammar σ ν ε α) : Grammar σ ν ε α
  | commit {α : Type} (text : String) (p : Grammar σ ν ε α) : Grammar σ ν ε α
  | attempt {α : Type} (p : Grammar σ ν ε α) : Grammar σ ν ε α
  | boundary {α : Type} (p : Grammar σ ν ε α) : Grammar σ ν ε α
  | spanned {α : Type} (p : Grammar σ ν ε α) : Grammar σ ν ε (α × Span)
  | inspect {α : Type} (observe : α → Except Fault ε) (p : Grammar σ ν ε α) : Grammar σ ν ε α
  /-- The declared parser of that name. -/
  | rule {α : Type} (name : ν α) : Grammar σ ν ε α
  /-- The grammar of that name, built again for each parse. -/
  | lazy {α : Type} (name : ν α) : Grammar σ ν ε α
  | scripted {α : Type} (script : Stream σ → Script σ ε α) : Grammar σ ν ε α

namespace Grammar

variable {σ ε α : Type} {ν : Type → Type}

def choice (parts : List (Grammar σ ν ε α)) : Grammar σ ν ε α :=
  .choiceOf parts.length fun i => parts[i]

def sequence (parts : List (Grammar σ ν ε α)) : Grammar σ ν ε (List α) :=
  .sequenceOf parts.length fun i => parts[i]

def many1 [Stored α] (p : Grammar σ ν ε α) : Grammar σ ν ε (List α) := .atLeast p 1

def text (expected : String) : Grammar Char ν ε String :=
  .map (fun _ => expected) (.literal expected.toList)

end Grammar

/-- What a name stands for when it is used as a rule. -/
inductive Slot.{u} (γ : Type u) : Type u where
  | undefined
  | defined (definition : γ)
  | dropped

/-- What building a lazy grammar gives: the grammar, and the events that building it leaves. -/
structure Product (σ : Type) (ν : Type → Type) (ε α : Type) : Type 1 where
  events : List ε
  grammar : Grammar σ ν ε α

/-- The meaning of names. -/
structure Rules (σ : Type) (ν : Type → Type) (ε : Type) : Type 1 where
  slot : {α : Type} → ν α → Slot (Grammar σ ν ε α)
  build : {α : Type} → ν α → Product σ ν ε α

/-- No name is a rule, and nothing can be built. -/
def Rules.none {σ ε : Type} {ν : Type → Type} : Rules σ ν ε :=
  ⟨fun _ => .undefined, fun _ => ⟨[], .fail⟩⟩

end Rewind
