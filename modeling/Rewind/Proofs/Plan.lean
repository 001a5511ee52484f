import Rewind.Grammar.Parse

/-!
# Plans

A plan is what one grammar does when it is tried on a stream, one layer deep: which streams it
moves along, which other grammars it tries and on what, and how it answers each of their outcomes.
The plan of a grammar says nothing about the chain of streams, so that the same plan can be
carried out on a chain (`Plan.run`) or elsewhere. `parse_eq_run` states that a parser carries out
the plan of its grammar.
-/
namespace Rewind

/-- The functions that the author of a grammar supplies. -/
inductive Hook where
  | predicate
  | function
  | continuation
  | factory
  | observer
  deriving DecidableEq

inductive Plan (σ : Type) (ν : Type → Type) (ε α : Type) : Type 1 where
  | done (notice : Option Notice) (outcome : Outcome σ α)
  | halt (reason : Halt)
  | consume (s : Stream σ) (next : Stream σ → Plan σ ν ε α)
  | emit (event : ε) (next : Plan σ ν ε α)
  /-- A supplied function is called here. -/
  | call (hook : Hook) (next : Plan σ ν ε α)
  /-- Tries a part of the grammar. -/
  | invoke {β : Type} (g : Grammar σ ν ε β) (s : Stream σ) (next : Outcome σ β → Plan σ ν ε α)
  /-- Becomes the grammar that a name stands for. -/
  | follow (g : Grammar σ ν ε α) (s : Stream σ)

namespace Plan

variable {τ σ ε α β : Type} {ν : Type → Type}

def reply (outcome : Outcome σ α) : Plan σ ν ε α := .done none outcome

/-- Goes on from a success; the other outcomes are those of the whole. -/
def onSuccess (next : β → Stream σ → Plan σ ν ε α) : Outcome σ β → Plan σ ν ε α
  | .success value rest => next value rest
  | .failure rest => reply (.failure rest)
  | .error rest message => reply (.error rest message)

/-- Answers a failure in another way; the other outcomes are those of the whole. -/
def onFailure (otherwise : Plan σ ν ε α) : Outcome σ α → Plan σ ν ε α
  | .failure _ => otherwise
  | outcome => reply outcome

def emitAll (next : Plan σ ν ε α) : List ε → Plan σ ν ε α
  | [] => next
  | event :: rest => .emit event (emitAll next rest)

/-- Matches the symbols that are left; at the first that differs the whole run fails
where it began. -/
def literal [DecidableEq σ] (expected : List σ) (start : Stream σ) :
    List σ → Stream σ → Plan σ ν ε (List σ)
  | [], s => reply (.success expected s)
  | a :: rest, s =>
    if s.current = some a then .consume s (literal expected start rest) else reply (.failure start)

def choice (s : Stream σ) : List (Grammar σ ν ε α) → Plan σ ν ε α
  | [] => reply (.failure s)
  | p :: rest => .invoke p s (onFailure (choice s rest))

def sequence : List α → List (Grammar σ ν ε α) → Stream σ → Plan σ ν ε (List α)
  | values, [], s => reply (.success values.reverse s)
  | values, p :: rest, s => .invoke p s fun
    | .success value next => sequence (value :: values) rest next
    | .failure _ => reply (.failure s)
    | .error next message => reply (.error next message)

/-- So many more times, then the rest of the plan with all the values in reverse. -/
def exactly (p : Grammar σ ν ε α) (finish : List α → Stream σ → Plan σ ν ε (List α)) :
    Nat → List α → Stream σ → Plan σ ν ε (List α)
  | 0, values, s => finish values s
  | count + 1, values, s => .invoke p s fun
    | .success value next => exactly p finish count (value :: values) next
    | .failure _ => reply (.failure s)
    | .error next message => reply (.error next message)

def many (p : Grammar σ ν ε α) : Nat → List α → Stream σ → Plan σ ν ε (List α)
  | 0, _, _ => .halt .outOfFuel
  | rounds + 1, values, s => .invoke p s fun
    | .success value next =>
      if next.position.index = s.position.index then
        .done (some (.zeroWidthRepetition s.position))
          (.error s (.ofText Parser.zeroWidthRepetition))
      else many p rounds (value :: values) next
    | .failure _ => reply (.success values.reverse s)
    | .error next message => reply (.error next message)

def separated (p : Grammar σ ν ε α) (separator : Grammar σ ν ε β) :
    Nat → List α → Stream σ → Plan σ ν ε (List α)
  | 0, _, _ => .halt .outOfFuel
  | rounds + 1, values, s => .invoke separator s fun
    | .success _ middle => .invoke p middle fun
      | .success value next =>
        if next.position.index = s.position.index then
          .done (some (.zeroWidthItem s.position)) (.error s (.ofText Parser.zeroWidthItem))
        else separated p separator rounds (value :: values) next
      | .failure _ => reply (.failure middle)
      | .error next message => reply (.error next message)
    | .failure _ => reply (.success values.reverse s)
    | .error next message => reply (.error next message)

/-- An escalation becomes an ordinary error. -/
def soften : Outcome σ α → Plan σ ν ε α
  | .error rest message =>
    if message.escalated then
      .done (some (.escalationSoftened message.text rest.position)) (.error rest message.softened)
    else reply (.error rest message)
  | outcome => reply outcome

def script : Script σ ε α → Plan σ ν ε α
  | .done outcome => reply outcome
  | .consume s next => .consume s fun rest => script (next rest)
  | .emit event next => .emit event (script next)

end Plan

namespace Grammar

variable {σ ε : Type} {ν : Type → Type} [Symbol σ]

/-- The plan of a grammar on a stream, for a number of rounds of an open-ended repetition. -/
def plan (rules : Rules σ ν ε) (rounds : Nat) :
    {α : Type} → Grammar σ ν ε α → Stream σ → Plan σ ν ε α
  | _, .any, s =>
    match s.current with
    | some a => .consume s fun rest => .reply (.success a rest)
    | none => .reply (.failure s)
  | _, .satisfy accepts, s =>
    match s.current with
    | some a =>
      .call .predicate
        (if accepts a then .consume s fun rest => .reply (.success a rest) else .reply (.failure s))
    | none => .reply (.failure s)
  | _, .symbol expected, s =>
    match s.current with
    | some a =>
      if a = expected then .consume s fun rest => .reply (.success a rest) else .reply (.failure s)
    | none => .reply (.failure s)
  | _, .literal expected, s => .literal expected s expected s
  | _, .endOfInput, s => .reply (if s.isEnd then .success () s else .failure s)
  | _, .succeed value, s => .reply (.success value s)
  | _, .fail, s => .reply (.failure s)
  | _, .error text, s => .reply (.error s (.ofText text))
  | _, .cut text, s => .reply (.error s (.escalation text))
  | _, .orElse p q, s => .invoke p s (.onFailure (.invoke q s .reply))
  | _, .choiceOf _ parts, s => .choice s (List.ofFn parts)
  | _, .optional p, s => .invoke p s fun
    | .success value rest => .reply (.success (some value) rest)
    | .failure _ => .reply (.success none s)
    | .error rest message => .reply (.error rest message)
  | _, .lookAhead p, s => .invoke p s fun
    | .success value _ => .reply (.success value s)
    | .failure _ => .reply (.failure s)
    | .error rest message => .reply (.error rest message)
  | _, .notAhead p, s => .invoke p s fun
    | .success .. => .reply (.failure s)
    | .failure _ => .reply (.success () s)
    | .error rest message => .reply (.error rest message)
  | _, .filter accepts p, s => .invoke p s (.onSuccess fun value rest =>
    .call .predicate (.reply (if accepts value then .success value rest else .failure s)))
  | _, .map f p, s => .invoke p s (.onSuccess fun value rest =>
    .call .function (.reply (.success (f value) rest)))
  | _, .ignore p, s => .invoke p s (.onSuccess fun _ rest => .reply (.success () rest))
  | _, .bind p next, s => .invoke p s (.onSuccess fun value rest =>
    .call .continuation (.invoke (next value) rest .reply))
  | _, .pair p q, s => .invoke p s (.onSuccess fun first rest =>
    .invoke q rest (.onSuccess fun second rest => .reply (.success (first, second) rest)))
  | _, .keepLeft p q, s => .invoke p s (.onSuccess fun first rest =>
    .invoke q rest (.onSuccess fun _ rest => .reply (.success first rest)))
  | _, .keepRight p q, s => .invoke p s (.onSuccess fun _ rest => .invoke q rest .reply)
  | _, .between opening p closing, s => .invoke opening s (.onSuccess fun _ rest =>
    .invoke p rest (.onSuccess fun value rest =>
      .invoke closing rest (.onSuccess fun _ rest => .reply (.success value rest))))
  | _, .sequenceOf _ parts, s => .sequence [] (List.ofFn parts) s
  | _, @exactly _ _ _ β _ p count, s =>
    if HasStorage β count then
      .exactly p (fun values rest => .reply (.success values.reverse rest)) count [] s
    else .halt (.fault .capacityOverflow)
  | _, .many p, s => .many p rounds [] s
  | _, @atLeast _ _ _ β _ p count, s =>
    if HasStorage β count then .exactly p (.many p rounds) count [] s
      else .halt (.fault .capacityOverflow)
  | _, .separated p separator, s => .invoke p s (.onSuccess fun value rest =>
    .separated p separator rounds [value] rest)
  | _, .label text p, s => .invoke p s (.onFailure (.reply (.error s (.ofText text))))
  | _, .commit text p, s => .invoke p s (.onFailure (.reply (.error s (.escalation text))))
  | _, .attempt p, s => .invoke p s fun
    | .error rest message => .reply (if message.escalated then .error rest message else .failure s)
    | outcome => .reply outcome
  | _, .boundary p, s => .invoke p s .soften
  | _, .spanned p, s => .invoke p s (.onSuccess fun value rest =>
    .reply (.success (value, ⟨s.position, rest.position⟩) rest))
  | _, .inspect observe p, s => .invoke p s (.onSuccess fun value rest =>
    .call .observer
      (match observe value with
      | .ok event => .emit event (.reply (.success value rest))
      | .error fault => .halt (.fault fault)))
  | _, .rule name, s =>
    match rules.slot name with
    | .undefined =>
      .done (some (.usedBeforeDefinition s.position)) (.error s (.escalation Parser.undefinedText))
    | .dropped =>
      .done (some (.noLongerExists s.position)) (.error s (.escalation Parser.droppedText))
    | .defined definition => .follow definition s
  | _, .lazy name, s =>
    .call .factory (.emitAll (.follow (rules.build name).grammar s) (rules.build name).events)
  | _, .scripted script, s => .script (script s)

end Grammar

namespace Plan

variable {τ σ ε : Type} {ν : Type → Type} [Source τ σ] [Symbol σ]

/-- Carries a plan out on a chain, given the parsers of the grammars that it tries and of those
that it becomes. -/
def run (part definition : {β : Type} → Grammar σ ν ε β → Parser τ σ ε β) {α : Type} :
    Plan σ ν ε α → Run τ σ ε (Outcome σ α)
  | .done none outcome => return outcome
  | .done (some notice) outcome => do
    Run.note notice
    return outcome
  | .halt reason => throw reason
  | .consume s next => do (next (← Run.consume s)).run part definition
  | .emit event next => do
    Run.emit event
    next.run part definition
  | .call _ next => next.run part definition
  | .invoke g s next => do (next (← part g s)).run part definition
  | .follow g s => definition g s

section Adequacy

variable {τ σ ε α β : Type} {ν : Type → Type}

/-- Continuations agree when they agree on each kind of outcome. -/
theorem bind_outcome_congr {x : Run τ σ ε (Outcome σ β)}
    {f g : Outcome σ β → Run τ σ ε (Outcome σ α)}
    (success : ∀ value rest, f (.success value rest) = g (.success value rest))
    (failure : ∀ rest, f (.failure rest) = g (.failure rest))
    (error : ∀ rest message, f (.error rest message) = g (.error rest message)) :
    x >>= f = x >>= g :=
  bind_congr fun outcome => match outcome with
    | .success value rest => success value rest
    | .failure rest => failure rest
    | .error rest message => error rest message

variable [Source τ σ] [Symbol σ]
variable (part definition : {β : Type} → Grammar σ ν ε β → Parser τ σ ε β)

/-- A grammar that is tried last answers for the whole. -/
theorem run_invoke_reply (g : Grammar σ ν ε α) (s : Stream σ) :
    (invoke g s reply).run part definition = part g s :=
  bind_pure _

theorem run_reply (outcome : Outcome σ α) :
    (reply (ν := ν) outcome).run part definition = (pure outcome : Run τ σ ε (Outcome σ α)) :=
  rfl

theorem run_literal (expected : List σ) (start : Stream σ) (left : List σ) (s : Stream σ) :
    (literal expected start left s).run part definition = (do
      match ← Parser.matchAll left s with
      | some rest => return .success expected rest
      | none => return .failure start) := by
  induction left generalizing s with
  | nil => rfl
  | cons a rest ih =>
    rw [literal, Parser.matchAll]
    split
    · simp only [run, ih, bind_assoc]
    · rfl

theorem run_choice (s : Stream σ) (parts : List (Grammar σ ν ε α)) :
    (choice s parts).run part definition = Parser.choice (parts.map fun g => part g) s := by
  induction parts with
  | nil => rfl
  | cons p rest ih =>
    refine bind_congr fun outcome => ?_
    cases outcome with
    | success value rest => rfl
    | failure _ => exact ih
    | error rest message => rfl

theorem run_sequence (values : List α) (parts : List (Grammar σ ν ε α)) (s : Stream σ) :
    (sequence values parts s).run part definition =
      Parser.sequenceFrom values (parts.map fun g => part g) s := by
  induction parts generalizing values s with
  | nil => rfl
  | cons p rest ih =>
    refine bind_congr fun outcome => ?_
    cases outcome with
    | success value next => exact ih (value :: values) next
    | failure _ => rfl
    | error next message => rfl

theorem run_exactly (p : Grammar σ ν ε α) (finish : List α → Stream σ → Plan σ ν ε (List α))
    (count : Nat) (values : List α) (s : Stream σ) :
    (exactly p finish count values s).run part definition = (do
      (← Parser.exactlyFrom (part p) count values s).andThen fun all rest =>
        (finish all.reverse rest).run part definition) := by
  induction count generalizing values s with
  | zero =>
    rw [exactly, Parser.exactlyFrom, pure_bind, Outcome.andThen, List.reverse_reverse]
  | succ count ih =>
    rw [Parser.exactlyFrom, bind_assoc]
    refine bind_congr fun outcome => ?_
    cases outcome with
    | success value next => exact ih (value :: values) next
    | failure _ => rfl
    | error next message => rfl

theorem run_many (p : Grammar σ ν ε α) (rounds : Nat) (values : List α) (s : Stream σ) :
    (many p rounds values s).run part definition = Parser.manyFrom (part p) rounds values s := by
  induction rounds generalizing values s with
  | zero => rfl
  | succ rounds ih =>
    refine bind_congr fun outcome => ?_
    cases outcome with
    | success value next =>
      dsimp only
      split
      · rfl
      · exact ih (value :: values) next
    | failure _ => rfl
    | error next message => rfl

theorem run_separated (p : Grammar σ ν ε α) (separator : Grammar σ ν ε β) (rounds : Nat)
    (values : List α) (s : Stream σ) :
    (separated p separator rounds values s).run part definition =
      Parser.separatedFrom (part p) (part separator) rounds values s := by
  induction rounds generalizing values s with
  | zero => rfl
  | succ rounds ih =>
    refine bind_congr fun outcome => ?_
    cases outcome with
    | success _ middle =>
      refine bind_congr fun outcome => ?_
      cases outcome with
      | success value next =>
        dsimp only
        split
        · rfl
        · exact ih (value :: values) next
      | failure _ => rfl
      | error next message => rfl
    | failure _ => rfl
    | error next message => rfl

theorem run_soften (outcome : Outcome σ α) :
    (soften (ν := ν) outcome).run part definition =
      (Parser.soften outcome : Run τ σ ε (Outcome σ α)) := by
  cases outcome with
  | success value rest => rfl
  | failure rest => rfl
  | error rest message =>
    simp only [soften, Parser.soften]
    split <;> rfl

theorem run_emitAll (next : Plan σ ν ε α) (events : List ε) :
    (emitAll next events).run part definition = (do
      Grammar.emitAll events
      next.run part definition) := by
  induction events with
  | nil => rfl
  | cons event rest ih => simp only [emitAll, run, Grammar.emitAll, bind_assoc, ih]

theorem run_script (script : Script σ ε α) :
    (Plan.script (ν := ν) script).run part definition = script.run := by
  induction script with
  | done outcome => rfl
  | consume s next ih =>
    simp only [Plan.script, run, Script.run, ih]
  | emit event next ih => simp only [Plan.script, run, Script.run, ih]

end Adequacy
end Plan

namespace Grammar

variable {τ σ ε : Type} {ν : Type → Type} [Source τ σ] [Symbol σ]

/-- A parser carries out the plan of its grammar. -/
theorem parse_eq_run (rules : Rules σ ν ε) (fuel : Nat) {α : Type} (g : Grammar σ ν ε α)
    (s : Stream σ) :
    g.parse rules (fuel + 1) s =
      ((g.plan rules fuel s).run (fun h => h.parse rules (fuel + 1)) (fun h => h.parse rules fuel) :
        Run τ σ ε (Outcome σ α)) := by
  cases g with
  | any =>
    change Parser.any s = _
    rw [Parser.any, plan]
    cases s.current <;> rfl
  | satisfy accepts =>
    change Parser.satisfy accepts s = _
    rw [Parser.satisfy, plan]
    cases s.current with
    | none => rfl
    | some a =>
      dsimp only [Plan.run]
      split <;> rfl
  | symbol expected =>
    change Parser.symbol expected s = _
    rw [Parser.symbol, plan]
    cases s.current with
    | none => rfl
    | some a =>
      dsimp only
      split <;> rfl
  | literal expected => exact (Plan.run_literal _ _ expected s expected s).symm
  | endOfInput =>
    change Parser.endOfInput s = _
    rw [Parser.endOfInput, plan]
    split <;> rfl
  | succeed value => rfl
  | fail => rfl
  | error text => rfl
  | cut text => rfl
  | orElse p q =>
    exact Plan.bind_outcome_congr (fun _ _ => rfl) (fun _ => (Plan.run_invoke_reply _ _ q s).symm)
      (fun _ _ => rfl)
  | choiceOf count parts =>
    rw [plan, Plan.run_choice, List.map_ofFn]
    rfl
  | optional p => exact Plan.bind_outcome_congr (fun _ _ => rfl) (fun _ => rfl) (fun _ _ => rfl)
  | lookAhead p => exact Plan.bind_outcome_congr (fun _ _ => rfl) (fun _ => rfl) (fun _ _ => rfl)
  | notAhead p => exact Plan.bind_outcome_congr (fun _ _ => rfl) (fun _ => rfl) (fun _ _ => rfl)
  | filter accepts p =>
    refine Plan.bind_outcome_congr (fun value rest => ?_) (fun _ => rfl) (fun _ _ => rfl)
    dsimp only [Plan.onSuccess, Plan.run, Plan.reply]
    split <;> rfl
  | map f p => exact Plan.bind_outcome_congr (fun _ _ => rfl) (fun _ => rfl) (fun _ _ => rfl)
  | ignore p => exact Plan.bind_outcome_congr (fun _ _ => rfl) (fun _ => rfl) (fun _ _ => rfl)
  | bind p next =>
    exact Plan.bind_outcome_congr
      (fun value rest => (Plan.run_invoke_reply _ _ (next value) rest).symm)
      (fun _ => rfl) (fun _ _ => rfl)
  | pair p q =>
    refine Plan.bind_outcome_congr (fun first rest => ?_) (fun _ => rfl) (fun _ _ => rfl)
    exact Plan.bind_outcome_congr (fun _ _ => rfl) (fun _ => rfl) (fun _ _ => rfl)
  | keepLeft p q =>
    refine Plan.bind_outcome_congr (fun first rest => ?_) (fun _ => rfl) (fun _ _ => rfl)
    exact Plan.bind_outcome_congr (fun _ _ => rfl) (fun _ => rfl) (fun _ _ => rfl)
  | keepRight p q =>
    exact Plan.bind_outcome_congr (fun _ rest => (Plan.run_invoke_reply _ _ q rest).symm)
      (fun _ => rfl) (fun _ _ => rfl)
  | between opening p closing =>
    refine Plan.bind_outcome_congr (fun _ rest => ?_) (fun _ => rfl) (fun _ _ => rfl)
    refine Plan.bind_outcome_congr (fun value rest => ?_) (fun _ => rfl) (fun _ _ => rfl)
    exact Plan.bind_outcome_congr (fun _ _ => rfl) (fun _ => rfl) (fun _ _ => rfl)
  | sequenceOf count parts =>
    rw [plan, Plan.run_sequence, List.map_ofFn]
    rfl
  | exactly p count =>
    change Parser.exactly (p.parse rules (fuel + 1)) count s = _
    rw [Parser.exactly, plan]
    split
    · refine Eq.trans (bind_pure _).symm (Eq.trans ?_ (Plan.run_exactly _ _ p _ count [] s).symm)
      refine Plan.bind_outcome_congr (fun values rest => ?_) (fun _ => rfl) (fun _ _ => rfl)
      simp only [Outcome.andThen, List.reverse_reverse, Plan.run_reply]
    · rfl
  | many p => exact (Plan.run_many _ _ p fuel [] s).symm
  | atLeast p count =>
    change Parser.atLeast fuel (p.parse rules (fuel + 1)) count s = _
    rw [Parser.atLeast, Parser.exactly, plan]
    split
    · rw [Plan.run_exactly]
      simp only [Plan.run_many]
    · rfl
  | separated p separator =>
    exact Plan.bind_outcome_congr
      (fun value rest => (Plan.run_separated _ _ p separator fuel [value] rest).symm)
      (fun _ => rfl) (fun _ _ => rfl)
  | label text p => exact Plan.bind_outcome_congr (fun _ _ => rfl) (fun _ => rfl) (fun _ _ => rfl)
  | commit text p => exact Plan.bind_outcome_congr (fun _ _ => rfl) (fun _ => rfl) (fun _ _ => rfl)
  | attempt p =>
    refine Plan.bind_outcome_congr (fun _ _ => rfl) (fun _ => rfl) (fun rest message => ?_)
    dsimp only [Plan.run, Plan.reply]
    split <;> rfl
  | boundary p => exact bind_congr fun outcome => (Plan.run_soften _ _ outcome).symm
  | spanned p => exact Plan.bind_outcome_congr (fun _ _ => rfl) (fun _ => rfl) (fun _ _ => rfl)
  | inspect observe p =>
    refine Plan.bind_outcome_congr (fun value rest => ?_) (fun _ => rfl) (fun _ _ => rfl)
    dsimp only [Plan.onSuccess, Plan.run]
    cases observe value <;> rfl
  | rule name =>
    change (match rules.slot name with
      | .undefined => Parser.undefinedRule
      | .dropped => Parser.droppedRule
      | .defined definition => parse rules fuel definition : Parser τ σ ε _) s = _
    rw [plan]
    cases rules.slot name <;> rfl
  | lazy name =>
    exact (Plan.run_emitAll _ _ (.follow (rules.build name).grammar s)
      (rules.build name).events).symm
  | scripted script => exact (Plan.run_script _ _ (script s)).symm

/-- Without fuel all grammars parse alike. -/
theorem parse_congr {rules : Rules σ ν ε} {α : Type} {g h : Grammar σ ν ε α}
    (same : ∀ fuel, (g.parse rules (fuel + 1) : Parser τ σ ε α) = h.parse rules (fuel + 1))
    (fuel : Nat) :
    (g.parse rules fuel : Parser τ σ ε α) = h.parse rules fuel := by
  cases fuel with
  | zero => rfl
  | succ fuel => exact same fuel

end Grammar
end Rewind
