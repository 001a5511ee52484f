import Mathlib.Data.List.OfFn
import Rewind.Proofs.Plan

/-!
# Parts of grammars

The parts of a grammar are the grammars that it is put together from, for a bind these are the
grammars of all its continuations; its definitions are the grammars that it stands for if it is a
name. `Throughout` says that a property holds of a grammar and of all that it refers to.

`plan_lawful` collects what all plans have in common: they try parts and become definitions of their
grammar only, they stay on streams that they reach from their own, and they answer the errors of
their parts in one of three ways.
-/
namespace Rewind

namespace Grammar

variable {σ ε : Type} {ν : Type → Type}

def EachPart (P : {α : Type} → Grammar σ ν ε α → Prop) : {α : Type} → Grammar σ ν ε α → Prop
  | _, .orElse p q => P p ∧ P q
  | _, .choiceOf _ parts => ∀ i, P (parts i)
  | _, .optional p => P p
  | _, .lookAhead p => P p
  | _, .notAhead p => P p
  | _, .filter _ p => P p
  | _, .map _ p => P p
  | _, .ignore p => P p
  | _, .bind p next => P p ∧ ∀ value, P (next value)
  | _, .pair p q => P p ∧ P q
  | _, .keepLeft p q => P p ∧ P q
  | _, .keepRight p q => P p ∧ P q
  | _, .between opening p closing => P opening ∧ P p ∧ P closing
  | _, .sequenceOf _ parts => ∀ i, P (parts i)
  | _, @exactly _ _ _ _ _ p _ => P p
  | _, .many p => P p
  | _, @atLeast _ _ _ _ _ p _ => P p
  | _, .separated p separator => P p ∧ P separator
  | _, .label _ p => P p
  | _, .commit _ p => P p
  | _, .attempt p => P p
  | _, .boundary p => P p
  | _, .spanned p => P p
  | _, .inspect _ p => P p
  | _, _ => True

def EachDefinition (rules : Rules σ ν ε) (P : {α : Type} → Grammar σ ν ε α → Prop) :
    {α : Type} → Grammar σ ν ε α → Prop
  | _, .rule name => ∀ definition, rules.slot name = .defined definition → P definition
  | _, .lazy name => P (rules.build name).grammar
  | _, _ => True

/-- The property holds of the grammar and of what it refers to in so many steps. -/
def Within (rules : Rules σ ν ε) (P : {α : Type} → Grammar σ ν ε α → Prop) :
    Nat → {α : Type} → Grammar σ ν ε α → Prop
  | 0, _, _ => True
  | steps + 1, _, g =>
    P g ∧ g.EachPart (fun h => Within rules P steps h) ∧ g.EachDefinition rules fun h =>
      Within rules P steps h

/-- The property holds of the grammar, of its parts and definitions, of theirs, and so on. -/
def Throughout (rules : Rules σ ν ε) (P : {α : Type} → Grammar σ ν ε α → Prop) {α : Type}
    (g : Grammar σ ν ε α) : Prop :=
  ∀ steps, g.Within rules P steps

variable {P : {α : Type} → Grammar σ ν ε α → Prop} {rules : Rules σ ν ε} {α : Type}

theorem eachPart_forall {ι : Type} {P : ι → {α : Type} → Grammar σ ν ε α → Prop}
    {g : Grammar σ ν ε α} (each : ∀ i, g.EachPart (P i)) : g.EachPart fun p => ∀ i, P i p := by
  cases g with
  | any | satisfy | symbol | literal | endOfInput | succeed | fail | error | cut | rule | lazy
  | scripted => trivial
  | optional | lookAhead | notAhead | filter | map | ignore | exactly | many | atLeast | label
  | commit | attempt
  | boundary | spanned | inspect => exact each
  | orElse | pair | keepLeft | keepRight | separated =>
    exact ⟨fun i => (each i).1, fun i => (each i).2⟩
  | between => exact ⟨fun i => (each i).1, fun i => (each i).2.1, fun i => (each i).2.2⟩
  | choiceOf | sequenceOf => exact fun k i => each i k
  | bind => exact ⟨fun i => (each i).1, fun value i => (each i).2 value⟩

theorem eachDefinition_forall {ι : Type} {P : ι → {α : Type} → Grammar σ ν ε α → Prop}
    {g : Grammar σ ν ε α} (each : ∀ i, g.EachDefinition rules (P i)) :
    g.EachDefinition rules fun p => ∀ i, P i p := by
  cases g with
  | rule name => exact fun definition defined i => each i definition defined
  | lazy name => exact each
  | _ => trivial

theorem eachPart_of_forall (h : ∀ {β : Type} (p : Grammar σ ν ε β), P p) (g : Grammar σ ν ε α) :
    g.EachPart P := by
  cases g with
  | any | satisfy | symbol | literal | endOfInput | succeed | fail | error | cut | rule | lazy
  | scripted => trivial
  | optional p | lookAhead p | notAhead p | filter _ p | map _ p | ignore p | exactly p | many p
  | atLeast p
  | label _ p | commit _ p | attempt p | boundary p | spanned p | inspect _ p => exact h p
  | orElse p q | pair p q | keepLeft p q | keepRight p q | separated p q => exact ⟨h p, h q⟩
  | between opening p closing => exact ⟨h opening, h p, h closing⟩
  | choiceOf _ parts | sequenceOf _ parts => exact fun k => h (parts k)
  | bind p next => exact ⟨h p, fun value => h (next value)⟩

theorem eachDefinition_of_forall (h : ∀ {β : Type} (p : Grammar σ ν ε β), P p)
    (g : Grammar σ ν ε α) :
    g.EachDefinition rules P := by
  cases g with
  | rule name => exact fun definition _ => h definition
  | lazy name => exact h _
  | _ => trivial

theorem EachPart.imp {Q : {α : Type} → Grammar σ ν ε α → Prop}
    (h : ∀ {β : Type} (p : Grammar σ ν ε β), P p → Q p) {g : Grammar σ ν ε α}
    (each : g.EachPart P) : g.EachPart Q := by
  cases g with
  | any | satisfy | symbol | literal | endOfInput | succeed | fail | error | cut | rule | lazy
  | scripted => trivial
  | optional | lookAhead | notAhead | filter | map | ignore | exactly | many | atLeast | label
  | commit | attempt
  | boundary | spanned | inspect => exact h _ each
  | orElse | pair | keepLeft | keepRight | separated => exact ⟨h _ each.1, h _ each.2⟩
  | between => exact ⟨h _ each.1, h _ each.2.1, h _ each.2.2⟩
  | choiceOf | sequenceOf => exact fun k => h _ (each k)
  | bind => exact ⟨h _ each.1, fun value => h _ (each.2 value)⟩

theorem EachPart.mp {Q : {α : Type} → Grammar σ ν ε α → Prop} {g : Grammar σ ν ε α}
    (h : g.EachPart fun p => P p → Q p) (each : g.EachPart P) : g.EachPart Q := by
  cases g with
  | any | satisfy | symbol | literal | endOfInput | succeed | fail | error | cut | rule | lazy
  | scripted => trivial
  | optional | lookAhead | notAhead | filter | map | ignore | exactly | many | atLeast | label
  | commit | attempt
  | boundary | spanned | inspect => exact h each
  | orElse | pair | keepLeft | keepRight | separated => exact ⟨h.1 each.1, h.2 each.2⟩
  | between => exact ⟨h.1 each.1, h.2.1 each.2.1, h.2.2 each.2.2⟩
  | choiceOf | sequenceOf => exact fun k => h k (each k)
  | bind => exact ⟨h.1 each.1, fun value => h.2 value (each.2 value)⟩

theorem EachDefinition.imp {Q : {α : Type} → Grammar σ ν ε α → Prop}
    (h : ∀ {β : Type} (p : Grammar σ ν ε β), P p → Q p) {g : Grammar σ ν ε α}
    (each : g.EachDefinition rules P) :
    g.EachDefinition rules Q := by
  cases g with
  | rule name => exact fun definition defined => h _ (each definition defined)
  | lazy name => exact h _ each
  | _ => trivial

/-- Induction on a grammar with all of its parts as hypotheses. -/
theorem induction_on_parts {motive : {α : Type} → Grammar σ ν ε α → Prop}
    (step : ∀ {α : Type} (g : Grammar σ ν ε α), g.EachPart motive → motive g) {α : Type}
    (g : Grammar σ ν ε α) :
    motive g := by
  induction g with
  | any | satisfy | symbol | literal | endOfInput | succeed | fail | error | cut | rule | lazy
  | scripted =>
    exact step _ trivial
  | optional p hp | lookAhead p hp | notAhead p hp | filter _ p hp | map _ p hp | ignore p hp
  | exactly p _ hp
  | many p hp | atLeast p _ hp | label _ p hp | commit _ p hp | attempt p hp | boundary p hp
  | spanned p hp
  | inspect _ p hp => exact step _ hp
  | orElse p q hp hq | pair p q hp hq | keepLeft p q hp hq | keepRight p q hp hq
  | separated p q hp hq =>
    exact step _ ⟨hp, hq⟩
  | between _ _ _ hopening hp hclosing => exact step _ ⟨hopening, hp, hclosing⟩
  | choiceOf _ _ hparts | sequenceOf _ _ hparts => exact step _ hparts
  | bind _ _ hp hnext => exact step _ ⟨hp, hnext⟩

theorem Throughout.intro {g : Grammar σ ν ε α} (self : P g)
    (parts : g.EachPart fun p => p.Throughout rules P)
    (definitions : g.EachDefinition rules fun p => p.Throughout rules P) :
    g.Throughout rules P := by
  intro steps
  cases steps with
  | zero => trivial
  | succ steps => exact ⟨self, parts.imp fun p h => h steps, definitions.imp fun p h => h steps⟩

theorem Throughout.self {g : Grammar σ ν ε α} (h : g.Throughout rules P) : P g := (h 1).1

theorem Throughout.parts {g : Grammar σ ν ε α} (h : g.Throughout rules P) :
    g.EachPart fun p => p.Throughout rules P :=
  eachPart_forall fun steps => (h (steps + 1)).2.1

theorem Throughout.definitions {g : Grammar σ ν ε α} (h : g.Throughout rules P) :
    g.EachDefinition rules fun p => p.Throughout rules P :=
  eachDefinition_forall fun steps => (h (steps + 1)).2.2

/-- Induction on a grammar throughout which a property holds. -/
theorem Throughout.induction {motive : {α : Type} → Grammar σ ν ε α → Prop}
    (step : ∀ {α : Type} (g : Grammar σ ν ε α), g.Throughout rules P → g.EachPart motive → motive g)
    {α : Type} {g : Grammar σ ν ε α} (h : g.Throughout rules P) : motive g := by
  refine induction_on_parts (motive := fun g => g.Throughout rules P → motive g) ?_ g h
  intro β g parts throughout
  exact step g throughout (EachPart.mp parts throughout.parts)

theorem Throughout.imp {Q : {α : Type} → Grammar σ ν ε α → Prop}
    (h : ∀ {β : Type} (p : Grammar σ ν ε β), P p → Q p) {g : Grammar σ ν ε α}
    (throughout : g.Throughout rules P) : g.Throughout rules Q := by
  intro steps
  induction steps generalizing α g with
  | zero => trivial
  | succ steps ih =>
    exact ⟨h g throughout.self, throughout.parts.imp fun p hp =>
      ih hp, throughout.definitions.imp fun p hp => ih hp⟩

end Grammar

/-- What a grammar makes of the errors of its parts: an attempt recovers from the ordinary ones, a
boundary settles escalations, all others pass them on. -/
inductive Role where
  | plain
  | attempt
  | boundary
  deriving DecidableEq

def Grammar.role {σ ε α : Type} {ν : Type → Type} : Grammar σ ν ε α → Role
  | .attempt _ => .attempt
  | .boundary _ => .boundary
  | _ => .plain

/-- Scripts go where they please. -/
def Grammar.Scriptless {σ ε α : Type} {ν : Type → Type} : Grammar σ ν ε α → Prop
  | .scripted _ => False
  | _ => True

namespace Plan

variable {σ ε α β : Type} {ν : Type → Type}

/-- The plan that is left of a grammar tried on `s` when one of its parts ends with an error. -/
def onError (role : Role) (s rest : Stream σ) (message : Message) : Plan σ ν ε α :=
  match role with
  | .plain => reply (.error rest message)
  | .attempt => reply (if message.escalated then .error rest message else .failure s)
  | .boundary => soften (.error rest message)

/-- What the plan tries has property `P`, what it becomes has property `Q`, its streams keep within
`V`, and it answers each error of a part by `answer`. -/
def Lawful (P Q : {β : Type} → Grammar σ ν ε β → Prop) (V : Stream σ → Prop)
    (answer : Stream σ → Message → Plan σ ν ε α) : Plan σ ν ε α → Prop
  | .done _ outcome => V outcome.rest
  | .halt _ => True
  | .consume s next => V s ∧ ∀ rest, V rest → (next rest).Lawful P Q V answer
  | .emit _ next => next.Lawful P Q V answer
  | .call _ next => next.Lawful P Q V answer
  | .invoke g s next =>
    P g ∧ V s ∧ (∀ rest message, next (.error rest message) = answer rest message) ∧
    ∀ outcome, V outcome.rest → (next outcome).Lawful P Q V answer
  | .follow g s => Q g ∧ V s

/-- The law of a plan that passes errors on. -/
abbrev Passing (P Q : {β : Type} → Grammar σ ν ε β → Prop) (V : Stream σ → Prop) :
    Plan σ ν ε α → Prop :=
  Lawful P Q V fun rest message => reply (.error rest message)

variable {P Q : {β : Type} → Grammar σ ν ε β → Prop} {V : Stream σ → Prop}

theorem passing_reply {outcome : Outcome σ α} (h : V outcome.rest) :
    Passing P Q V (reply (ν := ν) (ε := ε) outcome) := h

/-- A part is tried and its success gone on from. -/
theorem passing_invoke {g : Grammar σ ν ε β} {s : Stream σ} {next : Outcome σ β → Plan σ ν ε α}
    (hg : P g) (hs : V s)
    (success : ∀ value rest, V rest → Passing P Q V (next (.success value rest)))
    (failure : ∀ rest, V rest → Passing P Q V (next (.failure rest)))
    (error : ∀ rest message, next (.error rest message) = reply (.error rest message)) :
    Passing P Q V (.invoke g s next) := by
  refine ⟨hg, hs, error, fun outcome h => ?_⟩
  cases outcome with
  | success value rest => exact success value rest h
  | failure rest => exact failure rest h
  | error rest message =>
    rw [error]
    exact h

theorem passing_onSuccess {g : Grammar σ ν ε β} {s : Stream σ} {next : β → Stream σ → Plan σ ν ε α}
    (hg : P g) (hs : V s) (h : ∀ value rest, V rest → Passing P Q V (next value rest)) :
    Passing P Q V (.invoke g s (onSuccess next)) :=
  passing_invoke hg hs h (fun _ hrest => hrest) (fun _ _ => rfl)

theorem passing_onFailure {g : Grammar σ ν ε α} {s : Stream σ} {otherwise : Plan σ ν ε α} (hg : P g)
    (hs : V s) (h : Passing P Q V otherwise) : Passing P Q V (.invoke g s (onFailure otherwise)) :=
  passing_invoke hg hs (fun _ _ hrest => hrest) (fun _ _ => h) (fun _ _ => rfl)

theorem passing_last {g : Grammar σ ν ε α} {s : Stream σ} (hg : P g) (hs : V s) :
    Passing P Q V (.invoke g s reply) :=
  passing_invoke hg hs (fun _ _ hrest => hrest) (fun _ hrest => hrest) (fun _ _ => rfl)

theorem passing_emitAll {next : Plan σ ν ε α} (h : Passing P Q V next) (events : List ε) :
    Passing P Q V (emitAll next events) := by
  induction events with
  | nil => exact h
  | cons event rest ih => exact ih

theorem passing_literal [DecidableEq σ] (expected : List σ) {start : Stream σ} (hstart : V start)
    (left : List σ) {s : Stream σ} (hs : V s) :
    Passing P Q V (literal (ν := ν) (ε := ε) expected start left s) := by
  induction left generalizing s with
  | nil => exact hs
  | cons a rest ih =>
    rw [literal]
    split
    · exact ⟨hs, fun next hnext => ih hnext⟩
    · exact hstart

theorem passing_choice {s : Stream σ} (hs : V s) {parts : List (Grammar σ ν ε α)}
    (h : ∀ p ∈ parts, P p) :
    Passing P Q V (choice s parts) := by
  induction parts with
  | nil => exact hs
  | cons p rest ih =>
    exact passing_onFailure (h p List.mem_cons_self) hs (ih fun q hq =>
      h q (List.mem_cons_of_mem p hq))

theorem passing_sequence {parts : List (Grammar σ ν ε α)} (h : ∀ p ∈ parts, P p) (values : List α)
    {s : Stream σ} (hs : V s) : Passing P Q V (sequence values parts s) := by
  induction parts generalizing values s with
  | nil => exact hs
  | cons p rest ih =>
    refine passing_invoke (h p List.mem_cons_self) hs (fun value next hnext => ?_)
      (fun _ _ => hs) (fun _ _ => rfl)
    exact ih (fun q hq => h q (List.mem_cons_of_mem p hq)) _ hnext

theorem passing_exactly {p : Grammar σ ν ε α} (hp : P p)
    {finish : List α → Stream σ → Plan σ ν ε (List α)}
    (h : ∀ values rest, V rest → Passing P Q V (finish values rest)) (count : Nat) (values : List α)
    {s : Stream σ} (hs : V s) : Passing P Q V (exactly p finish count values s) := by
  induction count generalizing values s with
  | zero => exact h values s hs
  | succ count ih => exact passing_invoke hp hs (fun _ _ => ih _) (fun _ _ => hs) (fun _ _ => rfl)

theorem passing_many {p : Grammar σ ν ε α} (hp : P p) (rounds : Nat) (values : List α)
    {s : Stream σ} (hs : V s) :
    Passing P Q V (many p rounds values s) := by
  induction rounds generalizing values s with
  | zero => trivial
  | succ rounds ih =>
    refine passing_invoke hp hs (fun value next hnext => ?_) (fun _ _ => hs) (fun _ _ => rfl)
    dsimp only
    split
    · exact hs
    · exact ih _ hnext

theorem passing_separated {p : Grammar σ ν ε α} {separator : Grammar σ ν ε β} (hp : P p)
    (hseparator : P separator) (rounds : Nat) (values : List α) {s : Stream σ} (hs : V s) :
    Passing P Q V (separated p separator rounds values s) := by
  induction rounds generalizing values s with
  | zero => trivial
  | succ rounds ih =>
    refine passing_invoke hseparator hs (fun _ middle hmiddle => ?_)
      (fun _ _ => hs) (fun _ _ => rfl)
    refine passing_invoke hp hmiddle (fun value next hnext => ?_)
      (fun _ _ => hmiddle) (fun _ _ => rfl)
    dsimp only
    split
    · exact hs
    · exact ih _ hnext

theorem passing_script (h : ∀ s, V s) (script : Script σ ε α) :
    Passing P Q V (Plan.script (ν := ν) script) := by
  induction script with
  | done outcome => exact h _
  | consume s next ih => exact ⟨h s, fun rest _ => ih rest⟩
  | emit event next ih => exact ih

end Plan
namespace Grammar

variable {σ ε α : Type} {ν : Type → Type} [Symbol σ]
variable {P Q : {β : Type} → Grammar σ ν ε β → Prop} {V : Stream σ → Prop}

open Plan in
theorem plan_lawful (rules : Rules σ ν ε) (rounds : Nat) {g : Grammar σ ν ε α} {s : Stream σ}
    (hs : V s) (keeps : g.Scriptless ∨ ∀ t, V t) (parts : g.EachPart P)
    (definitions : g.EachDefinition rules Q) :
    (g.plan rules rounds s).Lawful P Q V (Plan.onError g.role s) := by
  cases g with
  | any =>
    rw [plan]
    cases s.current with
    | none => exact hs
    | some a => exact ⟨hs, fun _ hrest => hrest⟩
  | satisfy accepts =>
    rw [plan]
    cases s.current with
    | none => exact hs
    | some a =>
      dsimp only [Lawful]
      split
      · exact ⟨hs, fun _ hrest => hrest⟩
      · exact hs
  | symbol expected =>
    rw [plan]
    cases s.current with
    | none => exact hs
    | some a =>
      dsimp only
      split
      · exact ⟨hs, fun _ hrest => hrest⟩
      · exact hs
  | literal expected => exact passing_literal expected hs expected hs
  | endOfInput =>
    rw [plan]
    split <;> exact hs
  | succeed value => exact hs
  | fail => exact hs
  | error text => exact hs
  | cut text => exact hs
  | orElse p q => exact passing_onFailure parts.1 hs (passing_last parts.2 hs)
  | choiceOf count ps => exact passing_choice hs (List.forall_mem_ofFn_iff.mpr parts)
  | optional p =>
    exact passing_invoke parts hs (fun _ _ hrest => hrest) (fun _ _ => hs) (fun _ _ => rfl)
  | lookAhead p => exact passing_invoke parts hs (fun _ _ _ => hs) (fun _ _ => hs) (fun _ _ => rfl)
  | notAhead p => exact passing_invoke parts hs (fun _ _ _ => hs) (fun _ _ => hs) (fun _ _ => rfl)
  | filter accepts p =>
    refine passing_onSuccess parts hs fun value rest hrest => ?_
    change V (if accepts value then Outcome.success value rest else .failure s).rest
    split
    · exact hrest
    · exact hs
  | map f p => exact passing_onSuccess parts hs fun _ _ hrest => hrest
  | ignore p => exact passing_onSuccess parts hs fun _ _ hrest => hrest
  | bind p next =>
    exact passing_onSuccess parts.1 hs fun value _ hrest => passing_last (parts.2 value) hrest
  | pair p q =>
    exact passing_onSuccess parts.1 hs fun _ _ hrest =>
      passing_onSuccess parts.2 hrest fun _ _ hrest => hrest
  | keepLeft p q =>
    exact passing_onSuccess parts.1 hs fun _ _ hrest =>
      passing_onSuccess parts.2 hrest fun _ _ hrest => hrest
  | keepRight p q => exact passing_onSuccess parts.1 hs fun _ _ hrest => passing_last parts.2 hrest
  | between opening p closing =>
    refine passing_onSuccess parts.1 hs fun _ _ hrest =>
      passing_onSuccess parts.2.1 hrest fun _ _ hrest => ?_
    exact passing_onSuccess parts.2.2 hrest fun _ _ hrest => hrest
  | sequenceOf count ps => exact passing_sequence (List.forall_mem_ofFn_iff.mpr parts) [] hs
  | exactly p count =>
    rw [plan]
    split
    · exact passing_exactly (p := p) parts (fun _ _ hrest => passing_reply hrest) count [] hs
    · trivial
  | many p => exact passing_many (p := p) parts rounds [] hs
  | atLeast p count =>
    rw [plan]
    split
    · have hp : P p := parts
      exact passing_exactly hp (fun values _ hrest => passing_many hp rounds values hrest) count []
        hs
    · trivial
  | separated p separator =>
    exact passing_onSuccess parts.1 hs fun value _ hrest =>
      passing_separated parts.1 parts.2 rounds [value] hrest
  | label text p => exact passing_onFailure parts hs hs
  | commit text p => exact passing_onFailure parts hs hs
  | attempt p =>
    refine ⟨parts, hs, fun _ _ => rfl, fun outcome h => ?_⟩
    cases outcome with
    | success value rest => exact h
    | failure rest => exact h
    | error rest message =>
      change V (if message.escalated then Outcome.error rest message else .failure s).rest
      split
      · exact h
      · exact hs
  | boundary p =>
    refine ⟨parts, hs, fun _ _ => rfl, fun outcome h => ?_⟩
    cases outcome with
    | success value rest => exact h
    | failure rest => exact h
    | error rest message =>
      rw [soften]
      split <;> exact h
  | spanned p => exact passing_onSuccess parts hs fun _ _ hrest => hrest
  | inspect observe p =>
    refine passing_onSuccess parts hs fun value rest hrest => ?_
    dsimp only [Passing, Lawful]
    cases observe value with
    | ok event => exact hrest
    | error fault => trivial
  | rule name =>
    rw [plan]
    cases h : rules.slot name with
    | undefined => exact hs
    | dropped => exact hs
    | defined definition => exact ⟨definitions definition h, hs⟩
  | lazy name =>
    have followed : Passing P Q V (.follow (rules.build name).grammar s) := ⟨definitions, hs⟩
    exact passing_emitAll followed _
  | scripted script =>
    rcases keeps with never | all
    · exact False.elim never
    · exact passing_script all (script s)

/-- The law of the plan of a grammar all of whose parts and definitions have a property. -/
theorem Throughout.plan_lawful {rules : Rules σ ν ε} {g : Grammar σ ν ε α}
    (throughout : g.Throughout rules P) (rounds : Nat) {s : Stream σ} (hs : V s)
    (keeps : g.Scriptless ∨ ∀ t, V t) :
    (g.plan rules rounds s).Lawful (fun h => h.Throughout rules P) (fun h => h.Throughout rules P) V
      (Plan.onError g.role s) :=
  Grammar.plan_lawful rules rounds hs keeps throughout.parts throughout.definitions

end Grammar
end Rewind
