import Rewind.Proofs.Finality

/-!
# Where errors come from

An error has been made somewhere: by a grammar that makes one of its own, by a name without a
meaning, by a repetition that stood still, or by a script. `Grammar.MayRaise` collects, from the
grammar alone, the messages that it may end with: those that it makes itself, and those of its parts
and definitions, of which an attempt lets only the escalations through, while a boundary makes
ordinary errors of all. `mayRaise_iff` and the lemmas beside it tell them form by form.

Definitions may refer to each other, so the messages are the least sets that these lemmas allow. The
main theorem is `error_provenance`: whatever a parse ends with has been collected.
-/
namespace Rewind

variable {τ σ ε α β : Type} {ν : Type → Type}

/-- The messages of the errors that a script ends with, whatever streams it is given. -/
inductive Script.MayEnd : Script σ ε α → Message → Prop
  | done (rest : Stream σ) (message : Message) : MayEnd (.done (.error rest message)) message
  | consume {s : Stream σ} {next : Stream σ → Script σ ε α} {message : Message} (rest : Stream σ) :
    MayEnd (next rest) message → MayEnd (.consume s next) message
  | emit {event : ε} {next : Script σ ε α} {message : Message} : MayEnd next message →
    MayEnd (.emit event next) message

namespace Grammar

/-- One of the parts of the grammar: it has every property that they all have. -/
def PartOf (p : Grammar σ ν ε β) (g : Grammar σ ν ε α) : Prop :=
  ∀ P : {γ : Type} → Grammar σ ν ε γ → Prop, g.EachPart P → P p

/-- One of the grammars that a name stands for. -/
def DefinitionOf (rules : Rules σ ν ε) (p : Grammar σ ν ε β) (g : Grammar σ ν ε α) : Prop :=
  ∀ P : {γ : Type} → Grammar σ ν ε γ → Prop, g.EachDefinition rules P → P p

theorem eachPart_partOf (g : Grammar σ ν ε α) : g.EachPart fun p => p.PartOf g := by
  cases g with
  | any | satisfy | symbol | literal | endOfInput | succeed | fail | error | cut | rule | lazy
  | scripted => trivial
  | optional | lookAhead | notAhead | filter | map | ignore | exactly | many | atLeast | label
  | commit | attempt
  | boundary | spanned | inspect => exact fun _ each => each
  | orElse | pair | keepLeft | keepRight | separated =>
    exact ⟨fun _ each => each.1, fun _ each => each.2⟩
  | between => exact ⟨fun _ each => each.1, fun _ each => each.2.1, fun _ each => each.2.2⟩
  | choiceOf | sequenceOf => exact fun k _ each => each k
  | bind => exact ⟨fun _ each => each.1, fun value _ each => each.2 value⟩

theorem eachDefinition_definitionOf (rules : Rules σ ν ε) (g : Grammar σ ν ε α) :
    g.EachDefinition rules fun p => p.DefinitionOf rules g := by
  cases g with
  | rule name => exact fun definition defined _ each => each definition defined
  | lazy name => exact fun _ each => each
  | _ => trivial

/-- The messages that the grammar makes itself. A name may turn out to have no meaning yet, or
none any more. -/
def Makes : {α : Type} → Grammar σ ν ε α → Message → Prop
  | _, .error text, message => message = .ofText text
  | _, .cut text, message => message = .escalation text
  | _, .label text _, message => message = .ofText text
  | _, .commit text _, message => message = .escalation text
  | _, .many _, message => message = .ofText Parser.zeroWidthRepetition
  | _, @atLeast _ _ _ _ _ _ _, message => message = .ofText Parser.zeroWidthRepetition
  | _, .separated _ _, message => message = .ofText Parser.zeroWidthItem
  | _, .rule _, message =>
    message = .escalation Parser.undefinedText ∨ message = .escalation Parser.droppedText
  | _, .scripted script, message => ∃ s, (script s).MayEnd message
  | _, _, _ => False

/-- The grammar may end with an error of this message. -/
inductive MayRaise (rules : Rules σ ν ε) : {α : Type} → Grammar σ ν ε α → Message → Prop
  | own {α : Type} {g : Grammar σ ν ε α} {message : Message} : g.Makes message →
    MayRaise rules g message
  | part {α β : Type} {g : Grammar σ ν ε α} {p : Grammar σ ν ε β} {message : Message} :
    g.role = .plain → p.PartOf g → MayRaise rules p message → MayRaise rules g message
  | definition {α β : Type} {g : Grammar σ ν ε α} {p : Grammar σ ν ε β} {message : Message} :
    p.DefinitionOf rules g → MayRaise rules p message → MayRaise rules g message
  | attempt {α : Type} {p : Grammar σ ν ε α} {message : Message} :
    MayRaise rules p message → message.escalated = true → MayRaise rules (.attempt p) message
  | boundary {α : Type} {p : Grammar σ ν ε α} {message : Message} :
    MayRaise rules p message → MayRaise rules (.boundary p) message.softened

/-- The texts of the ordinary errors that the grammar may end with. -/
def ordinary (rules : Rules σ ν ε) (g : Grammar σ ν ε α) : Set String :=
  {text | g.MayRaise rules ⟨text, false⟩}

/-- The texts of the escalations that the grammar may end with. -/
def escalations (rules : Rules σ ν ε) (g : Grammar σ ν ε α) : Set String :=
  {text | g.MayRaise rules ⟨text, true⟩}

/-! ## The messages of each form -/

section Forms

variable {rules : Rules σ ν ε} {message : Message}

/-- But for attempts and boundaries, a grammar may end with its own messages and with those of its
parts and definitions. -/
theorem mayRaise_iff {g : Grammar σ ν ε α} (plain : g.role = .plain) :
    g.MayRaise rules message ↔ g.Makes message ∨
      (∃ (β : Type) (p : Grammar σ ν ε β), p.PartOf g ∧ p.MayRaise rules message) ∨
      ∃ (β : Type) (p : Grammar σ ν ε β), p.DefinitionOf rules g ∧ p.MayRaise rules message := by
  constructor
  · intro h
    cases h with
    | own hmakes => exact Or.inl hmakes
    | part _ hpart hraises => exact Or.inr (Or.inl ⟨_, _, hpart, hraises⟩)
    | definition hdefinition hraises => exact Or.inr (Or.inr ⟨_, _, hdefinition, hraises⟩)
    | attempt => cases plain
    | boundary => cases plain
  · rintro (hmakes | ⟨β, p, hpart, hraises⟩ | ⟨β, p, hdefinition, hraises⟩)
    · exact .own hmakes
    · exact .part plain hpart hraises
    · exact .definition hdefinition hraises

/-- The same for a grammar with one part and no definitions. -/
theorem mayRaise_iff_sole {g : Grammar σ ν ε α} {p : Grammar σ ν ε β} (plain : g.role = .plain)
    (sole : ∀ P : {γ : Type} → Grammar σ ν ε γ → Prop, g.EachPart P ↔ P p)
    (nameless : g.EachDefinition rules fun _ => False) :
    g.MayRaise rules message ↔ g.Makes message ∨ p.MayRaise rules message := by
  rw [mayRaise_iff plain]
  constructor
  · rintro (hmakes | ⟨γ, q, hpart, hraises⟩ | ⟨γ, q, hdefinition, -⟩)
    · exact Or.inl hmakes
    · exact Or.inr (hpart (fun q => q.MayRaise rules message → p.MayRaise rules message)
        ((sole _).mpr id) hraises)
    · exact (hdefinition (fun _ => False) nameless).elim
  · rintro (hmakes | hraises)
    · exact Or.inl hmakes
    · exact Or.inr (Or.inl ⟨β, p, fun P each => (sole P).mp each, hraises⟩)

theorem mayRaise_label {text : String} {p : Grammar σ ν ε α} :
    (Grammar.label text p).MayRaise rules message ↔ message = .ofText text ∨
    p.MayRaise rules message :=
  mayRaise_iff_sole rfl (fun _ => Iff.rfl) trivial

theorem mayRaise_commit {text : String} {p : Grammar σ ν ε α} :
    (Grammar.commit text p).MayRaise rules message ↔ message = .escalation text ∨
    p.MayRaise rules message :=
  mayRaise_iff_sole rfl (fun _ => Iff.rfl) trivial

/-- An attempt recovers from all ordinary errors. -/
theorem mayRaise_attempt {p : Grammar σ ν ε α} :
    (Grammar.attempt p).MayRaise rules message ↔ p.MayRaise rules message ∧
    message.escalated = true := by
  constructor
  · intro h
    cases h with
    | own hmakes => exact hmakes.elim
    | part plain => cases plain
    | definition hdefinition => exact (hdefinition (fun _ => False) trivial).elim
    | attempt hraises hescalated => exact ⟨hraises, hescalated⟩
  · rintro ⟨hraises, hescalated⟩
    exact .attempt hraises hescalated

/-- A boundary lets all texts through, and no escalation. -/
theorem mayRaise_boundary {p : Grammar σ ν ε α} :
    (Grammar.boundary p).MayRaise rules message ↔
      ∃ inner : Message, p.MayRaise rules inner ∧ message = inner.softened := by
  constructor
  · intro h
    cases h with
    | own hmakes => exact hmakes.elim
    | part plain => cases plain
    | definition hdefinition => exact (hdefinition (fun _ => False) trivial).elim
    | boundary hraises => exact ⟨_, hraises, rfl⟩
  · rintro ⟨inner, hraises, rfl⟩
    exact .boundary hraises

theorem mayRaise_rule {name : ν α} {definition : Grammar σ ν ε α}
    (defined : rules.slot name = .defined definition) :
    (Grammar.rule name : Grammar σ ν ε α).MayRaise rules message ↔
    message = .escalation Parser.undefinedText ∨
      message = .escalation Parser.droppedText ∨ definition.MayRaise rules message := by
  constructor
  · intro h
    cases h with
    | own hmakes =>
      rcases hmakes with rfl | rfl
      · exact Or.inl rfl
      · exact Or.inr (Or.inl rfl)
    | part _ hpart => exact (hpart (fun _ => False) trivial).elim
    | definition hdefinition hraises =>
      refine Or.inr (Or.inr ?_)
      refine hdefinition (fun q => q.MayRaise rules message → definition.MayRaise rules message) ?_
        hraises
      intro other hother
      cases defined.symm.trans hother
      exact id
  · rintro (rfl | rfl | hraises)
    · exact .own (Or.inl rfl)
    · exact .own (Or.inr rfl)
    · exact .definition (fun _ each => each definition defined) hraises

end Forms

end Grammar

/-! ## The messages of a plan -/

/-- If the outcome is an error, its message has the property. -/
def Outcome.Told (S : Message → Prop) (outcome : Outcome σ α) : Prop :=
  ∀ message, outcome.message? = some message → S message

namespace Plan

/-- The plan ends with a message of `S` when the grammars that it tries and becomes end with
messages of theirs. -/
def Accounts (R : {β : Type} → Grammar σ ν ε β → Message → Prop) (S : Message → Prop) :
    Plan σ ν ε α → Prop
  | .done _ outcome => outcome.Told S
  | .halt _ => True
  | .consume _ next => ∀ rest, (next rest).Accounts R S
  | .emit _ next => next.Accounts R S
  | .call _ next => next.Accounts R S
  | .invoke g _ next => ∀ outcome, outcome.Told (R g) → (next outcome).Accounts R S
  | .follow g _ => ∀ message, R g message → S message

variable {R : {β : Type} → Grammar σ ν ε β → Message → Prop} {S : Message → Prop}

theorem accounts_success (value : α) (rest : Stream σ) :
    Accounts R S (reply (ν := ν) (ε := ε) (.success value rest)) := nofun

theorem accounts_failure (rest : Stream σ) :
    Accounts R S (reply (ν := ν) (ε := ε) (α := α) (.failure rest)) := nofun

theorem accounts_error (rest : Stream σ) {message : Message} (h : S message)
    (notice : Option Notice) :
    Accounts R S (.done (ν := ν) (ε := ε) (α := α) notice (.error rest message)) := by
  intro other same
  cases same
  exact h

/-- A part is tried whose errors are those of the whole. -/
theorem accounts_invoke {g : Grammar σ ν ε β} {s : Stream σ} {next : Outcome σ β → Plan σ ν ε α}
    (part : ∀ message, R g message → S message)
    (success : ∀ value rest, Accounts R S (next (.success value rest)))
    (failure : ∀ rest, Accounts R S (next (.failure rest)))
    (error : ∀ rest message, next (.error rest message) = reply (.error rest message)) :
    Accounts R S (.invoke g s next) := by
  intro outcome told
  cases outcome with
  | success value rest => exact success value rest
  | failure rest => exact failure rest
  | error rest message =>
    rw [error]
    exact accounts_error rest (part message (told message rfl)) none

theorem accounts_onSuccess {g : Grammar σ ν ε β} {s : Stream σ} {next : β → Stream σ → Plan σ ν ε α}
    (part : ∀ message, R g message → S message) (h : ∀ value rest, Accounts R S (next value rest)) :
    Accounts R S (.invoke g s (onSuccess next)) :=
  accounts_invoke part h accounts_failure fun _ _ => rfl

theorem accounts_onFailure {g : Grammar σ ν ε α} {s : Stream σ} {otherwise : Plan σ ν ε α}
    (part : ∀ message, R g message → S message) (h : Accounts R S otherwise) :
    Accounts R S (.invoke g s (onFailure otherwise)) :=
  accounts_invoke part accounts_success (fun _ => h) fun _ _ => rfl

theorem accounts_last {g : Grammar σ ν ε α} {s : Stream σ}
    (part : ∀ message, R g message → S message) :
    Accounts R S (.invoke g s reply) :=
  accounts_invoke part accounts_success accounts_failure fun _ _ => rfl

theorem accounts_emitAll {next : Plan σ ν ε α} (h : Accounts R S next) (events : List ε) :
    Accounts R S (emitAll next events) := by
  induction events with
  | nil => exact h
  | cons event rest ih => exact ih

theorem accounts_literal [DecidableEq σ] (expected : List σ) (start : Stream σ) (left : List σ)
    (s : Stream σ) :
    Accounts R S (literal (ν := ν) (ε := ε) expected start left s) := by
  induction left generalizing s with
  | nil => exact accounts_success expected s
  | cons a rest ih =>
    rw [literal]
    split
    · exact ih
    · exact accounts_failure start

theorem accounts_choice {s : Stream σ} {parts : List (Grammar σ ν ε α)}
    (h : ∀ p ∈ parts, ∀ message, R p message → S message) : Accounts R S (choice s parts) := by
  induction parts with
  | nil => exact accounts_failure s
  | cons p rest ih =>
    exact accounts_onFailure (h p List.mem_cons_self) (ih fun q hq =>
      h q (List.mem_cons_of_mem p hq))

theorem accounts_sequence {parts : List (Grammar σ ν ε α)}
    (h : ∀ p ∈ parts, ∀ message, R p message → S message) (values : List α) (s : Stream σ) :
    Accounts R S (sequence values parts s) := by
  induction parts generalizing values s with
  | nil => exact accounts_success values.reverse s
  | cons p rest ih =>
    refine accounts_invoke (h p List.mem_cons_self) (fun value next => ?_)
      (fun _ => accounts_failure s) fun _ _ => rfl
    exact ih (fun q hq => h q (List.mem_cons_of_mem p hq)) (value :: values) next

section Repetitions

variable {p : Grammar σ ν ε α} (part : ∀ message, R p message → S message)

include part

theorem accounts_exactly {finish : List α → Stream σ → Plan σ ν ε (List α)}
    (h : ∀ values rest, Accounts R S (finish values rest)) (count : Nat) (values : List α)
    (s : Stream σ) :
    Accounts R S (exactly p finish count values s) := by
  induction count generalizing values s with
  | zero => exact h values s
  | succ count ih =>
    exact accounts_invoke part (fun value next => ih (value :: values) next)
      (fun _ => accounts_failure s) fun _ _ => rfl

theorem accounts_many (still : S (.ofText Parser.zeroWidthRepetition)) (rounds : Nat)
    (values : List α) (s : Stream σ) : Accounts R S (many p rounds values s) := by
  induction rounds generalizing values s with
  | zero => trivial
  | succ rounds ih =>
    refine accounts_invoke part (fun value next => ?_) (fun _ => accounts_success values.reverse s)
      fun _ _ => rfl
    dsimp only
    split
    · exact accounts_error s still _
    · exact ih (value :: values) next

theorem accounts_separated {separator : Grammar σ ν ε β}
    (between : ∀ message, R separator message → S message)
    (still : S (.ofText Parser.zeroWidthItem)) (rounds : Nat) (values : List α) (s : Stream σ) :
    Accounts R S (separated p separator rounds values s) := by
  induction rounds generalizing values s with
  | zero => trivial
  | succ rounds ih =>
    refine accounts_invoke between (fun _ middle => ?_) (fun _ => accounts_success values.reverse s)
      fun _ _ => rfl
    refine accounts_invoke part (fun value next => ?_) (fun _ => accounts_failure middle) fun _ _ =>
      rfl
    dsimp only
    split
    · exact accounts_error s still _
    · exact ih (value :: values) next

end Repetitions

theorem accounts_script (script : Script σ ε α) (h : ∀ message, script.MayEnd message → S message) :
    Accounts R S (Plan.script (ν := ν) script) := by
  induction script with
  | done outcome =>
    cases outcome with
    | success value rest => exact accounts_success value rest
    | failure rest => exact accounts_failure rest
    | error rest message => exact accounts_error rest (h message (.done rest message)) none
  | consume s next ih =>
    exact fun rest => ih rest fun message ends => h message (.consume rest ends)
  | emit event next ih => exact ih fun message ends => h message (.emit ends)

end Plan

namespace Grammar

open Plan in
/-- A grammar that passes errors on ends with its own messages and with those of its parts
and definitions. -/
theorem plan_accounts [Symbol σ] {R : {β : Type} → Grammar σ ν ε β → Message → Prop}
    {S : Message → Prop} (rules : Rules σ ν ε) (rounds : Nat) {g : Grammar σ ν ε α}
    (plain : g.role = .plain) (s : Stream σ) (own : ∀ message, g.Makes message → S message)
    (parts : g.EachPart fun p => ∀ message, R p message → S message)
    (definitions : g.EachDefinition rules fun p => ∀ message, R p message → S message) :
    (g.plan rules rounds s).Accounts R S := by
  cases g with
  | any =>
    rw [plan]
    cases s.current with
    | none => exact accounts_failure s
    | some a => exact fun rest => accounts_success a rest
  | satisfy accepts =>
    rw [plan]
    cases s.current with
    | none => exact accounts_failure s
    | some a =>
      dsimp only [Accounts]
      split
      · exact fun rest => accounts_success a rest
      · exact accounts_failure s
  | symbol expected =>
    rw [plan]
    cases s.current with
    | none => exact accounts_failure s
    | some a =>
      dsimp only
      split
      · exact fun rest => accounts_success a rest
      · exact accounts_failure s
  | literal expected => exact accounts_literal expected s expected s
  | endOfInput =>
    rw [plan]
    split
    · exact accounts_success () s
    · exact accounts_failure s
  | succeed value => exact accounts_success value s
  | fail => exact accounts_failure s
  | error text => exact accounts_error s (own _ rfl) none
  | cut text => exact accounts_error s (own _ rfl) none
  | orElse p q => exact accounts_onFailure parts.1 (accounts_last parts.2)
  | choiceOf count ps => exact accounts_choice (List.forall_mem_ofFn_iff.mpr parts)
  | optional p =>
    exact accounts_invoke parts (fun value => accounts_success (some value))
      (fun _ => accounts_success none s) fun _ _ => rfl
  | lookAhead p =>
    exact accounts_invoke parts (fun value _ => accounts_success value s)
      (fun _ => accounts_failure s) fun _ _ => rfl
  | notAhead p =>
    exact accounts_invoke parts (fun _ _ => accounts_failure s) (fun _ => accounts_success () s)
      fun _ _ => rfl
  | filter accepts p =>
    refine accounts_onSuccess parts fun value rest => ?_
    dsimp only [Accounts]
    split
    · exact accounts_success value rest
    · exact accounts_failure s
  | map f p =>
    exact accounts_onSuccess parts fun value rest => accounts_success (R := R) (f value) rest
  | ignore p => exact accounts_onSuccess parts fun _ rest => accounts_success () rest
  | bind p next =>
    exact accounts_onSuccess parts.1 fun value rest => accounts_last (s := rest) (parts.2 value)
  | pair p q =>
    refine accounts_onSuccess parts.1 fun first _ => ?_
    exact accounts_onSuccess parts.2 fun second rest => accounts_success (first, second) rest
  | keepLeft p q =>
    refine accounts_onSuccess parts.1 fun first _ => ?_
    exact accounts_onSuccess parts.2 fun _ rest => accounts_success first rest
  | keepRight p q => exact accounts_onSuccess parts.1 fun _ _ => accounts_last parts.2
  | between opening p closing =>
    refine accounts_onSuccess parts.1 fun _ _ => accounts_onSuccess parts.2.1 fun value _ => ?_
    exact accounts_onSuccess parts.2.2 fun _ rest => accounts_success value rest
  | sequenceOf count ps => exact accounts_sequence (List.forall_mem_ofFn_iff.mpr parts) [] s
  | exactly p count =>
    rw [plan]
    split
    · exact accounts_exactly (p := p) parts
        (fun values rest => accounts_success values.reverse rest) count [] s
    · trivial
  | many p => exact accounts_many (p := p) parts (own _ rfl) rounds [] s
  | atLeast p count =>
    rw [plan]
    split
    · exact accounts_exactly (p := p) parts (accounts_many (p := p) parts (own _ rfl) rounds) count
        [] s
    · trivial
  | separated p separator =>
    refine accounts_onSuccess parts.1 fun value rest => ?_
    exact accounts_separated parts.1 parts.2 (own _ rfl) rounds [value] rest
  | label text p => exact accounts_onFailure parts (accounts_error s (own _ rfl) none)
  | commit text p => exact accounts_onFailure parts (accounts_error s (own _ rfl) none)
  | attempt p => cases plain
  | boundary p => cases plain
  | spanned p => exact accounts_onSuccess parts fun _ rest => accounts_success _ rest
  | inspect observe p =>
    refine accounts_onSuccess parts fun value rest => ?_
    dsimp only [Accounts]
    cases observe value with
    | ok event => exact accounts_success (R := R) value rest
    | error fault => trivial
  | rule name =>
    rw [plan]
    cases h : rules.slot name with
    | undefined => exact accounts_error s (own _ (Or.inl rfl)) _
    | dropped => exact accounts_error s (own _ (Or.inr rfl)) _
    | defined definition => exact definitions definition h
  | lazy name =>
    have followed : Accounts R S (.follow (rules.build name).grammar s) := definitions
    exact accounts_emitAll followed _
  | scripted script => exact accounts_script (script s) fun message ends => own message ⟨s, ends⟩

/-- What has been collected from the parts and definitions has been collected from the grammar. -/
theorem plan_mayRaise [Symbol σ] (rules : Rules σ ν ε) (rounds : Nat) (g : Grammar σ ν ε α)
    (s : Stream σ) :
    (g.plan rules rounds s).Accounts (MayRaise rules) (g.MayRaise rules) := by
  cases hrole : g.role with
  | plain =>
    refine plan_accounts rules rounds hrole s (fun _ => .own) ?_ ?_
    · exact g.eachPart_partOf.imp fun p hpart message => .part hrole hpart
    · exact (g.eachDefinition_definitionOf rules).imp fun p hdefinition message =>
        .definition hdefinition
  | attempt =>
    cases g with
    | attempt p =>
      intro outcome told
      cases outcome with
      | success value rest => exact Plan.accounts_success value rest
      | failure rest => exact Plan.accounts_failure rest
      | error rest message =>
        dsimp only
        by_cases hescalated : message.escalated = true
        · rw [if_pos hescalated]
          exact Plan.accounts_error rest (.attempt (told message rfl) hescalated) none
        · rw [if_neg hescalated]
          exact Plan.accounts_failure s
    | _ => cases hrole
  | boundary =>
    cases g with
    | boundary p =>
      intro outcome told
      obtain ⟨notice, hsoften⟩ := Plan.soften_eq (ν := ν) (ε := ε) outcome
      rw [hsoften]
      cases outcome with
      | success value rest => exact nofun
      | failure rest => exact nofun
      | error rest message => exact Plan.accounts_error rest (.boundary (told message rfl)) notice
    | _ => cases hrole

end Grammar

/-! ## Runs -/

section Runs

variable [Source τ σ] [Symbol σ] {rules : Rules σ ν ε}

theorem Completes.told {fuel : Nat} {p : Plan σ ν ε α} {session final : Session τ σ ε}
    {outcome : Outcome σ α} {traces : List (Trace σ)}
    (completes : Completes rules fuel p session outcome final traces) {S : Message → Prop}
    (accounts : p.Accounts (Grammar.MayRaise rules) S) : outcome.Told S := by
  induction completes generalizing S with
  | done => exact accounts
  | consume _ _ ih => exact ih (accounts _)
  | emit _ ih => exact ih accounts
  | call _ ih => exact ih accounts
  | invoke _ _ hinside hlater =>
    exact hlater (accounts _ (hinside (Grammar.plan_mayRaise rules _ _ _)))
  | follow _ hinside =>
    exact fun message same =>
      accounts message (hinside (Grammar.plan_mayRaise rules _ _ _) message same)

theorem parse_told {fuel : Nat} {g : Grammar σ ν ε α} {s : Stream σ} {session final : Session τ σ ε}
    {outcome : Outcome σ α} (ended : g.parse rules fuel s session = .ok outcome final) :
    outcome.Told (g.MayRaise rules) := by
  cases fuel with
  | zero => cases ended
  | succ fuel =>
    obtain ⟨inside, completes⟩ := Grammar.parse_eq_ok_iff.mp ended
    exact completes.told (Grammar.plan_mayRaise rules fuel g s)

end Runs

/-! ## Texts and escalations -/

/-- A script may make up any message; this one gives each a text. -/
def Grammar.Worded : {α : Type} → Grammar σ ν ε α → Prop
  | _, .scripted script => ∀ s message, (script s).MayEnd message → message.text ≠ ""
  | _, _ => True

/-- The grammar itself calls for no escalation, nor does it use a name that may have no meaning. -/
def Grammar.Mild : {α : Type} → Grammar σ ν ε α → Prop
  | _, .cut _ => False
  | _, .commit _ _ => False
  | _, .rule _ => False
  | _, .scripted script => ∀ s message, (script s).MayEnd message → message.escalated = false
  | _, _ => True

theorem Message.ofText_text_ne (text : String) : (ofText text).text ≠ "" := by
  rw [ofText]
  dsimp only
  split
  · decide
  · rename_i hempty
    rintro rfl
    exact hempty rfl

theorem Grammar.Worded.makes {g : Grammar σ ν ε α} (worded : g.Worded) {message : Message}
    (makes : g.Makes message) :
    message.text ≠ "" := by
  cases g with
  | error text | cut text | label text | commit text =>
    rw [show message = _ from makes]
    exact Message.ofText_text_ne text
  | many | atLeast | separated =>
    rw [show message = _ from makes]
    exact Message.ofText_text_ne _
  | rule name =>
    rcases makes with rfl | rfl
    · exact Message.ofText_text_ne Parser.undefinedText
    · exact Message.ofText_text_ne Parser.droppedText
  | scripted script =>
    obtain ⟨s, ends⟩ := makes
    exact worded s message ends
  | _ => exact makes.elim

theorem Grammar.Mild.makes {g : Grammar σ ν ε α} (mild : g.Mild) {message : Message}
    (makes : g.Makes message) :
    message.escalated = false := by
  cases g with
  | error | label | many | atLeast | separated =>
    rw [show message = _ from makes]
    rfl
  | cut | commit | rule => exact mild.elim
  | scripted script =>
    obtain ⟨s, ends⟩ := makes
    exact mild s message ends
  | _ => exact makes.elim

/-- A property of messages that softening keeps and that all grammars of a whole give their
own messages. -/
theorem Grammar.MayRaise.induction {rules : Rules σ ν ε} {P : {α : Type} → Grammar σ ν ε α → Prop}
    {S : Message → Prop}
    (own : ∀ {β : Type} (p : Grammar σ ν ε β) message, P p → p.Makes message → S message)
    (softened : ∀ message : Message, S message → S message.softened) {g : Grammar σ ν ε α}
    {message : Message} (raises : g.MayRaise rules message) (throughout : g.Throughout rules P) :
    S message := by
  induction raises with
  | own makes => exact own _ _ throughout.self makes
  | part _ hpart _ ih => exact ih (hpart _ throughout.parts)
  | definition hdefinition _ ih => exact ih (hdefinition _ throughout.definitions)
  | attempt _ _ ih => exact ih throughout.parts
  | boundary _ ih => exact softened _ (ih throughout.parts)

/-- An error has a text, one of those collected from the grammar for errors of its kind; and where
nothing calls for an escalation there is none. -/
theorem error_provenance [Source τ σ] [Symbol σ] {rules : Rules σ ν ε} {fuel : Nat}
    {g : Grammar σ ν ε α} {s rest : Stream σ} {session final : Session τ σ ε} {message : Message}
    (worded : g.Throughout rules Grammar.Worded)
    (ended : g.parse rules fuel s session = .ok (.error rest message) final) :
    message.text ≠ "" ∧ (message.escalated = true → message.text ∈ g.escalations rules) ∧
      (message.escalated = false → message.text ∈ g.ordinary rules) ∧
      (g.Throughout rules Grammar.Mild → message.escalated = false) := by
  have raises : g.MayRaise rules message := parse_told ended message rfl
  refine ⟨?_, ?_, ?_, ?_⟩
  · exact raises.induction (fun _ _ worded => worded.makes) (fun _ h => h) worded
  · intro hescalated
    change g.MayRaise rules ⟨message.text, true⟩
    rw [← hescalated]
    exact raises
  · intro hordinary
    change g.MayRaise rules ⟨message.text, false⟩
    rw [← hordinary]
    exact raises
  · exact fun mild => raises.induction (fun _ _ mild => mild.makes) (fun _ _ => rfl) mild

/-- The boundary makes an ordinary error of the escalation that the missing bracket is. -/
theorem error_provenance_boundary :
    let closed : Grammar Char (fun _ => Empty) Unit Char := .commit "expected )" (.symbol ')')
    let bracketed : Grammar Char (fun _ => Empty) Unit Char :=
      .boundary (.keepRight (.symbol '(') closed)
    let opened : Stream Char × Session (Queue Char) Char Unit :=
      Session.ofWindow (.ofSource ⟨['(']⟩) .start
    (∃ final, bracketed.parse Rules.none 1 opened.1 opened.2 =
      .ok (.error ⟨1, none, ⟨1, 2, 1⟩⟩ ⟨"expected )", false⟩) final) ∧
      "expected )" ∈ bracketed.ordinary Rules.none := by
  intro closed bracketed opened
  have worded : bracketed.Throughout Rules.none Grammar.Worded := by
    refine .intro trivial (.intro trivial ⟨?_, ?_⟩ trivial) trivial
    · exact .intro trivial trivial trivial
    · exact .intro trivial (.intro trivial trivial trivial) trivial
  obtain ⟨final, ended⟩ : ∃ final, bracketed.parse Rules.none 1 opened.1 opened.2 =
      .ok (.error ⟨1, none, ⟨1, 2, 1⟩⟩ ⟨"expected )", false⟩) final :=
    Run.value?_eq_some (by decide +kernel)
  obtain ⟨-, -, hordinary, -⟩ := error_provenance worded ended
  exact ⟨⟨final, ended⟩, hordinary rfl⟩

end Rewind
