import Rewind.Proofs.Nesting

/-!
# Where a run halts

A run halts where it asks for the successor of a stream and gets none, or where a plan halts of
itself. Plans do that for few reasons: they are out of fuel, they are asked for too many
repetitions, or an observer raises a fault (`plan_haltsBy`). `Plan.Asks` says that a run comes to
ask for the successor of a stream. If that cannot be had the run halts there (`Grammar.Asks.halts`);
and a run that halts for another reason than those of plans has asked for a stream that has no
successor (`Grammar.asks_of_halt`).
-/
namespace Rewind

variable {τ σ ε α β : Type} {ν : Type → Type}

namespace Plan

/-- The plan halts of itself only for such reasons. -/
def HaltsBy (P : Halt → Prop) : Plan σ ν ε α → Prop
  | .done _ _ => True
  | .halt reason => P reason
  | .consume _ next => ∀ rest, (next rest).HaltsBy P
  | .emit _ next => next.HaltsBy P
  | .call _ next => next.HaltsBy P
  | .invoke _ _ next => ∀ outcome, (next outcome).HaltsBy P
  | .follow _ _ => True

variable {P : Halt → Prop}

theorem haltsBy_reply (outcome : Outcome σ α) : (reply (ν := ν) (ε := ε) outcome).HaltsBy P :=
  trivial

theorem haltsBy_invoke {g : Grammar σ ν ε β} {s : Stream σ} {next : Outcome σ β → Plan σ ν ε α}
    (success : ∀ value rest, (next (.success value rest)).HaltsBy P)
    (failure : ∀ rest, (next (.failure rest)).HaltsBy P)
    (error : ∀ rest message, (next (.error rest message)).HaltsBy P) :
    (Plan.invoke g s next).HaltsBy P := by
  intro outcome
  cases outcome with
  | success value rest => exact success value rest
  | failure rest => exact failure rest
  | error rest message => exact error rest message

theorem haltsBy_onSuccess {g : Grammar σ ν ε β} {s : Stream σ} {next : β → Stream σ → Plan σ ν ε α}
    (h : ∀ value rest, (next value rest).HaltsBy P) :
    (Plan.invoke g s (onSuccess next)).HaltsBy P :=
  haltsBy_invoke h (fun _ => trivial) (fun _ _ => trivial)

theorem haltsBy_onFailure {g : Grammar σ ν ε α} {s : Stream σ} {otherwise : Plan σ ν ε α}
    (h : otherwise.HaltsBy P) :
    (Plan.invoke g s (onFailure otherwise)).HaltsBy P :=
  haltsBy_invoke (fun _ _ => trivial) (fun _ => h) (fun _ _ => trivial)

theorem haltsBy_last (g : Grammar σ ν ε α) (s : Stream σ) : (Plan.invoke g s reply).HaltsBy P :=
  fun _ => trivial

theorem haltsBy_emitAll {next : Plan σ ν ε α} (h : next.HaltsBy P) (events : List ε) :
    (emitAll next events).HaltsBy P := by
  induction events with
  | nil => exact h
  | cons event rest ih => exact ih

theorem haltsBy_literal [DecidableEq σ] (expected : List σ) (start : Stream σ) (left : List σ)
    (s : Stream σ) :
    (literal (ν := ν) (ε := ε) expected start left s).HaltsBy P := by
  induction left generalizing s with
  | nil => trivial
  | cons a rest ih =>
    rw [literal]
    split
    · exact ih
    · trivial

theorem haltsBy_choice (s : Stream σ) (parts : List (Grammar σ ν ε α)) :
    (choice s parts).HaltsBy P := by
  induction parts with
  | nil => trivial
  | cons p rest ih => exact haltsBy_onFailure ih

theorem haltsBy_sequence (values : List α) (parts : List (Grammar σ ν ε α)) (s : Stream σ) :
    (sequence values parts s).HaltsBy P := by
  induction parts generalizing values s with
  | nil => trivial
  | cons p rest ih =>
    exact haltsBy_invoke (fun _ _ => ih _ _) (fun _ => trivial) (fun _ _ => trivial)

theorem haltsBy_exactly (p : Grammar σ ν ε α) {finish : List α → Stream σ → Plan σ ν ε (List α)}
    (h : ∀ values rest, (finish values rest).HaltsBy P) (count : Nat) (values : List α)
    (s : Stream σ) :
    (exactly p finish count values s).HaltsBy P := by
  induction count generalizing values s with
  | zero => exact h values s
  | succ count ih =>
    exact haltsBy_invoke (fun _ _ => ih _ _) (fun _ => trivial) (fun _ _ => trivial)

theorem haltsBy_many (outOfFuel : P .outOfFuel) (p : Grammar σ ν ε α) (rounds : Nat)
    (values : List α) (s : Stream σ) : (many p rounds values s).HaltsBy P := by
  induction rounds generalizing values s with
  | zero => exact outOfFuel
  | succ rounds ih =>
    refine haltsBy_invoke (fun value next => ?_) (fun _ => trivial) (fun _ _ => trivial)
    dsimp only
    split
    · trivial
    · exact ih _ _

theorem haltsBy_separated (outOfFuel : P .outOfFuel) (p : Grammar σ ν ε α)
    (separator : Grammar σ ν ε β) (rounds : Nat) (values : List α) (s : Stream σ) :
    (separated p separator rounds values s).HaltsBy P := by
  induction rounds generalizing values s with
  | zero => exact outOfFuel
  | succ rounds ih =>
    refine haltsBy_invoke (fun _ middle => ?_) (fun _ => trivial) (fun _ _ => trivial)
    refine haltsBy_invoke (fun value next => ?_) (fun _ => trivial) (fun _ _ => trivial)
    dsimp only
    split
    · trivial
    · exact ih _ _

theorem haltsBy_script (script : Script σ ε α) : (Plan.script (ν := ν) script).HaltsBy P := by
  induction script with
  | done outcome => trivial
  | consume s next ih => exact ih
  | emit event next ih => exact ih

end Plan

/-- The grammar's observer, if it has one, raises faults only for such reasons. -/
def Grammar.Observes (P : Halt → Prop) : Grammar σ ν ε α → Prop
  | .inspect observe _ => ∀ value fault, observe value = .error fault → P (.fault fault)
  | _ => True

open Plan in
/-- Out of fuel, too many repetitions, or an observer: there is nothing else that a
plan halts for. -/
theorem Grammar.plan_haltsBy [Symbol σ] {P : Halt → Prop} (outOfFuel : P .outOfFuel)
    (capacityOverflow : P (.fault .capacityOverflow)) (rules : Rules σ ν ε) (rounds : Nat)
    {g : Grammar σ ν ε α} (observes : g.Observes P) (s : Stream σ) :
    (g.plan rules rounds s).HaltsBy P := by
  cases g with
  | any =>
    rw [plan]
    cases s.current with
    | none => trivial
    | some a => exact fun _ => trivial
  | satisfy accepts =>
    rw [plan]
    cases s.current with
    | none => trivial
    | some a =>
      dsimp only [HaltsBy]
      split
      · exact fun _ => trivial
      · trivial
  | symbol expected =>
    rw [plan]
    cases s.current with
    | none => trivial
    | some a =>
      dsimp only
      split
      · exact fun _ => trivial
      · trivial
  | literal expected => exact haltsBy_literal expected s expected s
  | endOfInput | succeed | fail | error | cut => trivial
  | orElse p q => exact haltsBy_onFailure (haltsBy_last q s)
  | choiceOf count parts => exact haltsBy_choice s _
  | optional | lookAhead | notAhead | attempt =>
    exact haltsBy_invoke (fun _ _ => trivial) (fun _ => trivial) (fun _ _ => trivial)
  | filter | map | ignore | spanned => exact haltsBy_onSuccess fun _ _ => trivial
  | bind p next => exact haltsBy_onSuccess fun value rest => haltsBy_last (next value) rest
  | pair | keepLeft => exact haltsBy_onSuccess fun _ _ => haltsBy_onSuccess fun _ _ => trivial
  | keepRight p q => exact haltsBy_onSuccess fun _ rest => haltsBy_last q rest
  | between =>
    exact haltsBy_onSuccess fun _ _ => haltsBy_onSuccess fun _ _ => haltsBy_onSuccess fun _ _ =>
      trivial
  | sequenceOf count parts => exact haltsBy_sequence [] _ s
  | exactly p count =>
    rw [plan]
    split
    · exact haltsBy_exactly p (fun _ _ => haltsBy_reply _) count [] s
    · exact capacityOverflow
  | many p => exact haltsBy_many outOfFuel p rounds [] s
  | atLeast p count =>
    rw [plan]
    split
    · exact haltsBy_exactly p (haltsBy_many outOfFuel p rounds) count [] s
    · exact capacityOverflow
  | separated p separator =>
    exact haltsBy_onSuccess fun value rest =>
      haltsBy_separated outOfFuel p separator rounds [value] rest
  | label | commit => exact haltsBy_onFailure trivial
  | boundary p =>
    refine haltsBy_invoke (fun _ _ => trivial) (fun _ => trivial) (fun rest message => ?_)
    rw [soften]
    split <;> trivial
  | inspect observe p =>
    refine haltsBy_onSuccess fun value rest => ?_
    dsimp only [HaltsBy]
    cases hobserve : observe value with
    | ok event => trivial
    | error fault => exact observes value fault hobserve
  | rule name =>
    rw [plan]
    cases rules.slot name <;> trivial
  | lazy name =>
    have followed : HaltsBy P (.follow (rules.build name).grammar s) := trivial
    exact haltsBy_emitAll followed _
  | scripted script => exact haltsBy_script (script s)

/-! ## Asking for a successor -/

variable [Source τ σ] [Symbol σ]

/-- The plan, carried out in the session, comes to ask for the successor of `s`, itself or in
what it tries. -/
inductive Plan.Asks (rules : Rules σ ν ε) (s : Stream σ) :
    {α : Type} → Nat → Plan σ ν ε α → Session τ σ ε → Prop
  | here {α : Type} {rounds : Nat} {next : Stream σ → Plan σ ν ε α} {session : Session τ σ ε} :
    Asks rules s rounds (.consume s next) session
  | consume {α : Type} {rounds : Nat} {t rest : Stream σ} {next : Stream σ → Plan σ ν ε α}
    {session middle : Session τ σ ε} : Run.consume t session = .ok rest middle →
    Asks rules s rounds (next rest) middle → Asks rules s rounds (.consume t next) session
  | emit {α : Type} {rounds : Nat} {event : ε} {next : Plan σ ν ε α} {session : Session τ σ ε} :
    Asks rules s rounds next (session.emitted event) →
    Asks rules s rounds (.emit event next) session
  | call {α : Type} {rounds : Nat} {hook : Hook} {next : Plan σ ν ε α} {session : Session τ σ ε} :
    Asks rules s rounds next session → Asks rules s rounds (.call hook next) session
  | inside {α β : Type} {rounds : Nat} {g : Grammar σ ν ε β} {t : Stream σ}
    {next : Outcome σ β → Plan σ ν ε α} {session : Session τ σ ε} :
    Asks rules s rounds (g.plan rules rounds t) session →
    Asks rules s rounds (.invoke g t next) session
  | later {α β : Type} {rounds : Nat} {g : Grammar σ ν ε β} {t : Stream σ}
    {next : Outcome σ β → Plan σ ν ε α} {reply : Outcome σ β} {session middle : Session τ σ ε} :
    g.parse rules (rounds + 1) t session = .ok reply middle →
    Asks rules s rounds (next reply) middle →
    Asks rules s rounds (.invoke g t next) session
  | follow {α : Type} {rounds : Nat} {g : Grammar σ ν ε α} {t : Stream σ}
    {session : Session τ σ ε} :
    Asks rules s rounds (g.plan rules rounds t) session →
    Asks rules s (rounds + 1) (.follow g t) session

/-- Parsing asks for the successor of `s`. -/
def Grammar.Asks (rules : Rules σ ν ε) (fuel : Nat) (g : Grammar σ ν ε α) (t : Stream σ)
    (session : Session τ σ ε) (s : Stream σ) : Prop :=
  ∃ rounds, fuel = rounds + 1 ∧ (g.plan rules rounds t).Asks rules s rounds session

variable {rules : Rules σ ν ε} {s : Stream σ} {Inv : Session τ σ ε → Prop}
  {session final : Session τ σ ε}

/-- What asks for a successor that cannot be had halts. -/
theorem Plan.Asks.halts (closed : Run.Closed (Run.Keeps Inv)) {reason : Halt}
    (refused : ∀ session, Inv session → ∃ final, Run.consume s session = .error reason final)
    {rounds : Nat} {p : Plan σ ν ε α} (asks : p.Asks rules s rounds session) (inv : Inv session) :
    ∃ final, p.run (fun g => g.parse rules (rounds + 1)) (fun g => g.parse rules rounds) session =
      .error reason final := by
  induction asks with
  | here =>
    obtain ⟨final, hrefused⟩ := refused _ inv
    exact ⟨final, bind_of_error hrefused _⟩
  | consume hconsume _ ih =>
    obtain ⟨final, hnext⟩ := ih ((closed.consume _).ok inv hconsume)
    exact ⟨final, (bind_of_ok hconsume _).trans hnext⟩
  | emit _ ih => exact ih (closed.emit _ _ inv)
  | call _ ih => exact ih inv
  | inside _ ih =>
    obtain ⟨final, hinside⟩ := ih inv
    rw [← Grammar.parse_eq_run] at hinside
    exact ⟨final, bind_of_error hinside _⟩
  | later hparse _ ih =>
    obtain ⟨final, hnext⟩ := ih ((Grammar.parse_closed closed _ _ _).ok inv hparse)
    exact ⟨final, (bind_of_ok hparse _).trans hnext⟩
  | follow _ ih =>
    obtain ⟨final, hfollow⟩ := ih inv
    rw [← Grammar.parse_eq_run] at hfollow
    exact ⟨final, hfollow⟩

theorem Grammar.Asks.halts (closed : Run.Closed (Run.Keeps Inv)) {reason : Halt}
    (refused : ∀ session, Inv session → ∃ final, Run.consume s session = .error reason final)
    {fuel : Nat} {g : Grammar σ ν ε α} {t : Stream σ} (asks : g.Asks rules fuel t session s)
    (inv : Inv session) :
    ∃ final, g.parse rules fuel t session = .error reason final := by
  obtain ⟨rounds, rfl, hplan⟩ := asks
  rw [parse_eq_run]
  exact hplan.halts closed refused inv

/-! ## Why a run halts -/

/-- In the sessions with the property no step leads out of the set, and a step from a stream of the
set that halts for another reason than those allowed is one from `s`. -/
structure Run.Isolates (Inv : Session τ σ ε → Prop) (P : Halt → Prop) (V : Stream σ → Prop)
    (s : Stream σ) : Prop where
  closed : Run.Closed (Run.Keeps Inv)
  confines : ∀ session, Inv session → session.chain.Confines V
  only : ∀ session final t reason, Inv session → V t → Run.consume t session = .error reason final →
    ¬ P reason → t = s

variable {P : Halt → Prop} {V : Stream σ → Prop} {reason : Halt}

theorem Plan.asks_of_halt (isolates : Run.Isolates Inv P V s) {rounds : Nat}
    {Q : {β : Type} → Grammar σ ν ε β → Prop}
    (scriptless : ∀ {β : Type} (g : Grammar σ ν ε β), Q g → g.Scriptless)
    (definitions :
      ∀ {β : Type} (g : Grammar σ ν ε β) (t : Stream σ) (session final : Session τ σ ε),
        g.Throughout rules Q → Inv session → V t →
        g.parse rules rounds t session = .error reason final → g.Asks rules rounds t session s)
    {answer : Stream σ → Message → Plan σ ν ε α} {p : Plan σ ν ε α}
    (lawful : p.Lawful
      (fun g => g.Throughout rules Q ∧
        ∀ (t : Stream σ) (session final : Session τ σ ε), Inv session → V t →
          g.parse rules (rounds + 1) t session = .error reason final →
          g.Asks rules (rounds + 1) t session s)
      (fun g => g.Throughout rules Q) V answer)
    (halts : p.HaltsBy P) (unusual : ¬ P reason) (inv : Inv session)
    (halted : p.run (fun g => g.parse rules (rounds + 1)) (fun g => g.parse rules rounds) session =
      .error reason final) : p.Asks rules s rounds session := by
  induction p generalizing session with
  | done notice outcome => cases notice <;> cases halted
  | halt reason =>
    cases halted
    exact absurd halts unusual
  | consume t next ih =>
    cases hconsume : Run.consume t session with
    | error reason' middle =>
      cases (bind_of_error hconsume _).symm.trans halted
      rw [isolates.only session final t reason inv lawful.1 hconsume unusual]
      exact .here
    | ok rest middle =>
      have hinv := (isolates.closed.consume t).ok inv hconsume
      have hrest := isolates.confines middle hinv t rest lawful.1 (Run.consume_knows hconsume)
      exact .consume hconsume (ih rest (lawful.2 rest hrest) (halts rest) hinv
        ((bind_of_ok hconsume _).symm.trans halted))
  | emit event next ih =>
    exact .emit (ih lawful halts (isolates.closed.emit event session inv) halted)
  | call hook next ih => exact .call (ih lawful halts inv halted)
  | invoke g t next ih =>
    obtain ⟨⟨throughout, hpart⟩, ht, -, hkeeps⟩ := lawful
    cases hparse : g.parse rules (rounds + 1) t session with
    | error reason' middle =>
      cases (bind_of_error hparse _).symm.trans halted
      obtain ⟨less, hless, hplan⟩ := hpart t session final inv ht hparse
      cases hless
      exact .inside hplan
    | ok reply middle =>
      have hinv := (Grammar.parse_closed isolates.closed (rounds + 1) g t).ok inv hparse
      have hreply := parse_confined (isolates.confines middle hinv) scriptless throughout ht hparse
        fun _ _ knows => knows
      exact .later hparse (ih reply (hkeeps reply hreply) (halts reply) hinv
        ((bind_of_ok hparse _).symm.trans halted))
  | follow g t =>
    obtain ⟨less, rfl, hplan⟩ := definitions g t session final lawful.1 inv lawful.2 halted
    exact .follow hplan

/-- A parse that halts for a reason that its plans do not halt for has asked for the one stream. -/
theorem Grammar.asks_of_halt (isolates : Run.Isolates Inv P V s) (outOfFuel : P .outOfFuel)
    (capacityOverflow : P (.fault .capacityOverflow)) (unusual : ¬ P reason) {fuel : Nat}
    {g : Grammar σ ν ε α} (throughout : g.Throughout rules fun h => h.Scriptless ∧ h.Observes P)
    {t : Stream σ} (inv : Inv session) (ht : V t)
    (halted : g.parse rules fuel t session = .error reason final) :
    g.Asks rules fuel t session s := by
  induction fuel generalizing α t session final with
  | zero =>
    cases halted
    exact absurd outOfFuel unusual
  | succ fuel ih =>
    suffices each : ∀ (t : Stream σ) (session final : Session τ σ ε), Inv session → V t →
        g.parse rules (fuel + 1) t session = .error reason final →
        g.Asks rules (fuel + 1) t session s from
      each t session final inv ht halted
    refine Throughout.induction (motive := fun g =>
      ∀ (t : Stream σ) (session final : Session τ σ ε), Inv session →
        V t → g.parse rules (fuel + 1) t session = .error reason final →
        g.Asks rules (fuel + 1) t session s) ?_ throughout
    intro β g throughout parts t session final inv ht halted
    have hparts :=
      EachPart.mp (parts.imp fun p hp (hth : p.Throughout rules _) =>
        And.intro hth hp) throughout.parts
    have hlawful :=
      plan_lawful rules fuel ht (Or.inl throughout.self.1) hparts throughout.definitions
    have hhalts := plan_haltsBy outOfFuel capacityOverflow rules fuel throughout.self.2 t
    rw [parse_eq_run] at halted
    refine ⟨fuel, rfl, ?_⟩
    exact Plan.asks_of_halt isolates (fun h both => both.1)
      (fun h u between last hth hinv hu hrun => ih hth hinv hu hrun) hlawful hhalts
        unusual inv halted

end Rewind
