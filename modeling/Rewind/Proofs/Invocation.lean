import Rewind.Proofs.Parts

/-!
# Invocations

A run that comes to an end is a tree: each grammar that is tried is an invocation, which tries
others, calls supplied functions and ends with a reply. Every run, whether it ends or not, is put
together from a few pieces (`parse_closed`). `Completes` relates a plan and a session to the
outcome, the session after it and what happened in between. `parse_eq_ok_iff` states that parsing
ends with an outcome exactly if its plan completes with it, and `parse_mono` that more fuel makes no
difference to a parse that has ended.
-/
namespace Rewind

variable {τ σ ε α β : Type} {ν : Type → Type}

/-! ## What all runs do -/

section Closed

variable [Source τ σ] [Symbol σ]

/-- A property of what is done to a session that holds of a whole when it holds of the pieces. -/
structure Run.Closed (R : {γ : Type} → Run τ σ ε γ → Prop) : Prop where
  done : ∀ {γ : Type} (a : γ), R (pure a : Run τ σ ε γ)
  bind : ∀ {γ δ : Type} (x : Run τ σ ε γ) (f : γ → Run τ σ ε δ), R x → (∀ a, R (f a)) → R (x >>= f)
  halt : ∀ {γ : Type} (reason : Halt), R (throw reason : Run τ σ ε γ)
  consume : ∀ s, R (Run.consume (τ := τ) (ε := ε) s)
  emit : ∀ event, R (Run.emit (τ := τ) (σ := σ) event)
  note : ∀ notice, R (Run.note (τ := τ) (σ := σ) (ε := ε) notice)

variable {R : {γ : Type} → Run τ σ ε γ → Prop} {rules : Rules σ ν ε}

theorem Plan.run_closed (closed : Run.Closed R) {fuel : Nat}
    (definitions : ∀ {β : Type} (g : Grammar σ ν ε β) (s : Stream σ), R (g.parse rules fuel s))
    {answer : Stream σ → Message → Plan σ ν ε α} {p : Plan σ ν ε α}
    (lawful : p.Lawful (fun g => ∀ s, R (g.parse rules (fuel + 1) s)) (fun _ => True)
      (fun _ => True) answer) :
    R (p.run (fun g => g.parse rules (fuel + 1)) (fun g => g.parse rules fuel)) := by
  induction p with
  | done notice outcome =>
    cases notice with
    | none => exact closed.done _
    | some notice => exact closed.bind _ _ (closed.note notice) fun _ => closed.done _
  | halt reason => exact closed.halt reason
  | consume s next ih =>
    exact closed.bind _ _ (closed.consume s) fun rest => ih rest (lawful.2 rest trivial)
  | emit event next ih => exact closed.bind _ _ (closed.emit event) fun _ => ih lawful
  | call hook next ih => exact ih lawful
  | invoke g s next ih =>
    exact closed.bind _ _ (lawful.1 s) fun outcome => ih outcome (lawful.2.2.2 outcome trivial)
  | follow g s => exact definitions g s

/-- Whatever a parse comes to, it does nothing but what its pieces do. -/
theorem Grammar.parse_closed (closed : Run.Closed R) (fuel : Nat) (g : Grammar σ ν ε α)
    (s : Stream σ) :
    R (g.parse rules fuel s) := by
  induction fuel generalizing α s with
  | zero => exact closed.halt .outOfFuel
  | succ fuel ih =>
    refine induction_on_parts (motive := fun g => ∀ s, R (g.parse rules (fuel + 1) s)) ?_ g s
    intro β g parts s
    rw [parse_eq_run]
    exact Plan.run_closed closed ih (plan_lawful rules fuel trivial (Or.inr fun _ => trivial) parts
      (eachDefinition_of_forall (fun _ => trivial) g))

omit [Source τ σ] [Symbol σ] in
theorem bind_of_ok {γ δ : Type} {x : Run τ σ ε γ} {session middle : Session τ σ ε} {a : γ}
    (h : x session = .ok a middle) (f : γ → Run τ σ ε δ) : (x >>= f) session = f a middle := by
  change EStateM.bind x f session = _
  rw [EStateM.bind, h]

omit [Source τ σ] [Symbol σ] in
theorem bind_of_error {γ δ : Type} {x : Run τ σ ε γ} {session middle : Session τ σ ε}
    {reason : Halt} (h : x session = .error reason middle) (f : γ → Run τ σ ε δ) :
    (x >>= f) session = .error reason middle := by
  change EStateM.bind x f session = _
  rw [EStateM.bind, h]

omit [Source τ σ] [Symbol σ] in
/-- A sequence of computations has ended when its two parts have. -/
theorem bind_eq_ok {γ δ : Type} {x : Run τ σ ε γ} {f : γ → Run τ σ ε δ}
    {session final : Session τ σ ε} {b : δ} :
    (x >>= f) session = .ok b final ↔ ∃ a middle, x session = .ok a middle ∧
    f a middle = .ok b final := by
  constructor
  · intro h
    cases hx : x session with
    | ok a middle => exact ⟨a, middle, rfl, (bind_of_ok hx f).symm.trans h⟩
    | error reason middle =>
      rw [bind_of_error hx f] at h
      cases h
  · rintro ⟨a, middle, hx, hf⟩
    rw [bind_of_ok hx f, hf]

/-- The session after a run, whether the run came to an end or halted. -/
def Run.after {γ : Type} : EStateM.Result Halt (Session τ σ ε) γ → Session τ σ ε
  | .ok _ session => session
  | .error _ session => session

/-- The value of a run that came to an end. -/
def Run.value? {γ : Type} : EStateM.Result Halt (Session τ σ ε) γ → Option γ
  | .ok value _ => some value
  | .error .. => none

/-- The run leads from a session with the property to one that has it too. -/
def Run.Keeps (Inv : Session τ σ ε → Prop) {γ : Type} (x : Run τ σ ε γ) : Prop :=
  ∀ session, Inv session → Inv (Run.after (x session))

omit [Source τ σ] [Symbol σ] in
theorem Run.value?_eq_some {γ : Type} {run : EStateM.Result Halt (Session τ σ ε) γ} {value : γ}
    (h : Run.value? run = some value) : ∃ final, run = .ok value final := by
  cases run with
  | ok a final =>
    cases h
    exact ⟨final, rfl⟩
  | error reason final => cases h

theorem Run.closed_keeps {Inv : Session τ σ ε → Prop}
    (consume : ∀ s, Run.Keeps Inv (Run.consume s)) (emit : ∀ event, Run.Keeps Inv (Run.emit event))
    (note : ∀ notice, Run.Keeps Inv (Run.note notice)) : Run.Closed (Run.Keeps Inv) := by
  refine ⟨?_, ?_, ?_, consume, emit, note⟩
  · intro γ a session h
    exact h
  · intro γ δ x f hx hf session h
    have hmiddle := hx session h
    cases hrun : x session with
    | ok a middle =>
      rw [hrun] at hmiddle
      rw [bind_of_ok hrun]
      exact hf a middle hmiddle
    | error reason middle =>
      rw [hrun] at hmiddle
      rw [bind_of_error hrun]
      exact hmiddle
  · intro γ reason session h
    exact h

end Closed

/-! ## The trace of a run -/

/-- An outcome without its value. -/
def Outcome.erase (outcome : Outcome σ α) : Outcome σ Unit := outcome.map fun _ => ()

/-- What happens in a run, one thing after another. -/
inductive Trace (σ : Type) where
  | call (hook : Hook)
  | invocation (role : Role) (inside : List (Trace σ)) (reply : Outcome σ Unit)

namespace Session

def noted (session : Session τ σ ε) (notice : Option Notice) : Session τ σ ε :=
  match notice with
  | none => session
  | some notice => { session with chain := session.chain.note notice }

def emitted (session : Session τ σ ε) (event : ε) : Session τ σ ε :=
  { session with events := session.events.push event }

end Session

variable [Source τ σ] [Symbol σ]

inductive Completes (rules : Rules σ ν ε) : Nat → {α : Type} → Plan σ ν ε α → Session τ σ ε →
    Outcome σ α → Session τ σ ε → List (Trace σ) → Prop
  | done {fuel : Nat} {α : Type} {notice : Option Notice} {outcome : Outcome σ α}
    {session : Session τ σ ε} :
    Completes rules fuel (.done notice outcome) session outcome (session.noted notice) []
  | consume {fuel : Nat} {α : Type} {s rest : Stream σ} {next : Stream σ → Plan σ ν ε α}
    {outcome : Outcome σ α} {session middle final : Session τ σ ε} {traces : List (Trace σ)} :
    Run.consume s session = .ok rest middle →
    Completes rules fuel (next rest) middle outcome final traces →
    Completes rules fuel (.consume s next) session outcome final traces
  | emit {fuel : Nat} {α : Type} {event : ε} {next : Plan σ ν ε α} {outcome : Outcome σ α}
    {session final : Session τ σ ε} {traces : List (Trace σ)} :
    Completes rules fuel next (session.emitted event) outcome final traces →
    Completes rules fuel (.emit event next) session outcome final traces
  | call {fuel : Nat} {α : Type} {hook : Hook} {next : Plan σ ν ε α} {outcome : Outcome σ α}
    {session final : Session τ σ ε} {traces : List (Trace σ)} :
    Completes rules fuel next session outcome final traces →
    Completes rules fuel (.call hook next) session outcome final (.call hook :: traces)
  | invoke {fuel : Nat} {α β : Type} {g : Grammar σ ν ε β} {s : Stream σ}
    {next : Outcome σ β → Plan σ ν ε α}
    {reply : Outcome σ β} {outcome : Outcome σ α} {session middle final : Session τ σ ε}
    {inside traces : List (Trace σ)} :
    Completes rules fuel (g.plan rules fuel s) session reply middle inside →
    Completes rules fuel (next reply) middle outcome final traces →
    Completes rules fuel (.invoke g s next) session outcome final
      (.invocation g.role inside reply.erase :: traces)
  | follow {fuel : Nat} {α : Type} {g : Grammar σ ν ε α} {s : Stream σ} {outcome : Outcome σ α}
    {session final : Session τ σ ε} {inside : List (Trace σ)} :
    Completes rules fuel (g.plan rules fuel s) session outcome final inside →
    Completes rules (fuel + 1)
      (.follow g s) session outcome final [.invocation g.role inside outcome.erase]

/-- Every parse that ends has a trace. -/
def Grammar.Unfolds (τ : Type) [Source τ σ] (rules : Rules σ ν ε) (fuel : Nat)
    (g : Grammar σ ν ε α) : Prop :=
  ∀ (s : Stream σ) (session final : Session τ σ ε) (outcome : Outcome σ α),
    g.parse rules (fuel + 1) s session = .ok outcome final →
    ∃ inside, Completes rules fuel (g.plan rules fuel s) session outcome final inside

namespace Plan

variable {rules : Rules σ ν ε} {fuel : Nat}

theorem run_of_completes {p : Plan σ ν ε α} {session final : Session τ σ ε} {outcome : Outcome σ α}
    {traces : List (Trace σ)} (h : Completes rules fuel p session outcome final traces) :
    p.run (fun g => g.parse rules (fuel + 1)) (fun g => g.parse rules fuel) session =
      .ok outcome final := by
  induction h with
  | done =>
    rename_i notice _ _
    cases notice <;> rfl
  | consume hconsume _ ih => exact bind_eq_ok.mpr ⟨_, _, hconsume, ih⟩
  | emit _ ih => exact ih
  | call _ ih => exact ih
  | invoke _ _ hinside hnext =>
    rw [← Grammar.parse_eq_run] at hinside
    exact bind_eq_ok.mpr ⟨_, _, hinside, hnext⟩
  | follow _ hinside => rwa [← Grammar.parse_eq_run] at hinside

/-- A plan has completed when the parsers of what it uses complete theirs. -/
theorem completes_of_run {answer : Stream σ → Message → Plan σ ν ε α}
    (definitions :
      ∀ {β : Type} (g : Grammar σ ν ε β) (s : Stream σ) (session final : Session τ σ ε)
        (reply : Outcome σ β), g.parse rules fuel s session = .ok reply final →
        ∃ less inside, fuel = less + 1 ∧
          Completes rules less (g.plan rules less s) session reply final inside)
    {p : Plan σ ν ε α}
    (lawful : p.Lawful (fun g => g.Unfolds τ rules fuel) (fun _ => True) (fun _ => True) answer)
    {session final : Session τ σ ε} {outcome : Outcome σ α}
    (h : p.run (fun g => g.parse rules (fuel + 1)) (fun g => g.parse rules fuel) session =
      .ok outcome final) :
    ∃ traces, Completes rules fuel p session outcome final traces := by
  induction p generalizing session with
  | done notice reply =>
    cases notice <;> cases h <;> exact ⟨_, .done⟩
  | halt reason => cases h
  | consume s next ih =>
    obtain ⟨rest, middle, hconsume, hnext⟩ := bind_eq_ok.mp h
    obtain ⟨traces, htraces⟩ := ih rest (lawful.2 rest trivial) hnext
    exact ⟨traces, .consume hconsume htraces⟩
  | emit event next ih =>
    obtain ⟨traces, htraces⟩ :=
      ih lawful (show (next.run _ _) (session.emitted event) = .ok outcome final from h)
    exact ⟨traces, .emit htraces⟩
  | call hook next ih =>
    obtain ⟨traces, htraces⟩ := ih lawful h
    exact ⟨_, .call htraces⟩
  | invoke g s next ih =>
    obtain ⟨reply, middle, hpart, hnext⟩ := bind_eq_ok.mp h
    obtain ⟨inside, hinside⟩ := lawful.1 s session middle reply hpart
    obtain ⟨traces, htraces⟩ := ih reply (lawful.2.2.2 reply trivial) hnext
    exact ⟨_, .invoke hinside htraces⟩
  | follow g s =>
    obtain ⟨less, inside, rfl, hinside⟩ := definitions g s session final outcome h
    exact ⟨_, .follow hinside⟩

end Plan

namespace Grammar

theorem unfolds_of_parts {rules : Rules σ ν ε} {fuel : Nat}
    (definitions :
      ∀ {β : Type} (g : Grammar σ ν ε β) (s : Stream σ) (session final : Session τ σ ε)
        (reply : Outcome σ β), g.parse rules fuel s session = .ok reply final →
        ∃ less inside, fuel = less + 1 ∧
          Completes rules less (g.plan rules less s) session reply final inside)
    (g : Grammar σ ν ε α) (parts : g.EachPart fun p => p.Unfolds τ rules fuel) :
    g.Unfolds τ rules fuel := by
  intro s session final outcome h
  rw [parse_eq_run] at h
  have lawful :=
    plan_lawful (V := fun _ => True) rules fuel (s := s) trivial (Or.inr fun _ => trivial) parts
      (eachDefinition_of_forall (fun _ => trivial) g)
  exact Plan.completes_of_run definitions lawful h

theorem unfolds (rules : Rules σ ν ε) (fuel : Nat) (g : Grammar σ ν ε α) :
    g.Unfolds τ rules fuel := by
  induction fuel generalizing α with
  | zero =>
    refine induction_on_parts (motive := fun g => g.Unfolds τ rules 0) (unfolds_of_parts ?_) g
    intro β h s session final reply hdefinition
    cases hdefinition
  | succ fuel ih =>
    refine induction_on_parts (motive := fun g => g.Unfolds τ rules (fuel + 1))
      (unfolds_of_parts ?_) g
    intro β h s session final reply hdefinition
    obtain ⟨inside, hinside⟩ := ih h s session final reply hdefinition
    exact ⟨fuel, inside, rfl, hinside⟩

/-- Parsing ends with an outcome exactly if the plan of the grammar completes with it. -/
theorem parse_eq_ok_iff {rules : Rules σ ν ε} {fuel : Nat} {g : Grammar σ ν ε α} {s : Stream σ}
    {session final : Session τ σ ε} {outcome : Outcome σ α} :
    g.parse rules (fuel + 1) s session = .ok outcome final ↔
      ∃ inside, Completes rules fuel (g.plan rules fuel s) session outcome final inside := by
  refine ⟨unfolds rules fuel g s session final outcome, ?_⟩
  rintro ⟨inside, h⟩
  rw [parse_eq_run]
  exact Plan.run_of_completes h

end Grammar

/-! ## More fuel -/

namespace Plan

omit [Source τ σ] [Symbol σ]

/-- The second plan does what the first does, and may go on where the first has used up
its rounds. -/
inductive Extends : Plan σ ν ε α → Plan σ ν ε α → Prop
  | same (p : Plan σ ν ε α) : Extends p p
  | stuck (p : Plan σ ν ε α) : Extends (.halt .outOfFuel) p
  | invoke {β : Type} {g : Grammar σ ν ε β} {s : Stream σ}
    {next further : Outcome σ β → Plan σ ν ε α} :
    (∀ outcome, Extends (next outcome) (further outcome)) →
    Extends (.invoke g s next) (.invoke g s further)

theorem extends_exactly (p : Grammar σ ν ε α)
    {finish further : List α → Stream σ → Plan σ ν ε (List α)}
    (h : ∀ values s, Extends (finish values s) (further values s)) (count : Nat) (values : List α)
    (s : Stream σ) :
    Extends (exactly p finish count values s) (exactly p further count values s) := by
  induction count generalizing values s with
  | zero => exact h values s
  | succ count ih =>
    refine .invoke fun outcome => ?_
    cases outcome with
    | success value next => exact ih _ _
    | failure _ => exact .same _
    | error next message => exact .same _

theorem extends_many (p : Grammar σ ν ε α) {rounds more : Nat} (h : rounds ≤ more) (values : List α)
    (s : Stream σ) :
    Extends (many p rounds values s) (many p more values s) := by
  induction rounds generalizing more values s with
  | zero => exact .stuck _
  | succ rounds ih =>
    obtain ⟨more, rfl⟩ : ∃ less, more = less + 1 := ⟨more - 1, by omega⟩
    refine .invoke fun outcome => ?_
    cases outcome with
    | success value next =>
      dsimp only
      split
      · exact .same _
      · exact ih (by omega) _ _
    | failure _ => exact .same _
    | error next message => exact .same _

theorem extends_separated (p : Grammar σ ν ε α) (separator : Grammar σ ν ε β) {rounds more : Nat}
    (h : rounds ≤ more) (values : List α) (s : Stream σ) :
    Extends (separated p separator rounds values s) (separated p separator more values s) := by
  induction rounds generalizing more values s with
  | zero => exact .stuck _
  | succ rounds ih =>
    obtain ⟨more, rfl⟩ : ∃ less, more = less + 1 := ⟨more - 1, by omega⟩
    refine .invoke fun outcome => ?_
    cases outcome with
    | success _ middle =>
      refine .invoke fun outcome => ?_
      cases outcome with
      | success value next =>
        dsimp only
        split
        · exact .same _
        · exact ih (by omega) _ _
      | failure _ => exact .same _
      | error next message => exact .same _
    | failure _ => exact .same _
    | error next message => exact .same _

end Plan

namespace Grammar

omit [Source τ σ] in
theorem plan_extends (rules : Rules σ ν ε) {rounds more : Nat} (h : rounds ≤ more)
    (g : Grammar σ ν ε α) (s : Stream σ) :
    Plan.Extends (g.plan rules rounds s) (g.plan rules more s) := by
  cases g with
  | many p => exact Plan.extends_many p h [] s
  | atLeast p count =>
    simp only [plan]
    split
    · exact Plan.extends_exactly p (Plan.extends_many p h) count [] s
    · exact .same _
  | separated p separator =>
    refine .invoke fun outcome => ?_
    cases outcome with
    | success value rest => exact Plan.extends_separated p separator h [value] rest
    | failure rest => exact .same _
    | error rest message => exact .same _
  | _ => exact .same _

end Grammar

theorem Completes.mono {rules : Rules σ ν ε} {fuel more : Nat} {p q : Plan σ ν ε α}
    {session final : Session τ σ ε} {outcome : Outcome σ α} {traces : List (Trace σ)}
    (h : Completes rules fuel p session outcome final traces) (le : fuel ≤ more)
    (extends_ : p.Extends q) : Completes rules more q session outcome final traces := by
  induction h generalizing more with
  | done =>
    cases extends_
    exact .done
  | consume hconsume _ ih =>
    cases extends_
    exact .consume hconsume (ih le (.same _))
  | emit _ ih =>
    cases extends_
    exact .emit (ih le (.same _))
  | call _ ih =>
    cases extends_
    exact .call (ih le (.same _))
  | invoke _ _ hinside hnext =>
    cases extends_ with
    | same => exact .invoke (hinside le (Grammar.plan_extends rules le _ _)) (hnext le (.same _))
    | invoke further =>
      exact .invoke (hinside le (Grammar.plan_extends rules le _ _)) (hnext le (further _))
  | follow _ ih =>
    cases extends_
    obtain ⟨more, rfl⟩ : ∃ less, more = less + 1 := ⟨more - 1, by omega⟩
    exact .follow (ih (by omega) (Grammar.plan_extends rules (by omega) _ _))

/-- A parse that has ended comes to the same end with more fuel. -/
theorem Grammar.parse_mono {rules : Rules σ ν ε} {fuel more : Nat} {g : Grammar σ ν ε α}
    {s : Stream σ} {session final : Session τ σ ε} {outcome : Outcome σ α} (le : fuel ≤ more)
    (h : g.parse rules fuel s session = .ok outcome final) :
    g.parse rules more s session = .ok outcome final := by
  cases fuel with
  | zero => cases h
  | succ fuel =>
    obtain ⟨more, rfl⟩ : ∃ less, more = less + 1 := ⟨more - 1, by omega⟩
    obtain ⟨inside, hinside⟩ := parse_eq_ok_iff.mp h
    exact parse_eq_ok_iff.mpr ⟨inside, hinside.mono (by omega) (plan_extends rules (by omega) g s)⟩

end Rewind
