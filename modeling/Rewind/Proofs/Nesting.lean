import Rewind.Proofs.Rewinding

/-!
# Grammars within grammars

A grammar is evaluated in the course of another when it is that grammar, or when the plan of that
grammar comes to try it, or when it is evaluated in the course of one that the plan tries. The run
need not come to an end after that (`Evaluates`).

Nothing that a run has found is forgotten later, so all its steps are steps of the chain that it
leaves. If none of these leads out of a set of streams (`Chain.Confines`), then a parse that starts
in the set ends in it (`parse_confined`), and whatever is evaluated on the way is evaluated there
(`Evaluates.confined`).
-/
namespace Rewind

variable {τ σ ε α β : Type} {ν : Type → Type} [Source τ σ] [Symbol σ]

/-- The plan, carried out in the first session, comes to try the grammar in the second. Parts are
parsed with one more fuel than the plan has rounds, definitions with as much. -/
inductive Plan.Tries (rules : Rules σ ν ε) : {α : Type} → Nat → Plan σ ν ε α → Session τ σ ε →
    {β : Type} → Nat → Grammar σ ν ε β → Stream σ → Session τ σ ε → Prop
  | consume {α β : Type} {rounds fuel : Nat} {s rest t : Stream σ} {next : Stream σ → Plan σ ν ε α}
    {h : Grammar σ ν ε β} {session middle before : Session τ σ ε} :
    Run.consume s session = .ok rest middle →
    Tries rules rounds (next rest) middle fuel h t before →
    Tries rules rounds (.consume s next) session fuel h t before
  | emit {α β : Type} {rounds fuel : Nat} {event : ε} {t : Stream σ} {next : Plan σ ν ε α}
    {h : Grammar σ ν ε β} {session before : Session τ σ ε} :
    Tries rules rounds next (session.emitted event) fuel h t before →
    Tries rules rounds (.emit event next) session fuel h t before
  | call {α β : Type} {rounds fuel : Nat} {hook : Hook} {t : Stream σ} {next : Plan σ ν ε α}
    {h : Grammar σ ν ε β} {session before : Session τ σ ε} :
    Tries rules rounds next session fuel h t before →
    Tries rules rounds (.call hook next) session fuel h t before
  | here {α β : Type} {rounds : Nat} {s : Stream σ} {h : Grammar σ ν ε β}
    {next : Outcome σ β → Plan σ ν ε α} {session : Session τ σ ε} :
    Tries rules rounds (.invoke h s next) session (rounds + 1) h s session
  | later {α β γ : Type} {rounds fuel : Nat} {s t : Stream σ} {g : Grammar σ ν ε γ}
    {next : Outcome σ γ → Plan σ ν ε α} {reply : Outcome σ γ} {h : Grammar σ ν ε β}
    {session middle before : Session τ σ ε} :
    g.parse rules (rounds + 1) s session = .ok reply middle →
    Tries rules rounds (next reply) middle fuel h t before →
    Tries rules rounds (.invoke g s next) session fuel h t before
  | follow {α : Type} {rounds : Nat} {s : Stream σ} {h : Grammar σ ν ε α}
    {session : Session τ σ ε} :
    Tries rules rounds (.follow h s) session rounds h s session

/-- In the course of evaluating the first grammar the second is evaluated: on which stream, in which
session and with how much fuel. -/
inductive Evaluates (rules : Rules σ ν ε) :
    {α : Type} → Nat → Grammar σ ν ε α → Stream σ → Session τ σ ε →
    {β : Type} → Nat → Grammar σ ν ε β → Stream σ → Session τ σ ε → Prop
  | self {α : Type} {fuel : Nat} {g : Grammar σ ν ε α} {s : Stream σ} {session : Session τ σ ε} :
    Evaluates rules fuel g s session fuel g s session
  | inside {α β γ : Type} {rounds fuel less : Nat} {g : Grammar σ ν ε α} {p : Grammar σ ν ε γ}
    {h : Grammar σ ν ε β} {s t u : Stream σ} {session middle before : Session τ σ ε} :
    (g.plan rules rounds s).Tries rules rounds session fuel p t middle →
    Evaluates rules fuel p t middle less h u before →
    Evaluates rules (rounds + 1) g s session less h u before

/-! ## What all that is evaluated keeps -/

variable {rules : Rules σ ν ε} {session final before : Session τ σ ε} {Inv : Session τ σ ε → Prop}

omit [Source τ σ] [Symbol σ] in
theorem Run.Keeps.ok {γ : Type} {x : Run τ σ ε γ} (keeps : Run.Keeps Inv x) (inv : Inv session)
    {a : γ} (run : x session = .ok a final) : Inv final := by
  have hafter := keeps session inv
  rwa [run] at hafter

theorem Completes.keeps (closed : Run.Closed (Run.Keeps Inv)) {fuel : Nat} {p : Plan σ ν ε α}
    {outcome : Outcome σ α} {traces : List (Trace σ)}
    (completes : Completes rules fuel p session outcome final traces) (inv : Inv session) :
    Inv final := by
  induction completes with
  | done =>
    rename_i notice _ session
    cases notice with
    | none => exact inv
    | some notice => exact closed.note notice session inv
  | consume hconsume _ ih => exact ih ((closed.consume _).ok inv hconsume)
  | emit _ ih => exact ih (closed.emit _ _ inv)
  | call _ ih => exact ih inv
  | invoke _ _ hinside hnext => exact hnext (hinside inv)
  | follow _ ih => exact ih inv

theorem Plan.Tries.keeps (closed : Run.Closed (Run.Keeps Inv)) {rounds fuel : Nat}
    {p : Plan σ ν ε α} {h : Grammar σ ν ε β} {t : Stream σ}
    (tries : p.Tries rules rounds session fuel h t before) (inv : Inv session) :
    Inv before := by
  induction tries with
  | consume hconsume _ ih => exact ih ((closed.consume _).ok inv hconsume)
  | emit _ ih => exact ih (closed.emit _ _ inv)
  | call _ ih => exact ih inv
  | here => exact inv
  | later hparse _ ih => exact ih ((Grammar.parse_closed closed _ _ _).ok inv hparse)
  | follow => exact inv

theorem Evaluates.keeps (closed : Run.Closed (Run.Keeps Inv)) {fuel less : Nat}
    {g : Grammar σ ν ε α} {h : Grammar σ ν ε β} {s t : Stream σ}
    (evaluates : Evaluates rules fuel g s session less h t before) (inv : Inv session) :
    Inv before := by
  induction evaluates with
  | self => exact inv
  | inside tries _ ih => exact ih (tries.keeps closed inv)

/-! ## Nothing is forgotten -/

/-- A stream that was found is known. -/
theorem Run.consume_knows {s t : Stream σ} (moved : Run.consume s session = .ok t final) :
    final.chain.Knows s t := by
  obtain ⟨-, hknows⟩ := Chain.consume_remembers session.chain s
  rwa [Run.consume_eq_ok moved] at hknows

theorem Completes.grows {fuel : Nat} {p : Plan σ ν ε α} {outcome : Outcome σ α}
    {traces : List (Trace σ)} (completes : Completes rules fuel p session outcome final traces) :
    session.chain.Grows final.chain :=
  completes.keeps (closed_grows session.chain) fun _ _ knows => knows

theorem Plan.Tries.grows {rounds fuel : Nat} {p : Plan σ ν ε α} {h : Grammar σ ν ε β} {t : Stream σ}
    (tries : p.Tries rules rounds session fuel h t before) : session.chain.Grows before.chain :=
  tries.keeps (closed_grows session.chain) fun _ _ knows => knows

theorem Evaluates.grows {fuel less : Nat} {g : Grammar σ ν ε α} {h : Grammar σ ν ε β}
    {s t : Stream σ} (evaluates : Evaluates rules fuel g s session less h t before) :
    session.chain.Grows before.chain :=
  evaluates.keeps (closed_grows session.chain) fun _ _ knows => knows

omit [Source τ σ] [Symbol σ] in
theorem Chain.Grows.trans {c d e : Chain τ σ} (h : c.Grows d) (hd : d.Grows e) : c.Grows e :=
  fun s t knows => hd s t (h s t knows)

/-! ## Confinement -/

/-- No step that the chain knows leads out of the set. -/
def Chain.Confines (c : Chain τ σ) (V : Stream σ → Prop) : Prop := ∀ s t, V s → c.Knows s t → V t

variable {last : Chain τ σ} {V : Stream σ → Prop} {P : {β : Type} → Grammar σ ν ε β → Prop}

theorem Completes.confined (confines : last.Confines V)
    (scriptless : ∀ {β : Type} (h : Grammar σ ν ε β), P h → h.Scriptless) {fuel : Nat}
    {p : Plan σ ν ε α} {outcome : Outcome σ α} {traces : List (Trace σ)}
    (completes : Completes rules fuel p session outcome final traces) :
    ∀ answer : Stream σ → Message → Plan σ ν ε α,
      p.Lawful (fun h => h.Throughout rules P) (fun h => h.Throughout rules P) V answer →
      final.chain.Grows last →
      V outcome.rest := by
  induction completes with
  | done =>
    intro answer lawful grows
    exact lawful
  | consume hconsume hnext ih =>
    rename_i s rest _ _ _ _ _ _
    intro answer lawful grows
    have hknows := hnext.grows.trans grows s rest (Run.consume_knows hconsume)
    exact ih answer (lawful.2 rest (confines s rest lawful.1 hknows)) grows
  | emit _ ih => exact ih
  | call _ ih => exact ih
  | invoke hpart hrest hinside hnext =>
    rename_i fuel _ _ g s next reply outcome session middle final inside traces
    intro answer lawful grows
    obtain ⟨throughout, hs, -, hkeeps⟩ := lawful
    have hplan := throughout.plan_lawful fuel hs (Or.inl (scriptless g throughout.self))
    exact hnext answer (hkeeps reply (hinside _ hplan (hrest.grows.trans grows))) grows
  | follow _ hinside =>
    rename_i fuel _ g s outcome session final inside _
    intro answer lawful grows
    obtain ⟨throughout, hs⟩ := lawful
    exact hinside _ (throughout.plan_lawful fuel hs (Or.inl (scriptless g throughout.self))) grows

/-- A parse that starts in the set ends in it. -/
theorem parse_confined (confines : last.Confines V)
    (scriptless : ∀ {β : Type} (h : Grammar σ ν ε β), P h → h.Scriptless) {fuel : Nat}
    {g : Grammar σ ν ε α} {s : Stream σ} {outcome : Outcome σ α} (throughout : g.Throughout rules P)
    (hs : V s) (ended : g.parse rules fuel s session = .ok outcome final)
    (grows : final.chain.Grows last) : V outcome.rest := by
  cases fuel with
  | zero => cases ended
  | succ fuel =>
    obtain ⟨inside, completes⟩ := Grammar.parse_eq_ok_iff.mp ended
    have hplan := throughout.plan_lawful fuel hs (Or.inl (scriptless g throughout.self))
    exact completes.confined confines scriptless _ hplan grows

theorem Plan.Tries.confined (confines : last.Confines V)
    (scriptless : ∀ {β : Type} (h : Grammar σ ν ε β), P h → h.Scriptless) {rounds fuel : Nat}
    {p : Plan σ ν ε α} {h : Grammar σ ν ε β} {t : Stream σ}
    (tries : p.Tries rules rounds session fuel h t before) :
    ∀ answer : Stream σ → Message → Plan σ ν ε α,
      p.Lawful (fun h => h.Throughout rules P) (fun h => h.Throughout rules P) V answer →
      before.chain.Grows last →
      h.Throughout rules P ∧ V t := by
  induction tries with
  | consume hconsume hnext ih =>
    rename_i s rest _ _ _ _ _ _
    intro answer lawful grows
    have hknows := hnext.grows.trans grows s rest (Run.consume_knows hconsume)
    exact ih answer (lawful.2 rest (confines s rest lawful.1 hknows)) grows
  | emit _ ih => exact ih
  | call _ ih => exact ih
  | here =>
    intro answer lawful grows
    exact ⟨lawful.1, lawful.2.1⟩
  | later hparse hnext ih =>
    intro answer lawful grows
    obtain ⟨throughout, hs, -, hkeeps⟩ := lawful
    have hreply := parse_confined confines scriptless throughout hs hparse (hnext.grows.trans grows)
    exact ih answer (hkeeps _ hreply) grows
  | follow =>
    intro answer lawful grows
    exact lawful

/-- Whatever is evaluated in the course of a grammar is evaluated in the set. -/
theorem Evaluates.confined (confines : last.Confines V)
    (scriptless : ∀ {β : Type} (h : Grammar σ ν ε β), P h → h.Scriptless) {fuel less : Nat}
    {g : Grammar σ ν ε α} {h : Grammar σ ν ε β} {s t : Stream σ}
    (evaluates : Evaluates rules fuel g s session less h t before)
    (throughout : g.Throughout rules P) (hs : V s) (grows : before.chain.Grows last) :
    h.Throughout rules P ∧ V t := by
  induction evaluates with
  | self => exact ⟨throughout, hs⟩
  | inside tries nested ih =>
    rename_i rounds _ _ g _ _ _ _ _ _ _ _
    have hplan := throughout.plan_lawful rounds hs (Or.inl (scriptless g throughout.self))
    obtain ⟨hp, ht⟩ := tries.confined confines scriptless _ hplan (nested.grows.trans grows)
    exact ih hp ht grows

end Rewind
