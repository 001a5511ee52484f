import Rewind.Proofs.Invocation
import Rewind.Proofs.Nodes

/-!
# Evaluation on a list

What a grammar means on a list of symbols: its plan, carried out on the nodes of the input alone,
with no window, no cell and no source (`Grammar.read`). The main theorem is `parse_eq_read`:
whatever was done to a chain before, parsing at one of its nodes answers what the grammar means at
that place of the list.
-/
namespace Rewind

variable {τ σ ε α : Type} {ν : Type → Type} [Symbol σ]

/-- Carries a plan out on the list, given what the grammars that it tries mean. -/
def Plan.read (input : Input σ)
    (inner : {β : Type} → Grammar σ ν ε β → Stream σ → Except Halt (Outcome σ β)) {α : Type} :
    Plan σ ν ε α → Except Halt (Outcome σ α)
  | .done _ outcome => .ok outcome
  | .halt reason => .error reason
  | .consume s next =>
    match input.next s with
    | .ok rest => (next rest).read input inner
    | .error fault => .error (.fault fault)
  | .emit _ next => next.read input inner
  | .call _ next => next.read input inner
  | .invoke g s next =>
    match inner g s with
    | .ok outcome => (next outcome).read input inner
    | .error reason => .error reason
  | .follow g s => inner g s

namespace Grammar

/-- The meaning of a grammar on the list from a node on. The depth bounds how deep grammars nest and
how many rounds an open-ended repetition makes. -/
def read (rules : Rules σ ν ε) (input : Input σ) :
    Nat → {α : Type} → Grammar σ ν ε α → Stream σ → Except Halt (Outcome σ α)
  | 0, _, _, _ => .error .outOfFuel
  | depth + 1, _, g, s => (g.plan rules depth s).read input fun h t => h.read rules input depth t

/-- The meaning of a grammar at a place of the list. -/
def readAt (rules : Rules σ ν ε) (input : Input σ) (depth : Nat) (g : Grammar σ ν ε α) (i : Nat) :
    Except Halt (Outcome σ α) :=
  match input.place i with
  | .ok s => g.read rules input depth s
  | .error fault => .error (.fault fault)

end Grammar

variable {rules : Rules σ ν ε} {input : Input σ}

theorem Plan.read_extends
    {inner further : {β : Type} → Grammar σ ν ε β → Stream σ → Except Halt (Outcome σ β)}
    (h : ∀ {β : Type} (g : Grammar σ ν ε β) (s : Stream σ) (outcome : Outcome σ β),
      inner g s = .ok outcome → further g s = .ok outcome)
    {p q : Plan σ ν ε α} (hpq : p.Extends q) {outcome : Outcome σ α}
    (hp : p.read input inner = .ok outcome) :
    q.read input further = .ok outcome := by
  induction p generalizing q with
  | done notice reply =>
    cases hpq
    exact hp
  | halt reason => cases hp
  | consume s next ih =>
    cases hpq
    rw [read] at hp ⊢
    cases hnext : input.next s with
    | ok rest =>
      rw [hnext] at hp
      exact ih rest (.same _) hp
    | error fault =>
      rw [hnext] at hp
      cases hp
  | emit event next ih =>
    cases hpq
    rw [read] at hp ⊢
    exact ih (.same _) hp
  | call hook next ih =>
    cases hpq
    rw [read] at hp ⊢
    exact ih (.same _) hp
  | invoke g s next ih =>
    rw [read] at hp
    cases hinner : inner g s with
    | ok reply =>
      rw [hinner] at hp
      cases hpq with
      | same =>
        rw [read, h g s reply hinner]
        exact ih reply (.same _) hp
      | invoke hnext =>
        rw [read, h g s reply hinner]
        exact ih reply (hnext reply) hp
    | error reason =>
      rw [hinner] at hp
      cases hp
  | follow g s =>
    cases hpq
    exact h g s outcome hp

namespace Grammar

theorem read_mono {depth more : Nat} (le : depth ≤ more) {g : Grammar σ ν ε α} {s : Stream σ}
    {outcome : Outcome σ α} (h : g.read rules input depth s = .ok outcome) :
    g.read rules input more s = .ok outcome := by
  induction depth generalizing more α s with
  | zero => cases h
  | succ depth ih =>
    obtain ⟨more, rfl⟩ : ∃ less, more = less + 1 := ⟨more - 1, by omega⟩
    have hle : depth ≤ more := by omega
    exact Plan.read_extends (fun _ _ _ hinner => ih hle hinner) (plan_extends rules hle g s) h

/-- A grammar has one meaning, whatever the depth at which it is found. -/
theorem readAt_unique {depth more i : Nat} {g : Grammar σ ν ε α} {outcome other : Outcome σ α}
    (h : g.readAt rules input depth i = .ok outcome)
    (hmore : g.readAt rules input more i = .ok other) :
    other = outcome := by
  rw [readAt] at h hmore
  cases hplace : input.place i with
  | error fault =>
    rw [hplace] at h
    cases h
  | ok s =>
    rw [hplace] at h hmore
    have hboth := read_mono (Nat.le_max_left depth more) h
    rw [read_mono (Nat.le_max_right depth more) hmore] at hboth
    exact Except.ok.inj hboth

end Grammar

/-! ## What a plan means -/

namespace Plan

/-- At each depth from some on, the plan has this outcome on the list, and so have the plans that go
on where it has used up its rounds. -/
def Means (rules : Rules σ ν ε) (input : Input σ) (p : Plan σ ν ε α) (outcome : Outcome σ α) :
    Prop :=
  ∃ depth, ∀ more, depth ≤ more → ∀ q : Plan σ ν ε α, p.Extends q →
    q.read input (fun h t => h.read rules input more t) = .ok outcome

variable {outcome : Outcome σ α}

theorem means_done (notice : Option Notice) (outcome : Outcome σ α) :
    (Plan.done (ν := ν) (ε := ε) notice outcome).Means rules input outcome := by
  refine ⟨0, ?_⟩
  intro more _ q hq
  cases hq
  rfl

theorem means_consume {s rest : Stream σ} {next : Stream σ → Plan σ ν ε α}
    (hnext : input.next s = .ok rest) (h : (next rest).Means rules input outcome) :
    (Plan.consume s next).Means rules input outcome := by
  obtain ⟨depth, hread⟩ := h
  refine ⟨depth, ?_⟩
  intro more hmore q hq
  cases hq
  rw [read, hnext]
  exact hread more hmore _ (.same _)

theorem means_emit {event : ε} {next : Plan σ ν ε α} (h : next.Means rules input outcome) :
    (Plan.emit event next).Means rules input outcome := by
  obtain ⟨depth, hread⟩ := h
  refine ⟨depth, ?_⟩
  intro more hmore q hq
  cases hq
  rw [read]
  exact hread more hmore _ (.same _)

theorem means_call {hook : Hook} {next : Plan σ ν ε α} (h : next.Means rules input outcome) :
    (Plan.call hook next).Means rules input outcome := by
  obtain ⟨depth, hread⟩ := h
  refine ⟨depth, ?_⟩
  intro more hmore q hq
  cases hq
  rw [read]
  exact hread more hmore _ (.same _)

/-- A plan of a grammar, for any number of rounds, tells what the grammar means. -/
theorem means_read {rounds : Nat} {g : Grammar σ ν ε α} {s : Stream σ}
    (h : (g.plan rules rounds s).Means rules input outcome) :
    ∃ depth, ∀ more, depth ≤ more → g.read rules input more s = .ok outcome := by
  obtain ⟨depth, hread⟩ := h
  refine ⟨max depth rounds + 1, ?_⟩
  intro more hmore
  obtain ⟨less, rfl⟩ : ∃ less, more = less + 1 := ⟨more - 1, by omega⟩
  exact hread less (by omega) _ (Grammar.plan_extends rules (by omega) g s)

theorem means_invoke {γ : Type} {rounds : Nat} {g : Grammar σ ν ε γ} {s : Stream σ}
    {next : Outcome σ γ → Plan σ ν ε α} {reply : Outcome σ γ}
    (hg : (g.plan rules rounds s).Means rules input reply)
    (h : (next reply).Means rules input outcome) :
    (Plan.invoke g s next).Means rules input outcome := by
  obtain ⟨depth, hinner⟩ := means_read hg
  obtain ⟨further, hread⟩ := h
  refine ⟨max depth further, ?_⟩
  intro more hmore q hq
  have hreply := hinner more (by omega)
  cases hq with
  | same =>
    rw [read, hreply]
    exact hread more (by omega) _ (.same _)
  | invoke hbeyond =>
    rw [read, hreply]
    exact hread more (by omega) _ (hbeyond reply)

theorem means_follow {rounds : Nat} {g : Grammar σ ν ε α} {s : Stream σ}
    (h : (g.plan rules rounds s).Means rules input outcome) :
    (Plan.follow g s).Means rules input outcome := by
  obtain ⟨depth, hread⟩ := means_read h
  refine ⟨depth, ?_⟩
  intro more hmore q hq
  cases hq
  exact hread more hmore

end Plan

/-! ## Runs on the nodes of an input -/

section Refinement

variable [Source τ σ] {left : τ → List σ → Prop}

/-- Moving along leads to the next node, if it leads anywhere, and leaves the chain as
it ought to be. -/
theorem consume_reaches (serves : Serves left) {session : Session τ σ ε} {last : Stream σ}
    (reaches : session.chain.Reaches left input last) (s : Stream σ) :
    (∃ rest middle now, Run.consume s session = .ok rest middle ∧
      input.place (s.node + 1) = .ok rest ∧
      middle.chain.Reaches left input now) ∨
    ∃ halt middle, Run.consume s session = .error halt middle ∧
    middle.chain.Reaches left input last := by
  rcases Chain.consume_cases serves reaches s with ⟨t, hconsume, hplace, -⟩ |
    ⟨t, found, hconsume, hplace, -, -, hfound, -⟩ | ⟨fault, broken, hconsume, hbroken⟩
  · exact Or.inl ⟨t, _, last, Run.consume_ok hconsume, hplace, reaches⟩
  · exact Or.inl ⟨t, _, t, Run.consume_ok hconsume, hplace, hfound⟩
  · exact Or.inr ⟨_, _, Run.consume_error hconsume, hbroken⟩

omit [Source τ σ] in
theorem noted_reaches {session : Session τ σ ε} {last : Stream σ}
    (reaches : session.chain.Reaches left input last) (notice : Option Notice) :
    (session.noted notice).chain.Reaches left input last := by
  cases notice with
  | none => exact reaches
  | some notice => exact Chain.note_reaches reaches notice

/-- A run on the nodes of an input answers what its plan means there. -/
theorem Completes.reads (serves : Serves left) {fuel : Nat} {p : Plan σ ν ε α}
    {session final : Session τ σ ε} {outcome : Outcome σ α} {traces : List (Trace σ)}
    (completes : Completes rules fuel p session outcome final traces) :
    ∀ (answer : Stream σ → Message → Plan σ ν ε α) (last : Stream σ),
      p.Lawful (fun h => h.Throughout rules Grammar.Scriptless)
        (fun h => h.Throughout rules Grammar.Scriptless)
        input.Has answer →
      session.chain.Reaches left input last →
      input.Has outcome.rest ∧ (∃ now, final.chain.Reaches left input now) ∧
      p.Means rules input outcome := by
  -- The chain invariant goes along with the trace; the last node moves on as successors are found.
  induction completes with
  | done =>
    rename_i notice outcome session
    intro answer last lawful reaches
    exact ⟨lawful, ⟨last, noted_reaches reaches notice⟩, Plan.means_done notice outcome⟩
  | consume hconsume _ ih =>
    rename_i s rest next outcome session middle final traces _
    intro answer last lawful reaches
    rcases consume_reaches serves reaches s with
      ⟨t, found, now, hfound, hplace, hreaches⟩ | ⟨halt, broken, hbroken, -⟩
    · rw [hfound] at hconsume
      cases hconsume
      have hnext : input.next s = .ok rest := (Input.place_succ lawful.1).symm.trans hplace
      obtain ⟨hrest, hfinal, hmeans⟩ := ih answer now (lawful.2 rest (lawful.1.next hnext)) hreaches
      exact ⟨hrest, hfinal, Plan.means_consume hnext hmeans⟩
    · rw [hbroken] at hconsume
      cases hconsume
  | emit _ ih =>
    intro answer last lawful reaches
    obtain ⟨hrest, hfinal, hmeans⟩ := ih answer last lawful reaches
    exact ⟨hrest, hfinal, Plan.means_emit hmeans⟩
  | call _ ih =>
    intro answer last lawful reaches
    obtain ⟨hrest, hfinal, hmeans⟩ := ih answer last lawful reaches
    exact ⟨hrest, hfinal, Plan.means_call hmeans⟩
  | invoke _ _ hinside hnext =>
    rename_i fuel _ _ g s next reply outcome session middle final inside traces _ _
    intro answer last lawful reaches
    obtain ⟨throughout, hs, -, hkeeps⟩ := lawful
    have hplan := throughout.plan_lawful fuel hs (Or.inl throughout.self)
    obtain ⟨hreply, ⟨now, hnow⟩, hinner⟩ := hinside _ last hplan reaches
    obtain ⟨hrest, hfinal, hmeans⟩ := hnext answer now (hkeeps reply hreply) hnow
    exact ⟨hrest, hfinal, Plan.means_invoke hinner hmeans⟩
  | follow _ hinside =>
    rename_i fuel _ g s outcome session final inside _
    intro answer last lawful reaches
    obtain ⟨throughout, hs⟩ := lawful
    have hplan := throughout.plan_lawful fuel hs (Or.inl throughout.self)
    obtain ⟨hrest, hfinal, hmeans⟩ := hinside _ last hplan reaches
    exact ⟨hrest, hfinal, Plan.means_follow hmeans⟩

/-- A parse that ends at a node of the input answers what the grammar means there. -/
theorem parse_reads (serves : Serves left) {fuel : Nat} {g : Grammar σ ν ε α} {s last : Stream σ}
    {session final : Session τ σ ε} {outcome : Outcome σ α}
    (scriptless : g.Throughout rules Grammar.Scriptless) (hs : input.Has s)
    (reaches : session.chain.Reaches left input last)
    (ended : g.parse rules fuel s session = .ok outcome final) :
    input.Has outcome.rest ∧ ∃ depth, g.read rules input depth s = .ok outcome := by
  cases fuel with
  | zero => cases ended
  | succ fuel =>
    obtain ⟨inside, completes⟩ := Grammar.parse_eq_ok_iff.mp ended
    have hplan := scriptless.plan_lawful fuel hs (Or.inl scriptless.self)
    obtain ⟨hrest, -, hmeans⟩ := completes.reads serves _ last hplan reaches
    obtain ⟨depth, hread⟩ := Plan.means_read hmeans
    exact ⟨hrest, depth, hread depth (Nat.le_refl depth)⟩

/-- A run leaves the chain as it ought to be, also where it halts. -/
theorem closed_reaches (serves : Serves left) : Run.Closed (Run.Keeps fun session : Session τ σ ε =>
    ∃ last, session.chain.Reaches left input last) := by
  apply Run.closed_keeps
  · intro s session
    rintro ⟨last, reaches⟩
    rcases consume_reaches serves reaches s with
      ⟨rest, middle, now, hconsume, -, hnow⟩ | ⟨halt, middle, hconsume, hnow⟩
    · rw [hconsume]
      exact ⟨now, hnow⟩
    · rw [hconsume]
      exact ⟨last, hnow⟩
  · intro event session h
    exact h
  · intro notice session
    rintro ⟨last, reaches⟩
    exact ⟨last, Chain.note_reaches reaches notice⟩

end Refinement

/-! ## Histories -/

/-- What may be done at a stream. -/
inductive Action (σ ε : Type) : Type 1 where
  | consume
  | parse {ν : Type → Type} {α : Type} (rules : Rules σ ν ε) (g : Grammar σ ν ε α) (fuel : Nat)

namespace Action

/-- Each action leads to a stream, unless it halts. -/
def run [Source τ σ] (s : Stream σ) : Action σ ε → Run τ σ ε (Stream σ)
  | .consume => Run.consume s
  | .parse rules g fuel => do return (← g.parse rules fuel s).rest

/-- Nothing in the grammar of the action is written by hand. -/
def Scriptless : Action σ ε → Prop
  | .consume => True
  | .parse rules g _ => g.Throughout rules Grammar.Scriptless

variable [Source τ σ]

/-- An action does nothing but what consuming and parsing do. -/
theorem run_closed {R : {γ : Type} → Run τ σ ε γ → Prop} (closed : Run.Closed R) (s : Stream σ)
    (action : Action σ ε) :
    R (action.run s) := by
  cases action with
  | consume => exact closed.consume s
  | parse rules g fuel =>
    exact closed.bind _ _ (Grammar.parse_closed closed fuel g s) fun outcome =>
      closed.done outcome.rest

/-- An action at a node of the input leads to a node of the input. -/
theorem run_has {left : τ → List σ → Prop} (serves : Serves left) {s last rest : Stream σ}
    {session final : Session τ σ ε} {action : Action σ ε} (scriptless : action.Scriptless)
    (hs : input.Has s) (reaches : session.chain.Reaches left input last)
    (ended : action.run s session = .ok rest final) :
    input.Has rest := by
  cases action with
  | consume =>
    rcases consume_reaches serves reaches s with
      ⟨t, middle, now, hrun, hplace, -⟩ | ⟨halt, middle, hrun, -⟩
    · rw [run, hrun] at ended
      cases ended
      exact (Input.place_spec hplace).2.2
    · rw [run, hrun] at ended
      cases ended
  | parse rules g fuel =>
    obtain ⟨outcome, middle, hparse, hrest⟩ := bind_eq_ok.mp ended
    cases hrest
    exact (parse_reads serves scriptless hs reaches hparse).1

end Action

/-- A session and the streams that it has led to so far. -/
structure Visit (τ σ ε : Type) where
  session : Session τ σ ε
  held : List (Stream σ)

namespace Visit

variable [Source τ σ]

def ofWindow (window : Window τ σ) (start : Position) : Visit τ σ ε :=
  match Session.ofWindow window start with
  | (stream, session) => ⟨session, [stream]⟩

/-- Does something at one of the streams. -/
def act (v : Visit τ σ ε) (i : Nat) (action : Action σ ε) : Visit τ σ ε :=
  match v.held[i]? with
  | none => v
  | some s =>
    match action.run s v.session with
    | .ok rest session => ⟨session, v.held ++ [rest]⟩
    | .error _ session => ⟨session, v.held⟩

def actAll (v : Visit τ σ ε) (history : List (Nat × Action σ ε)) : Visit τ σ ε :=
  history.foldl (fun v step => v.act step.1 step.2) v

/-- All the streams are nodes of the input, and the chain is as it ought to be. -/
structure Sound (left : τ → List σ → Prop) (input : Input σ) (v : Visit τ σ ε) : Prop where
  reaches : ∃ last, v.session.chain.Reaches left input last
  has_held : ∀ s ∈ v.held, input.Has s

variable {left : τ → List σ → Prop} {v : Visit τ σ ε}

theorem sound_ofWindow (serves : Serves left) {window : Window τ σ}
    (h : window.Holds left input.symbols) :
    (ofWindow window input.start : Visit τ σ ε).Sound left input := by
  obtain ⟨hfirst, hreaches, -⟩ := Chain.reaches_ofWindow serves h
  refine ⟨⟨_, hreaches⟩, ?_⟩
  intro s hs
  rw [List.mem_singleton.mp hs]
  change input.Has (Chain.ofWindow window input.start).1
  rw [hfirst]
  exact input.has_first

theorem act_sound (serves : Serves left) (h : v.Sound left input) (i : Nat) {action : Action σ ε}
    (scriptless : action.Scriptless) : (v.act i action).Sound left input := by
  rw [act]
  cases hat : v.held[i]? with
  | none => exact h
  | some s =>
    obtain ⟨last, reaches⟩ := h.reaches
    have hs : input.Has s := h.has_held s (List.mem_of_getElem? hat)
    have hkept : ∃ now, (Run.after (action.run s v.session)).chain.Reaches left input now :=
      action.run_closed (closed_reaches serves) s v.session h.reaches
    dsimp only
    cases hrun : action.run s v.session with
    | ok rest final =>
      rw [hrun] at hkept
      refine ⟨hkept, ?_⟩
      intro t ht
      rcases List.mem_append.mp ht with ht | ht
      · exact h.has_held t ht
      · rw [List.mem_singleton.mp ht]
        exact Action.run_has serves scriptless hs reaches hrun
    | error halt final =>
      rw [hrun] at hkept
      exact ⟨hkept, h.has_held⟩

theorem actAll_sound (serves : Serves left) (h : v.Sound left input)
    (history : List (Nat × Action σ ε)) (scriptless : ∀ step ∈ history, step.2.Scriptless) :
    (v.actAll history).Sound left input := by
  induction history generalizing v with
  | nil => exact h
  | cons step rest ih =>
    have hstep := act_sound serves h step.1 (scriptless step List.mem_cons_self)
    exact ih hstep fun later hlater => scriptless later (List.mem_cons_of_mem step hlater)

/-- So it is from the opening of an honest source on. -/
theorem sound_history {source : τ} {capacity : Nat} {window : Window τ σ}
    (honest : Honest source input.symbols)
    (opened : Window.withCapacity source capacity = .ok window) (history : List (Nat × Action σ ε))
    (scriptless : ∀ step ∈ history, step.2.Scriptless) :
    ((ofWindow window input.start).actAll history).Sound Honest input :=
  actAll_sound serves_honest
    (sound_ofWindow serves_honest (Window.holds_withCapacity opened honest)) history scriptless

end Visit

/-- Whatever was done before at the streams of an input, a parse at one of them that comes to an end
answers what the grammar means at the place of that stream in the list, and that is one answer. -/
theorem parse_eq_read [Source τ σ] {source : τ} {capacity : Nat} {window : Window τ σ}
    (input : Input σ) (honest : Honest source input.symbols)
    (opened : Window.withCapacity source capacity = .ok window) (history : List (Nat × Action σ ε))
    (scriptless : ∀ step ∈ history, step.2.Scriptless) {s : Stream σ}
    (held : s ∈ ((Visit.ofWindow window input.start).actAll history).held) :
    ∃ i ≤ input.symbols.length, s.node = i ∧ input.place i = .ok s ∧
      ∀ {ν : Type → Type} {α : Type} (rules : Rules σ ν ε) (g : Grammar σ ν ε α),
        g.Throughout rules Grammar.Scriptless →
        ∀ (fuel : Nat) (outcome : Outcome σ α) (final : Session τ σ ε),
          g.parse rules fuel s ((Visit.ofWindow window input.start).actAll history).session =
            .ok outcome final →
          (∃ depth, g.readAt rules input depth i = .ok outcome) ∧
            ∀ (depth : Nat) (other : Outcome σ α), g.readAt rules input depth i = .ok other →
            other = outcome := by
  have hholds : window.Holds Honest input.symbols := Window.holds_withCapacity opened honest
  have hsound :=
    Visit.actAll_sound serves_honest (Visit.sound_ofWindow serves_honest hholds) history scriptless
  obtain ⟨last, reaches⟩ := hsound.reaches
  have hs : input.Has s := hsound.has_held s held
  refine ⟨s.node, hs.node_le, rfl, hs, ?_⟩
  intro ν α rules g throughout fuel outcome final ended
  obtain ⟨-, depth, hread⟩ := parse_reads serves_honest throughout hs reaches ended
  have hat : g.readAt rules input depth s.node = .ok outcome := by
    rw [Grammar.readAt, show input.place s.node = .ok s from hs]
    exact hread
  exact ⟨⟨depth, hat⟩, fun more other hother => Grammar.readAt_unique hat hother⟩

/-- The second symbol of three that come in two pieces, after a parse of all three and a step from
the first: the parse finds it, and so does the evaluation in the list. -/
theorem parse_eq_read_pieces :
    let input : Input Char := ⟨['a', '\n', 'b'], .start⟩
    let window : Window (Pieces Char) Char := ⟨⟨[['a'], ['\n', 'b']]⟩, #[], 0, 1, false, #[]⟩
    let g : Grammar Char (fun _ => Empty) Unit Char := .any
    let history : List (Nat × Action Char Unit) := [(0, .parse Rules.none g.many 5), (0, .consume)]
    let s : Stream Char := ⟨1, some '\n', ⟨1, 2, 1⟩⟩
    let reply : Outcome Char Char := .success '\n' ⟨2, some 'b', ⟨2, 1, 2⟩⟩
    s ∈ ((Visit.ofWindow window .start).actAll history).held ∧
      (∃ final, g.parse Rules.none 1 s ((Visit.ofWindow window .start).actAll history).session =
        .ok reply final) ∧
      ∃ depth, g.readAt Rules.none input depth 1 = .ok reply := by
  intro input window g history s reply
  have hany : g.Throughout Rules.none Grammar.Scriptless := .intro trivial trivial trivial
  have scriptless : ∀ step ∈ history, step.2.Scriptless := by
    intro step hstep
    rcases List.mem_cons.mp hstep with rfl | hstep
    · exact Grammar.Throughout.intro trivial hany trivial
    · rw [List.mem_singleton.mp hstep]
      trivial
  have opened : Window.withCapacity (Pieces.mk [['a'], ['\n', 'b']]) 0 = .ok window := rfl
  have honest : Honest (Pieces.mk [['a'], ['\n', 'b']]) input.symbols := honest_pieces (by decide)
  have held : s ∈ ((Visit.ofWindow window .start).actAll history).held := by decide +kernel
  obtain ⟨final, ended⟩ : ∃ final, g.parse Rules.none 1 s
      ((Visit.ofWindow window .start).actAll history).session = .ok reply final :=
    Run.value?_eq_some (by decide +kernel)
  obtain ⟨i, -, rfl, -, h⟩ := parse_eq_read input honest opened history scriptless held
  exact ⟨held, ⟨final, ended⟩, (h Rules.none g hany 1 _ final ended).1⟩

end Rewind
