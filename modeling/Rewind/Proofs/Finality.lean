import Rewind.Proofs.Invocation

/-!
# Errors are final

An error that nothing recovers from is the last thing that happens in a run. A run is looked at as
the tree of its invocations (`Grammar.Traced`). One law holds at each invocation: an error of what
it tries is the last thing that happens in it, and its own reply follows by its role
(`Trace.Orderly`). The law is carried from an error up to the outermost invocation along the roles
that enclose it (`Occurs.final`).
-/
namespace Rewind

variable {τ σ ε α : Type} {ν : Type → Type}

/-! ## Trees of invocations -/

/-- The first trace occurs in the second: the roles of the invocations around it, the innermost
first, and what happens in them after it. -/
inductive Occurs (inner : Trace σ) : List Role → List (Trace σ) → Trace σ → Prop
  | self : Occurs inner [] [] inner
  | inside {t : Trace σ} {enclosing : List Role} {later before after : List (Trace σ)} {role : Role}
    {reply : Outcome σ Unit} : Occurs inner enclosing later t →
    Occurs inner (enclosing ++ [role]) (later ++ after)
      (.invocation role (before ++ t :: after) reply)

/-- How an invocation replies when something in it replies with an error. -/
def Role.Answers (role : Role) (rest : Stream σ) (message : Message) (reply : Outcome σ Unit) :
    Prop :=
  match role with
  | .plain => reply = .error rest message
  | .attempt => if message.escalated then reply = .error rest message else ∃ s, reply = .failure s
  | .boundary => reply = .error rest message.softened

namespace Trace

/-- What follows an error of an invocation, where it is the last thing that happens. -/
def Settles (role : Role) (inside : List (Trace σ)) (reply : Outcome σ Unit) : Prop :=
  ∀ before after role' inside' rest message,
    inside = before ++ .invocation role' inside' (.error rest message) :: after →
    after = [] ∧ role.Answers rest message reply

inductive Orderly : Trace σ → Prop
  | call (hook : Hook) : Orderly (.call hook)
  | invocation {role : Role} {inside : List (Trace σ)} {reply : Outcome σ Unit} :
    (∀ t ∈ inside, Orderly t) → Settles role inside reply → Orderly (.invocation role inside reply)

/-- The roles of all invocations have the property. -/
inductive EachRole (P : Role → Prop) : Trace σ → Prop
  | call (hook : Hook) : EachRole P (.call hook)
  | invocation {role : Role} {inside : List (Trace σ)} {reply : Outcome σ Unit} :
    P role → (∀ t ∈ inside, EachRole P t) → EachRole P (.invocation role inside reply)

mutual

/-- The replies of all invocations in the order in which they come. -/
def replies : Trace σ → List (Outcome σ Unit)
  | .call _ => []
  | .invocation _ inside reply => repliesOf inside ++ [reply]

def repliesOf : List (Trace σ) → List (Outcome σ Unit)
  | [] => []
  | t :: rest => t.replies ++ repliesOf rest

end

mutual

/-- Every reply is that of an invocation that occurs. -/
theorem occurs_of_mem_replies {reply : Outcome σ Unit} : (t : Trace σ) → reply ∈ t.replies →
    ∃ role inside enclosing later, Occurs (.invocation role inside reply) enclosing later t
  | .call hook, h => by
    rw [replies] at h
    cases h
  | .invocation role inside own, h => by
    rw [replies] at h
    rcases List.mem_append.mp h with hinside | hown
    · obtain ⟨before, t, after, hsplit, role', inside', enclosing, later, hoccurs⟩ :=
        occurs_of_mem_repliesOf inside hinside
      rw [hsplit]
      exact ⟨role', inside', _, _, .inside hoccurs⟩
    · rw [List.mem_singleton.mp hown]
      exact ⟨role, inside, [], [], .self⟩

theorem occurs_of_mem_repliesOf {reply : Outcome σ Unit} :
    (traces : List (Trace σ)) → reply ∈ repliesOf traces →
    ∃ before t after, traces = before ++ t :: after ∧
      ∃ role inside enclosing later, Occurs (.invocation role inside reply) enclosing later t
  | [], h => by
    rw [repliesOf] at h
    cases h
  | t :: rest, h => by
    rw [repliesOf] at h
    rcases List.mem_append.mp h with hfirst | hrest
    · exact ⟨[], t, rest, rfl, occurs_of_mem_replies t hfirst⟩
    · obtain ⟨before, u, after, hsplit, hoccurs⟩ := occurs_of_mem_repliesOf rest hrest
      exact ⟨t :: before, u, after, by rw [hsplit, List.cons_append], hoccurs⟩

end

end Trace

/-! ## From an error to the outermost invocation -/

/-- No attempt around an error recovers from it: there is none, or the error is an escalation that
no boundary settles before an attempt meets it. -/
def Unrecoverable (enclosing : List Role) (message : Message) : Prop :=
  .attempt ∉ enclosing ∨
    message.escalated = true ∧ ∀ between beyond, enclosing = between ++ .attempt :: beyond →
    .boundary ∉ between

/-- The error as it leaves the invocations around it. -/
def Message.leaving (message : Message) (enclosing : List Role) : Message :=
  { message with escalated := message.escalated && !enclosing.contains .boundary }

theorem Unrecoverable.inner {enclosing : List Role} {role : Role} {message : Message}
    (h : Unrecoverable (enclosing ++ [role]) message) : Unrecoverable enclosing message := by
  rcases h with hnone | ⟨hescalated, hbetween⟩
  · exact Or.inl fun hmem => hnone (List.mem_append_left _ hmem)
  · refine Or.inr ⟨hescalated, ?_⟩
    intro between beyond hsplit
    refine hbetween between (beyond ++ [role]) ?_
    rw [hsplit, List.append_assoc, List.cons_append]

/-- An attempt that is the outermost of the invocations around the error meets an escalation. -/
theorem Unrecoverable.escalated {enclosing : List Role} {message : Message}
    (h : Unrecoverable (enclosing ++ [.attempt]) message) :
    (message.leaving enclosing).escalated = true := by
  rcases h with hnone | ⟨hescalated, hbetween⟩
  · exact absurd (List.mem_append_right enclosing List.mem_cons_self) hnone
  · have hclear := hbetween enclosing [] rfl
    simp [Message.leaving, hescalated, hclear]

/-- An error that nothing recovers from is the last thing that happens, and it is the reply
of the whole. -/
theorem Occurs.final {outer : Trace σ} {enclosing : List Role} {later inside : List (Trace σ)}
    {role : Role} {rest : Stream σ} {message : Message}
    (occurs : Occurs (.invocation role inside (.error rest message)) enclosing later outer)
    (orderly : outer.Orderly) (unrecoverable : Unrecoverable enclosing message) :
    later = [] ∧
    ∃ role' inside',
      outer = .invocation role' inside' (.error rest (message.leaving enclosing)) := by
  induction occurs with
  | self =>
    refine ⟨rfl, role, inside, ?_⟩
    simp [Message.leaving]
  | inside occurs ih =>
    rename_i t enclosing later before after outerRole reply
    cases orderly with
    | invocation each settles =>
      obtain ⟨hlater, role', inside', ht⟩ := ih (each t (by simp)) unrecoverable.inner
      subst hlater
      rw [ht] at settles
      obtain ⟨hafter, hreply⟩ := settles before after role' inside' rest _ rfl
      refine ⟨by rw [hafter, List.append_nil], outerRole, before ++ t :: after, ?_⟩
      suffices hsuffices : reply = .error rest (message.leaving (enclosing ++ [outerRole])) by
        rw [hsuffices]
      cases outerRole with
      | plain =>
        rw [show reply = _ from hreply]
        simp [Message.leaving]
      | attempt =>
        -- No boundary has settled the error on its way here, so that the attempt passes it on.
        have hescalated := unrecoverable.escalated
        rw [Role.Answers, if_pos hescalated] at hreply
        rw [hreply]
        simp [Message.leaving]
      | boundary =>
        rw [show reply = _ from hreply]
        simp [Message.leaving, Message.softened]

/-! ## The law of a run -/

variable [Source τ σ] [Symbol σ] {rules : Rules σ ν ε} {fuel : Nat} {session final : Session τ σ ε}
  {outcome : Outcome σ α} {traces : List (Trace σ)}

theorem Message.softened_eq {message : Message} (h : ¬ message.escalated = true) :
    message.softened = message := by
  rw [Message.softened, ← Bool.eq_false_of_not_eq_true h]

omit [Source τ σ] [Symbol σ] in
theorem Outcome.erase_error {rest : Stream σ} {message : Message}
    (h : outcome.erase = .error rest message) :
    outcome = .error rest message := by
  cases outcome with
  | success value rest => cases h
  | failure rest => cases h
  | error rest message =>
    cases h
    rfl

/-- After an error nothing is done but to answer it. -/
theorem Completes.answers {role : Role} {s rest : Stream σ} {message : Message}
    (completes : Completes rules fuel (Plan.onError role s rest message) session outcome
      final traces) :
    traces = [] ∧ role.Answers rest message outcome.erase := by
  cases role with
  | plain =>
    cases completes
    exact ⟨rfl, rfl⟩
  | attempt =>
    cases completes
    refine ⟨rfl, ?_⟩
    rw [Role.Answers]
    by_cases hescalated : message.escalated = true
    · rw [if_pos hescalated, if_pos hescalated]
      rfl
    · rw [if_neg hescalated, if_neg hescalated]
      exact ⟨s, rfl⟩
  | boundary =>
    rw [Plan.onError, Plan.soften] at completes
    by_cases hescalated : message.escalated = true
    · rw [if_pos hescalated] at completes
      cases completes
      exact ⟨rfl, rfl⟩
    · rw [if_neg hescalated] at completes
      cases completes
      refine ⟨rfl, ?_⟩
      rw [Role.Answers, Message.softened_eq hescalated]
      rfl

omit [Source τ σ] [Symbol σ] in
/-- Only names become other grammars, and names pass errors on. -/
theorem Grammar.role_of_definition (rules : Rules σ ν ε) (g : Grammar σ ν ε α) :
    g.EachDefinition rules fun _ => g.role = .plain := by
  cases g with
  | rule name => exact fun _ _ => rfl
  | lazy name => rfl
  | _ => trivial

omit [Source τ σ] in
theorem Grammar.plan_answers (rules : Rules σ ν ε) (rounds : Nat) (g : Grammar σ ν ε α)
    (s : Stream σ) :
    (g.plan rules rounds s).Lawful (fun _ => True) (fun _ => g.role = .plain) (fun _ => True)
      (Plan.onError g.role s) :=
  plan_lawful rules rounds trivial (Or.inr fun _ => trivial)
    (eachPart_of_forall (fun _ => trivial) g) (role_of_definition rules g)

/-- What happens in a run is orderly, and an error of an invocation settles it. -/
theorem Completes.orderly {p : Plan σ ν ε α}
    (completes : Completes rules fuel p session outcome final traces) :
    ∀ (role : Role) (s : Stream σ),
      p.Lawful (fun _ => True) (fun _ => role = .plain) (fun _ => True) (Plan.onError role s) →
      (∀ t ∈ traces, t.Orderly) ∧ Trace.Settles role traces outcome.erase := by
  induction completes with
  | done =>
    intro role s lawful
    constructor
    · intro t ht
      cases ht
    · intro before after role' inside' rest message hsplit
      simp at hsplit
  | consume _ _ ih =>
    intro role s lawful
    exact ih role s (lawful.2 _ trivial)
  | emit _ ih =>
    intro role s lawful
    exact ih role s lawful
  | call _ ih =>
    intro role s lawful
    obtain ⟨horderly, hsettles⟩ := ih role s lawful
    constructor
    · intro t ht
      rcases List.mem_cons.mp ht with rfl | ht
      · exact .call _
      · exact horderly t ht
    · intro before after role' inside' rest message hsplit
      cases before with
      | nil => cases hsplit
      | cons first before =>
        cases hsplit
        exact hsettles before after role' inside' rest message rfl
  | invoke _ hnext hinside ih =>
    rename_i fuel _ _ g t next reply outcome session middle final inside traces _
    intro role s lawful
    obtain ⟨-, -, hanswer, hkeeps⟩ := lawful
    obtain ⟨hlater, hsettles⟩ := ih role s (hkeeps reply trivial)
    obtain ⟨hwithin, hown⟩ := hinside g.role t (Grammar.plan_answers rules fuel g t)
    constructor
    · intro u hu
      rcases List.mem_cons.mp hu with rfl | hu
      · exact .invocation hwithin hown
      · exact hlater u hu
    · intro before after role' inside' rest message hsplit
      cases before with
      | nil =>
        -- The error is the reply of this part, and what follows it is the answer to an error.
        injection hsplit with hfirst hafter
        injection hfirst with _ _ hreply
        have herror := Outcome.erase_error hreply
        rw [herror, hanswer] at hnext
        rw [← hafter]
        exact hnext.answers
      | cons first before =>
        injection hsplit with _ hrest
        exact hsettles before after role' inside' rest message hrest
  | follow _ hinside =>
    rename_i fuel _ g t outcome session final inside _
    intro role s lawful
    obtain ⟨hwithin, hown⟩ := hinside g.role t (Grammar.plan_answers rules fuel g t)
    constructor
    · intro u hu
      rw [List.mem_singleton.mp hu]
      exact .invocation hwithin hown
    · intro before after role' inside' rest message hsplit
      have hplain : role = .plain := lawful.1
      cases before with
      | nil =>
        injection hsplit with hfirst hafter
        injection hfirst with _ _ hreply
        rw [hplain, ← hafter]
        exact ⟨rfl, hreply⟩
      | cons first before =>
        injection hsplit with _ hrest
        simp at hrest

/-! ## Grammars without attempts -/

def Grammar.Attemptless (g : Grammar σ ν ε α) : Prop := g.role ≠ .attempt

theorem Completes.attemptless {p : Plan σ ν ε α}
    (completes : Completes rules fuel p session outcome final traces) :
    ∀ answer : Stream σ → Message → Plan σ ν ε α,
      p.Lawful (fun h => h.Throughout rules Grammar.Attemptless)
        (fun h => h.Throughout rules Grammar.Attemptless) (fun _ => True) answer →
      ∀ t ∈ traces, t.EachRole (· ≠ .attempt) := by
  induction completes with
  | done =>
    intro answer lawful t ht
    cases ht
  | consume _ _ ih =>
    intro answer lawful
    exact ih answer (lawful.2 _ trivial)
  | emit _ ih =>
    intro answer lawful
    exact ih answer lawful
  | call _ ih =>
    intro answer lawful t ht
    rcases List.mem_cons.mp ht with rfl | ht
    · exact .call _
    · exact ih answer lawful t ht
  | invoke _ _ hinside ih =>
    rename_i fuel _ _ g u next reply outcome session middle final inside traces _ _
    intro answer lawful t ht
    obtain ⟨hpart, -, -, hkeeps⟩ := lawful
    rcases List.mem_cons.mp ht with rfl | ht
    · have hplan :=
        hpart.plan_lawful (V := fun _ => True) fuel (s := u) trivial (Or.inr fun _ => trivial)
      exact .invocation hpart.self (hinside _ hplan)
    · exact ih answer (hkeeps reply trivial) t ht
  | follow _ hinside =>
    rename_i fuel _ g u outcome session final inside _
    intro answer lawful t ht
    have hpart := lawful.1
    have hplan :=
      hpart.plan_lawful (V := fun _ => True) fuel (s := u) trivial (Or.inr fun _ => trivial)
    rw [List.mem_singleton.mp ht]
    exact .invocation hpart.self (hinside _ hplan)

omit [Source τ σ] [Symbol σ] in
theorem Occurs.each_enclosing {P : Role → Prop} {inner outer : Trace σ} {enclosing : List Role}
    {later : List (Trace σ)} (occurs : Occurs inner enclosing later outer)
    (each : outer.EachRole P) :
    ∀ role ∈ enclosing, P role := by
  induction occurs with
  | self =>
    intro role hrole
    cases hrole
  | inside occurs ih =>
    rename_i t enclosing later before after outerRole reply
    cases each with
    | invocation hrole hinside =>
      intro role hmem
      rcases List.mem_append.mp hmem with hmem | hmem
      · exact ih (hinside t (by simp)) role hmem
      · rw [List.mem_singleton.mp hmem]
        exact hrole

/-! ## Whole runs -/

/-- An escalation that has been settled is an ordinary error. -/
def Outcome.settled : Outcome σ α → Outcome σ α
  | .error rest message => .error rest message.softened
  | outcome => outcome

omit [Source τ σ] [Symbol σ] in
theorem Outcome.isEscalation_settled (outcome : Outcome σ α) :
    outcome.settled.isEscalation = false := by
  cases outcome <;> rfl

omit [Source τ σ] [Symbol σ] in
theorem Plan.soften_eq (outcome : Outcome σ α) :
    ∃ notice, Plan.soften (ν := ν) (ε := ε) outcome = .done notice outcome.settled := by
  cases outcome with
  | success value rest => exact ⟨none, rfl⟩
  | failure rest => exact ⟨none, rfl⟩
  | error rest message =>
    rw [Plan.soften]
    by_cases hescalated : message.escalated = true
    · rw [if_pos hescalated]
      exact ⟨some _, rfl⟩
    · rw [if_neg hescalated, Outcome.settled, Message.softened_eq hescalated]
      exact ⟨none, rfl⟩

theorem soften_ok (outcome : Outcome σ α) (session : Session τ σ ε) :
    ∃ notice, Parser.soften outcome session = .ok outcome.settled (session.noted notice) := by
  obtain ⟨notice, hnotice⟩ := Plan.soften_eq (ν := fun _ => Empty) (ε := ε) outcome
  rw [← Plan.run_soften (ν := fun _ => Empty) (fun _ _ => throw .outOfFuel)
    (fun _ _ => throw .outOfFuel), hnotice]
  cases notice with
  | none => exact ⟨none, rfl⟩
  | some notice => exact ⟨some notice, rfl⟩

namespace Grammar

/-- The run of a grammar is this tree. -/
def Traced (rules : Rules σ ν ε) (fuel : Nat) (g : Grammar σ ν ε α) (s : Stream σ)
    (session : Session τ σ ε) (outcome : Outcome σ α) (final : Session τ σ ε) (tree : Trace σ) :
    Prop :=
  ∃ less inside, fuel = less + 1 ∧
  Completes rules less (g.plan rules less s) session outcome final inside ∧
    tree = .invocation g.role inside outcome.erase

variable {g : Grammar σ ν ε α} {s : Stream σ} {tree : Trace σ}

theorem exists_traced (ended : g.parse rules fuel s session = .ok outcome final) :
    ∃ tree, g.Traced rules fuel s session outcome final tree := by
  cases fuel with
  | zero => cases ended
  | succ fuel =>
    obtain ⟨inside, completes⟩ := parse_eq_ok_iff.mp ended
    exact ⟨_, fuel, inside, rfl, completes, rfl⟩

theorem Traced.orderly (traced : g.Traced rules fuel s session outcome final tree) :
    tree.Orderly := by
  obtain ⟨less, inside, -, completes, rfl⟩ := traced
  obtain ⟨hwithin, hsettles⟩ := completes.orderly g.role s (plan_answers rules less g s)
  exact .invocation hwithin hsettles

theorem Traced.final_error (traced : g.Traced rules fuel s session outcome final tree) {role : Role}
    {inside later : List (Trace σ)} {rest : Stream σ} {message : Message} {enclosing : List Role}
    (occurs : Occurs (.invocation role inside (.error rest message)) enclosing later tree)
    (unrecoverable : Unrecoverable enclosing message) :
    outcome = .error rest (message.leaving enclosing) ∧ later = [] := by
  obtain ⟨hlater, role', inside', htree⟩ := occurs.final traced.orderly unrecoverable
  obtain ⟨less, within, -, -, rfl⟩ := traced
  injection htree with _ _ hreply
  exact ⟨Outcome.erase_error hreply, hlater⟩

/-- Without attempts, the first error of all is the one that the run ends with. -/
theorem Traced.first_error (traced : g.Traced rules fuel s session outcome final tree)
    (attemptless : g.Throughout rules Attemptless) {rest : Stream σ} {message : Message}
    (first : tree.replies.find? Outcome.isError = some (.error rest message)) :
    ∃ escalated, outcome = .error rest ⟨message.text, escalated⟩ := by
  obtain ⟨role, inside, enclosing, later, occurs⟩ :=
    tree.occurs_of_mem_replies (List.mem_of_find?_eq_some first)
  have hroles : tree.EachRole (· ≠ .attempt) := by
    obtain ⟨less, within, -, completes, rfl⟩ := traced
    have hplan :=
      attemptless.plan_lawful (V := fun _ => True) less (s := s) trivial (Or.inr fun _ => trivial)
    exact .invocation attemptless.self (completes.attemptless _ hplan)
  have hnone : Unrecoverable enclosing message := Or.inl fun hmem =>
    occurs.each_enclosing hroles _ hmem rfl
  exact ⟨_, (traced.final_error occurs hnone).1⟩

theorem Traced.exists_first_error {rest : Stream σ} {message : Message}
    (traced : g.Traced rules fuel s session (.error rest message) final tree) :
    ∃ first text, tree.replies.find? Outcome.isError = some (.error first text) := by
  obtain ⟨less, inside, -, -, rfl⟩ := traced
  have hlast : Outcome.error rest message ∈
      (Trace.invocation g.role inside (.error rest message)).replies := by
    simp [Trace.replies]
  cases hfound : (Trace.invocation g.role inside (.error rest message)).replies.find?
    Outcome.isError with
  | none => exact absurd rfl (List.find?_eq_none.mp hfound _ hlast)
  | some reply =>
    have herror := List.find?_some hfound
    cases reply with
    | success value rest => cases herror
    | failure rest => cases herror
    | error first text => exact ⟨first, text, hfound⟩

/-- At the top level escalations are ordinary errors. -/
theorem run_eq_ok {reply : Outcome σ α} (ended : g.run rules fuel s session = .ok reply final) :
    ∃ outcome middle, g.parse rules fuel s session = .ok outcome middle ∧ reply = outcome.settled ∧
      ∃ notice, final = middle.noted notice := by
  obtain ⟨outcome, middle, hparse, hsoften⟩ := bind_eq_ok.mp ended
  obtain ⟨notice, hnotice⟩ := soften_ok outcome middle
  rw [hnotice] at hsoften
  cases hsoften
  exact ⟨outcome, middle, hparse, rfl, notice, rfl⟩

/-- What a whole parse reports of an outcome. -/
def report (s : Stream σ) : Outcome σ α → Except ParseError (α × Stream σ)
  | .success value rest => .ok (value, rest)
  | .failure _ => .error (.noMatch s.position)
  | .error rest message => .error (.rejected message.text rest.position)

theorem runResult_eq_ok {result : Except ParseError (α × Stream σ)}
    (ended : g.runResult rules fuel s session = .ok result final) :
    ∃ outcome middle, g.parse rules fuel s session = .ok outcome middle ∧
    result = report s outcome := by
  obtain ⟨reply, last, hrun, hresult⟩ := bind_eq_ok.mp ended
  obtain ⟨outcome, middle, hparse, rfl, -⟩ := run_eq_ok hrun
  refine ⟨outcome, middle, hparse, ?_⟩
  cases outcome with
  | success value rest =>
    cases hresult
    rfl
  | failure rest =>
    cases hresult
    rfl
  | error rest message =>
    cases hresult
    rfl

end Grammar

/-- An error that nothing recovers from is the reply of the outermost invocation, a settled
escalation apart, and nothing happens after it. So a whole run never ends with an escalation, and
where there is no attempt it reports the first error of all, if there is one, and a failure where
the run started. -/
theorem errors_are_final (rules : Rules σ ν ε) (fuel : Nat) (g : Grammar σ ν ε α) (s : Stream σ)
    (session : Session τ σ ε) :
    (∀ outcome final, g.parse rules fuel s session = .ok outcome final →
      (∃ tree, g.Traced rules fuel s session outcome final tree) ∧
      ∀ tree, g.Traced rules fuel s session outcome final tree →
        ∀ role inside rest message enclosing later,
          Occurs (.invocation role inside (.error rest message)) enclosing later tree →
          Unrecoverable enclosing message →
          outcome = .error rest (message.leaving enclosing) ∧ later = []) ∧
    (∀ reply final, g.run rules fuel s session = .ok reply final → reply.isEscalation = false) ∧
    ∀ result final, g.runResult rules fuel s session = .ok result final →
      ∃ outcome middle, g.parse rules fuel s session = .ok outcome middle ∧
        (∀ position, result = .error (.noMatch position) ↔ outcome.isFailure = true ∧
          position = s.position) ∧
        (g.Throughout rules Grammar.Attemptless →
          ∀ tree, g.Traced rules fuel s session outcome middle tree →
            ∀ text position, result = .error (.rejected text position) ↔
              ∃ rest message, tree.replies.find? Outcome.isError = some (.error rest message) ∧
                text = message.text ∧ position = rest.position) := by
  refine ⟨?_, ?_, ?_⟩
  · intro outcome final ended
    refine ⟨Grammar.exists_traced ended, ?_⟩
    intro tree traced role inside rest message enclosing later occurs unrecoverable
    exact traced.final_error occurs unrecoverable
  · intro reply final ended
    obtain ⟨outcome, -, -, rfl, -⟩ := Grammar.run_eq_ok ended
    exact outcome.isEscalation_settled
  · intro result final ended
    obtain ⟨outcome, middle, hparse, hresult⟩ := Grammar.runResult_eq_ok ended
    refine ⟨outcome, middle, hparse, ?_, ?_⟩
    · intro position
      rw [hresult]
      cases outcome <;> simp [Grammar.report, Outcome.isFailure, eq_comm]
    · intro attemptless tree traced text position
      rw [hresult]
      constructor
      · intro hrejected
        cases outcome with
        | success value rest => cases hrejected
        | failure rest => cases hrejected
        | error rest message =>
          obtain ⟨first, own, hfirst⟩ := traced.exists_first_error
          obtain ⟨escalated, hsame⟩ := traced.first_error attemptless hfirst
          cases hsame
          cases hrejected
          exact ⟨_, _, hfirst, rfl, rfl⟩
      · rintro ⟨rest, message, hfirst, rfl, rfl⟩
        obtain ⟨escalated, hsame⟩ := traced.first_error attemptless hfirst
        rw [hsame, Grammar.report]

/-- The first alternative is cut short, so that the second is never tried. -/
def cutShort : Grammar Char (fun _ => Empty) Unit Char :=
  .orElse (.keepRight .any (.cut "stop")) .any

theorem cutShort_attemptless : cutShort.Throughout Rules.none Grammar.Attemptless := by
  refine .intro nofun ⟨.intro nofun ⟨?_, ?_⟩ trivial, ?_⟩ trivial
  · exact .intro nofun trivial trivial
  · exact .intro nofun trivial trivial
  · exact .intro nofun trivial trivial

/-- The whole run reports the error that cuts it short, which is the first of all and the last thing
that the parse comes to. -/
theorem errors_are_final_cutShort :
    let s : Stream Char := ⟨0, some 'a', .start⟩
    let session : Session (Queue Char) Char Unit :=
      (Session.ofWindow (.ofSource ⟨['a', 'b']⟩) .start).2
    (∃ last, cutShort.runResult Rules.none 1 s session =
      .ok (.error (.rejected "stop" ⟨1, 2, 1⟩)) last) ∧
    ∃ outcome final tree rest message,
      cutShort.parse Rules.none 1 s session = .ok outcome final ∧
      cutShort.Traced Rules.none 1 s session outcome final tree ∧
      tree.replies.find? Outcome.isError = some (.error rest message) ∧
      message.text = "stop" ∧ rest.position = ⟨1, 2, 1⟩ := by
  intro s session
  obtain ⟨hparse, -, hresult⟩ := errors_are_final Rules.none 1 cutShort s session
  obtain ⟨last, ended⟩ : ∃ last, cutShort.runResult Rules.none 1 s session =
      .ok (.error (.rejected "stop" ⟨1, 2, 1⟩)) last :=
    Run.value?_eq_some (by decide +kernel)
  obtain ⟨outcome, final, hended, -, hfirst⟩ := hresult _ last ended
  obtain ⟨⟨tree, traced⟩, -⟩ := hparse outcome final hended
  obtain ⟨rest, message, hfound, htext, hplace⟩ :=
    (hfirst cutShort_attemptless tree traced "stop" ⟨1, 2, 1⟩).mp rfl
  exact ⟨⟨last, ended⟩, outcome, final, tree, rest, message, hended, traced, hfound, htext.symm,
    hplace.symm⟩

end Rewind
