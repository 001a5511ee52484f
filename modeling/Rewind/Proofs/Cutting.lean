import Rewind.Proofs.Echo
import Rewind.Proofs.Finality

/-!
# What cutting changes

A cut is an error that attempts do not recover from. Where there is no attempt, nothing else tells
it from an ordinary error: `Grammar.uncut` makes ordinary errors of all cuts of a grammar, and a
whole run of it replies as before (`run_uncut`). The proof is a simulation. The two runs do the
same things one after another, their chains are echoes, and their outcomes differ in whether
errors are escalated.
-/
namespace Rewind

variable {τ σ ε α β : Type} {ν : Type → Type}

/-- Ordinary errors in place of all escalations that the grammar itself calls for. -/
def Grammar.uncut : {α : Type} → Grammar σ ν ε α → Grammar σ ν ε α
  | _, .cut text => .error text
  | _, .commit text p => .label text p.uncut
  | _, .orElse p q => .orElse p.uncut q.uncut
  | _, .choiceOf count parts => .choiceOf count fun i => (parts i).uncut
  | _, .optional p => .optional p.uncut
  | _, .lookAhead p => .lookAhead p.uncut
  | _, .notAhead p => .notAhead p.uncut
  | _, .filter accepts p => .filter accepts p.uncut
  | _, .map f p => .map f p.uncut
  | _, .ignore p => .ignore p.uncut
  | _, .bind p next => .bind p.uncut fun value => (next value).uncut
  | _, .pair p q => .pair p.uncut q.uncut
  | _, .keepLeft p q => .keepLeft p.uncut q.uncut
  | _, .keepRight p q => .keepRight p.uncut q.uncut
  | _, .between opening p closing => .between opening.uncut p.uncut closing.uncut
  | _, .sequenceOf count parts => .sequenceOf count fun i => (parts i).uncut
  | _, @exactly _ _ _ _ _ p count => .exactly p.uncut count
  | _, .many p => .many p.uncut
  | _, @atLeast _ _ _ _ _ p count => .atLeast p.uncut count
  | _, .separated p separator => .separated p.uncut separator.uncut
  | _, .label text p => .label text p.uncut
  | _, .attempt p => .attempt p.uncut
  | _, .boundary p => .boundary p.uncut
  | _, .spanned p => .spanned p.uncut
  | _, .inspect observe p => .inspect observe p.uncut
  | _, g => g

/-- The same names for the grammars without cuts. -/
def Rules.uncut (rules : Rules σ ν ε) : Rules σ ν ε where
  slot name :=
    match rules.slot name with
    | .undefined => .undefined
    | .defined definition => .defined definition.uncut
    | .dropped => .dropped
  build name := ⟨(rules.build name).events, (rules.build name).grammar.uncut⟩

/-- Two outcomes that differ at most in whether their errors are escalated. -/
inductive Outcome.Alike : Outcome σ α → Outcome σ α → Prop
  | success (value : α) (rest : Stream σ) : Alike (.success value rest) (.success value rest)
  | failure (rest : Stream σ) : Alike (.failure rest) (.failure rest)
  | error (rest : Stream σ) {message other : Message} :
    message.text = other.text → Alike (.error rest message) (.error rest other)

theorem Outcome.Alike.refl (outcome : Outcome σ α) : outcome.Alike outcome := by
  cases outcome with
  | success value rest => exact .success value rest
  | failure rest => exact .failure rest
  | error rest message => exact .error rest rfl

theorem Outcome.Alike.settled_eq {outcome other : Outcome σ α} (h : outcome.Alike other) :
    outcome.settled = other.settled := by
  cases h with
  | success value rest => rfl
  | failure rest => rfl
  | error rest htext => rw [settled, settled, Message.softened, Message.softened, htext]

namespace Plan

/-- The second plan does what the first does with the grammars without cuts, and ends alike
when these do. -/
inductive Softens : Plan σ ν ε α → Plan σ ν ε α → Prop
  | done {notice notice' : Option Notice} {outcome other : Outcome σ α} :
    outcome.Alike other → Softens (.done notice outcome) (.done notice' other)
  | halt (reason : Halt) : Softens (.halt reason) (.halt reason)
  | consume {s : Stream σ} {next other : Stream σ → Plan σ ν ε α} :
    (∀ rest, Softens (next rest) (other rest)) → Softens (.consume s next) (.consume s other)
  | emit {event : ε} {next other : Plan σ ν ε α} : Softens next other →
    Softens (.emit event next) (.emit event other)
  | call {hook : Hook} {next other : Plan σ ν ε α} : Softens next other →
    Softens (.call hook next) (.call hook other)
  | invoke {β : Type} {g : Grammar σ ν ε β} {s : Stream σ}
    {next other : Outcome σ β → Plan σ ν ε α} :
    (∀ reply reply', reply.Alike reply' → Softens (next reply) (other reply')) →
    Softens (.invoke g s next) (.invoke g.uncut s other)
  | follow (g : Grammar σ ν ε α) (s : Stream σ) : Softens (.follow g s) (.follow g.uncut s)

theorem softens_reply (outcome : Outcome σ α) :
    Softens (reply (ν := ν) (ε := ε) outcome) (reply outcome) :=
  .done (.refl outcome)

theorem softens_error (rest : Stream σ) {message other : Message} (h : message.text = other.text) :
    Softens (reply (ν := ν) (ε := ε) (α := α) (.error rest message)) (reply (.error rest other)) :=
  .done (.error rest h)

/-- A part is tried, and its outcomes are gone on from alike. -/
theorem softens_invoke {g : Grammar σ ν ε β} {s : Stream σ}
    {next other : Outcome σ β → Plan σ ν ε α}
    (success : ∀ value rest, Softens (next (.success value rest)) (other (.success value rest)))
    (failure : ∀ rest, Softens (next (.failure rest)) (other (.failure rest)))
    (error : ∀ rest message message', message.text = message'.text →
      Softens (next (.error rest message)) (other (.error rest message'))) :
    Softens (.invoke g s next) (.invoke g.uncut s other) := by
  refine .invoke ?_
  intro reply reply' alike
  cases alike with
  | success value rest => exact success value rest
  | failure rest => exact failure rest
  | error rest htext => exact error rest _ _ htext

theorem softens_onSuccess {g : Grammar σ ν ε β} {s : Stream σ}
    {next other : β → Stream σ → Plan σ ν ε α}
    (h : ∀ value rest, Softens (next value rest) (other value rest)) :
    Softens (.invoke g s (onSuccess next)) (.invoke g.uncut s (onSuccess other)) :=
  softens_invoke h (fun _ => softens_reply _) fun rest _ _ htext => softens_error rest htext

theorem softens_onFailure {g : Grammar σ ν ε α} {s : Stream σ} {otherwise other : Plan σ ν ε α}
    (h : Softens otherwise other) :
    Softens (.invoke g s (onFailure otherwise)) (.invoke g.uncut s (onFailure other)) :=
  softens_invoke (fun _ _ => softens_reply _) (fun _ => h) fun rest _ _ htext =>
    softens_error rest htext

theorem softens_last (g : Grammar σ ν ε α) (s : Stream σ) :
    Softens (.invoke g s reply) (.invoke g.uncut s reply) :=
  softens_invoke (fun _ _ => softens_reply _) (fun _ => softens_reply _) fun rest _ _ htext =>
    softens_error rest htext

theorem softens_emitAll {next other : Plan σ ν ε α} (h : Softens next other) (events : List ε) :
    Softens (emitAll next events) (emitAll other events) := by
  induction events with
  | nil => exact h
  | cons event rest ih => exact .emit ih

theorem softens_literal [DecidableEq σ] (expected : List σ) (start : Stream σ) (left : List σ)
    (s : Stream σ) :
    Softens (literal (ν := ν) (ε := ε) expected start left s) (literal expected start left s) := by
  induction left generalizing s with
  | nil => exact softens_reply _
  | cons a rest ih =>
    rw [literal]
    by_cases hcurrent : s.current = some a
    · rw [if_pos hcurrent]
      exact .consume ih
    · rw [if_neg hcurrent]
      exact softens_reply _

theorem softens_choice (s : Stream σ) (parts : List (Grammar σ ν ε α)) :
    Softens (choice s parts) (choice s (parts.map Grammar.uncut)) := by
  induction parts with
  | nil => exact softens_reply _
  | cons p rest ih => exact softens_onFailure ih

theorem softens_sequence (values : List α) (parts : List (Grammar σ ν ε α)) (s : Stream σ) :
    Softens (sequence values parts s) (sequence values (parts.map Grammar.uncut) s) := by
  induction parts generalizing values s with
  | nil => exact softens_reply _
  | cons p rest ih =>
    exact softens_invoke (fun value next => ih (value :: values) next) (fun _ => softens_reply _)
      fun rest _ _ htext => softens_error rest htext

theorem softens_exactly (p : Grammar σ ν ε α)
    {finish other : List α → Stream σ → Plan σ ν ε (List α)}
    (h : ∀ values rest, Softens (finish values rest) (other values rest)) (count : Nat)
    (values : List α) (s : Stream σ) :
    Softens (exactly p finish count values s) (exactly p.uncut other count values s) := by
  induction count generalizing values s with
  | zero => exact h values s
  | succ count ih =>
    exact softens_invoke (fun value next => ih (value :: values) next) (fun _ => softens_reply _)
      fun rest _ _ htext => softens_error rest htext

theorem softens_many (p : Grammar σ ν ε α) (rounds : Nat) (values : List α) (s : Stream σ) :
    Softens (many p rounds values s) (many p.uncut rounds values s) := by
  induction rounds generalizing values s with
  | zero => exact .halt _
  | succ rounds ih =>
    refine softens_invoke (fun value next => ?_) (fun _ => softens_reply _)
      fun rest _ _ htext => softens_error rest htext
    dsimp only
    by_cases hstill : next.position.index = s.position.index
    · rw [if_pos hstill, if_pos hstill]
      exact .done (.refl _)
    · rw [if_neg hstill, if_neg hstill]
      exact ih (value :: values) next

theorem softens_separated (p : Grammar σ ν ε α) (separator : Grammar σ ν ε β) (rounds : Nat)
    (values : List α) (s : Stream σ) :
    Softens (separated p separator rounds values s)
      (separated p.uncut separator.uncut rounds values s) := by
  induction rounds generalizing values s with
  | zero => exact .halt _
  | succ rounds ih =>
    refine softens_invoke (fun _ middle => ?_) (fun _ => softens_reply _)
      fun rest _ _ htext => softens_error rest htext
    refine softens_invoke (fun value next => ?_) (fun _ => softens_reply _)
      fun rest _ _ htext => softens_error rest htext
    dsimp only
    by_cases hstill : next.position.index = s.position.index
    · rw [if_pos hstill, if_pos hstill]
      exact .done (.refl _)
    · rw [if_neg hstill, if_neg hstill]
      exact ih (value :: values) next

theorem softens_script (script : Script σ ε α) :
    Softens (Plan.script (ν := ν) script) (Plan.script script) := by
  induction script with
  | done outcome => exact softens_reply outcome
  | consume s next ih => exact .consume ih
  | emit event next ih => exact .emit ih

/-- A boundary makes outcomes equal that are alike. -/
theorem softens_soften {outcome other : Outcome σ α} (h : outcome.Alike other) :
    Softens (soften (ν := ν) (ε := ε) outcome) (soften other) := by
  obtain ⟨notice, hsoften⟩ := soften_eq (ν := ν) (ε := ε) outcome
  obtain ⟨notice', hother⟩ := soften_eq (ν := ν) (ε := ε) other
  rw [hsoften, hother, h.settled_eq]
  exact .done (.refl _)

end Plan

open Plan in
theorem Grammar.plan_uncut [Symbol σ] (rules : Rules σ ν ε) (rounds : Nat) {g : Grammar σ ν ε α}
    (attemptless : g.Attemptless) (s : Stream σ) :
    (g.plan rules rounds s).Softens (g.uncut.plan rules.uncut rounds s) := by
  cases g with
  | any =>
    change (plan rules rounds .any s).Softens (plan rules.uncut rounds .any s)
    rw [plan, plan]
    cases s.current with
    | none => exact softens_reply _
    | some a => exact .consume fun _ => softens_reply _
  | satisfy accepts =>
    change (plan rules rounds (.satisfy accepts) s).Softens
        (plan rules.uncut rounds (.satisfy accepts) s)
    rw [plan, plan]
    cases s.current with
    | none => exact softens_reply _
    | some a =>
      refine .call ?_
      split
      · exact .consume fun _ => softens_reply _
      · exact softens_reply _
  | symbol expected =>
    change (plan rules rounds (.symbol expected) s).Softens
        (plan rules.uncut rounds (.symbol expected) s)
    rw [plan, plan]
    cases s.current with
    | none => exact softens_reply _
    | some a =>
      dsimp only
      split
      · exact .consume fun _ => softens_reply _
      · exact softens_reply _
  | literal expected => exact softens_literal expected s expected s
  | endOfInput => exact softens_reply _
  | succeed value => exact softens_reply _
  | fail => exact softens_reply _
  | error text => exact softens_reply _
  | cut text => exact softens_error s rfl
  | orElse p q => exact softens_onFailure (softens_last q s)
  | choiceOf count parts =>
    change (Plan.choice s (List.ofFn parts)).Softens (Plan.choice s (List.ofFn (uncut ∘ parts)))
    rw [← List.map_ofFn]
    exact softens_choice s (List.ofFn parts)
  | optional p =>
    exact softens_invoke (fun _ _ => softens_reply _)
      (fun _ => softens_reply _) fun rest _ _ htext =>
      softens_error rest htext
  | lookAhead p =>
    exact softens_invoke (fun _ _ => softens_reply _)
      (fun _ => softens_reply _) fun rest _ _ htext =>
      softens_error rest htext
  | notAhead p =>
    exact softens_invoke (fun _ _ => softens_reply _)
      (fun _ => softens_reply _) fun rest _ _ htext =>
      softens_error rest htext
  | filter accepts p => exact softens_onSuccess fun _ _ => .call (softens_reply _)
  | map f p => exact softens_onSuccess fun _ _ => .call (softens_reply _)
  | ignore p => exact softens_onSuccess fun _ _ => softens_reply _
  | bind p next => exact softens_onSuccess fun value rest => .call (softens_last (next value) rest)
  | pair p q => exact softens_onSuccess fun _ _ => softens_onSuccess fun _ _ => softens_reply _
  | keepLeft p q => exact softens_onSuccess fun _ _ => softens_onSuccess fun _ _ => softens_reply _
  | keepRight p q => exact softens_onSuccess fun _ rest => softens_last q rest
  | between opening p closing =>
    exact softens_onSuccess fun _ _ => softens_onSuccess fun _ _ => softens_onSuccess fun _ _ =>
      softens_reply _
  | sequenceOf count parts =>
    change (Plan.sequence [] (List.ofFn parts) s).Softens
        (Plan.sequence [] (List.ofFn (uncut ∘ parts)) s)
    rw [← List.map_ofFn]
    exact softens_sequence [] (List.ofFn parts) s
  | exactly p count =>
    change (plan rules rounds (.exactly p count) s).Softens
        (plan rules.uncut rounds (.exactly p.uncut count) s)
    rw [plan, plan]
    split
    · exact softens_exactly p (fun _ _ => softens_reply _) count [] s
    · exact .halt _
  | many p => exact softens_many p rounds [] s
  | atLeast p count =>
    change (plan rules rounds (.atLeast p count) s).Softens
        (plan rules.uncut rounds (.atLeast p.uncut count) s)
    rw [plan, plan]
    split
    · exact softens_exactly p (softens_many p rounds) count [] s
    · exact .halt _
  | separated p separator =>
    exact softens_onSuccess fun value rest => softens_separated p separator rounds [value] rest
  | label text p => exact softens_onFailure (softens_reply _)
  | commit text p => exact softens_onFailure (softens_error s rfl)
  | attempt p => exact absurd rfl attemptless
  | boundary p => exact .invoke fun _ _ alike => softens_soften alike
  | spanned p => exact softens_onSuccess fun _ _ => softens_reply _
  | inspect observe p =>
    refine softens_onSuccess fun value rest => .call ?_
    cases observe value with
    | ok event => exact .emit (softens_reply _)
    | error fault => exact .halt _
  | rule name =>
    change (plan rules rounds (.rule name) s).Softens (plan rules.uncut rounds (.rule name) s)
    rw [plan, plan, Rules.uncut]
    dsimp only
    cases rules.slot name with
    | undefined => exact .done (.refl _)
    | dropped => exact .done (.refl _)
    | defined definition => exact .follow definition s
  | lazy name => exact .call (softens_emitAll (.follow _ s) _)
  | scripted script => exact softens_script (script s)

/-! ## The simulation -/

/-- Sessions that nothing but their logs tells apart. -/
def Session.Echoes (session other : Session τ σ ε) : Prop :=
  session.chain.Echoes other.chain ∧ other.events = session.events

section

variable {session other : Session τ σ ε}

theorem Session.echoes_refl (session : Session τ σ ε) : session.Echoes session :=
  ⟨session.chain.echoes_refl, rfl⟩

theorem Session.Echoes.trans {last : Session τ σ ε} (h : session.Echoes other)
    (hlast : other.Echoes last) :
    session.Echoes last :=
  ⟨h.1.trans hlast.1, hlast.2.trans h.2⟩

theorem Session.Echoes.symm (h : session.Echoes other) : other.Echoes session :=
  ⟨h.1.symm, h.2.symm⟩

theorem Session.noted_echoes (session : Session τ σ ε) (notice : Option Notice) :
    session.Echoes (session.noted notice) := by
  cases notice with
  | none => exact session.echoes_refl
  | some notice => exact ⟨session.chain.note_echoes notice, rfl⟩

theorem Session.Echoes.noted (h : session.Echoes other) (notice notice' : Option Notice) :
    (session.noted notice).Echoes (other.noted notice') :=
  (session.noted_echoes notice).symm.trans (h.trans (other.noted_echoes notice'))

theorem Session.Echoes.emitted (h : session.Echoes other) (event : ε) :
    (session.emitted event).Echoes (other.emitted event) :=
  ⟨h.1, congrArg (Array.push · event) h.2⟩

variable [Source τ σ] [Symbol σ] {rules : Rules σ ν ε} {fuel : Nat}

theorem Run.consume_echoes (h : session.Echoes other) {s rest : Stream σ} {middle : Session τ σ ε}
    (ended : Run.consume s session = .ok rest middle) :
    ∃ middle', Run.consume s other = .ok rest middle' ∧ middle.Echoes middle' := by
  obtain ⟨hanswer, hafter⟩ := Chain.consume_echoes h.1 s
  cases hconsume : session.chain.consume s with
  | mk answer after =>
    cases hother : other.chain.consume s with
    | mk answer' after' =>
      rw [hconsume, hother] at hanswer hafter
      cases hanswer
      cases answer with
      | ok next =>
        rw [Run.consume_ok hconsume] at ended
        cases ended
        exact ⟨_, Run.consume_ok hother, hafter, h.2⟩
      | error fault =>
        rw [Run.consume_error hconsume] at ended
        cases ended

/-- The run without cuts keeps up with the run. -/
theorem Completes.uncut {p : Plan σ ν ε α} {outcome : Outcome σ α} {final : Session τ σ ε}
    {traces : List (Trace σ)} (completes : Completes rules fuel p session outcome final traces) :
    ∀ (answer : Stream σ → Message → Plan σ ν ε α) (q : Plan σ ν ε α) (other : Session τ σ ε),
      p.Lawful (fun h => h.Throughout rules Grammar.Attemptless)
        (fun h => h.Throughout rules Grammar.Attemptless) (fun _ => True) answer →
      p.Softens q → session.Echoes other →
      ∃ outcome' final' traces', Completes rules.uncut fuel q other outcome' final' traces' ∧
        outcome.Alike outcome' ∧ final.Echoes final' := by
  induction completes with
  | done =>
    intro answer q other lawful softens echoes
    cases softens with
    | done alike => exact ⟨_, _, [], .done, alike, echoes.noted _ _⟩
  | consume hconsume _ ih =>
    intro answer q other lawful softens echoes
    cases softens with
    | consume hnext =>
      obtain ⟨middle', hmiddle, hechoes⟩ := Run.consume_echoes echoes hconsume
      obtain ⟨outcome', final', traces', hrest, halike, hfinal⟩ :=
        ih answer _ middle' (lawful.2 _ trivial) (hnext _) hechoes
      exact ⟨outcome', final', traces', .consume hmiddle hrest, halike, hfinal⟩
  | emit _ ih =>
    intro answer q other lawful softens echoes
    cases softens with
    | emit hnext =>
      obtain ⟨outcome', final', traces', hrest, halike, hfinal⟩ :=
        ih answer _ _ lawful hnext (echoes.emitted _)
      exact ⟨outcome', final', traces', .emit hrest, halike, hfinal⟩
  | call _ ih =>
    intro answer q other lawful softens echoes
    cases softens with
    | call hnext =>
      obtain ⟨outcome', final', traces', hrest, halike, hfinal⟩ :=
        ih answer _ other lawful hnext echoes
      exact ⟨outcome', final', _, .call hrest, halike, hfinal⟩
  | invoke _ _ hinside hlater =>
    rename_i fuel _ _ g s next reply outcome session middle final inside traces _ _
    intro answer q other lawful softens echoes
    obtain ⟨hpart, -, -, hkeeps⟩ := lawful
    cases softens with
    | invoke hnext =>
      have hplan :=
        hpart.plan_lawful (V := fun _ => True) fuel (s := s) trivial (Or.inr fun _ => trivial)
      obtain ⟨reply', middle', inside', hpart', hreply, hmiddle⟩ :=
        hinside _ _ other hplan (Grammar.plan_uncut rules fuel hpart.self s) echoes
      obtain ⟨outcome', final', traces', hrest, halike, hfinal⟩ :=
        hlater answer _ middle' (hkeeps reply trivial) (hnext reply reply' hreply) hmiddle
      exact ⟨outcome', final', _, .invoke hpart' hrest, halike, hfinal⟩
  | follow _ hinside =>
    rename_i fuel _ g s outcome session final inside _
    intro answer q other lawful softens echoes
    have hpart := lawful.1
    cases softens with
    | follow =>
      have hplan :=
        hpart.plan_lawful (V := fun _ => True) fuel (s := s) trivial (Or.inr fun _ => trivial)
      obtain ⟨outcome', final', inside', hpart', halike, hfinal⟩ :=
        hinside _ _ other hplan (Grammar.plan_uncut rules fuel hpart.self s) echoes
      exact ⟨outcome', final', _, .follow hpart', halike, hfinal⟩

/-- Where there is no attempt, a whole run replies the same when no cut is an escalation, and leaves
the same events; only the logs may differ. -/
theorem run_uncut {g : Grammar σ ν ε α} (attemptless : g.Throughout rules Grammar.Attemptless)
    {s : Stream σ} {reply : Outcome σ α} {final : Session τ σ ε}
    (ended : g.run rules fuel s session = .ok reply final) :
    reply.isEscalation = false ∧
      ∃ final', g.uncut.run rules.uncut fuel s session = .ok reply final' ∧
      final.Echoes final' := by
  obtain ⟨outcome, middle, hparse, rfl, notice, rfl⟩ := Grammar.run_eq_ok ended
  refine ⟨outcome.isEscalation_settled, ?_⟩
  cases fuel with
  | zero => cases hparse
  | succ fuel =>
    obtain ⟨inside, completes⟩ := Grammar.parse_eq_ok_iff.mp hparse
    have hplan :=
      attemptless.plan_lawful (V := fun _ => True) fuel (s := s) trivial (Or.inr fun _ => trivial)
    obtain ⟨outcome', middle', inside', completes', halike, hmiddle⟩ :=
      completes.uncut _ _ session hplan (Grammar.plan_uncut rules fuel attemptless.self s)
        session.echoes_refl
    obtain ⟨notice', hsoften⟩ := soften_ok outcome' middle'
    refine ⟨_, ?_, hmiddle.noted notice notice'⟩
    rw [Grammar.run, Parser.boundary,
      bind_of_ok (Grammar.parse_eq_ok_iff.mpr ⟨inside', completes'⟩), hsoften,
      halike.settled_eq]

end

/-- With the cut and without it a whole run reports the same error. -/
theorem run_uncut_cutShort :
    let s : Stream Char := ⟨0, some 'a', .start⟩
    let session : Session (Queue Char) Char Unit :=
      (Session.ofWindow (.ofSource ⟨['a', 'b']⟩) .start).2
    let reply : Outcome Char Char := .error ⟨1, some 'b', ⟨1, 2, 1⟩⟩ ⟨"stop", false⟩
    (∃ final, cutShort.run Rules.none 1 s session = .ok reply final) ∧
      ∃ final, cutShort.uncut.run Rules.none.uncut 1 s session = .ok reply final := by
  intro s session reply
  obtain ⟨final, ended⟩ : ∃ final, cutShort.run Rules.none 1 s session = .ok reply final :=
    Run.value?_eq_some (by decide +kernel)
  obtain ⟨-, final', hfinal, -⟩ := run_uncut cutShort_attemptless ended
  exact ⟨⟨final, ended⟩, final', hfinal⟩

end Rewind
