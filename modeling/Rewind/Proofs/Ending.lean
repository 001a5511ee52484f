import Rewind.Proofs.Nesting

/-!
# How parses end

A parse ends unless it runs out of fuel, and then more fuel makes no difference to it
(`parse_refines`). A grammar without names needs no more fuel than the list has symbols, and two:
its parts leave streams that are not behind those that they were given, so that each round of a
repetition has fewer symbols before it than the round before, or is the last (`ends_many`,
`ends_separated`). `repetition_ends` counts the rounds of every repetition that is met on the way.
-/
namespace Rewind

variable {τ σ ε α β : Type} {ν : Type → Type}

/-! ## More fuel -/

namespace Run

variable {γ δ : Type} {x y z : Run τ σ ε γ} {session middle : Session τ σ ε}

/-- The run comes to an outcome or to a fault. -/
def Ends (x : Run τ σ ε γ) (session : Session τ σ ε) : Prop :=
  ∀ final, x session ≠ .error .outOfFuel final

/-- Where the first run ends, the second does the same. -/
def Refines (x y : Run τ σ ε γ) : Prop := ∀ session, x.Ends session → y session = x session

theorem Ends.exists_ok (ends : x.Ends session)
    (faultless : ∀ fault final, x session ≠ .error (.fault fault) final) :
    ∃ a final, x session = .ok a final := by
  cases hrun : x session with
  | ok a final => exact ⟨a, final, rfl⟩
  | error reason final =>
    cases reason with
    | fault fault => exact absurd hrun (faultless fault final)
    | outOfFuel => exact absurd hrun (ends final)

theorem refines_self (x : Run τ σ ε γ) : x.Refines x := fun _ _ => rfl

theorem refines_outOfFuel (y : Run τ σ ε γ) : Refines (throw .outOfFuel) y :=
  fun session ends => absurd rfl (ends session)

theorem Refines.trans (h : x.Refines y) (hy : y.Refines z) : x.Refines z := by
  intro session ends
  have hsame := h session ends
  have hmore := hy session fun final halted => ends final (hsame.symm.trans halted)
  exact hmore.trans hsame

theorem Ends.first {f : γ → Run τ σ ε δ} (ends : Ends (x >>= f) session) : x.Ends session :=
  fun _ halted => ends _ (bind_of_error halted f)

theorem Ends.next {f : γ → Run τ σ ε δ} (ends : Ends (x >>= f) session) {a : γ}
    (h : x session = .ok a middle) :
    (f a).Ends middle :=
  fun final halted => ends final ((bind_of_ok h f).trans halted)

theorem ends_bind {f : γ → Run τ σ ε δ} (first : x.Ends session)
    (next : ∀ a middle, x session = .ok a middle → (f a).Ends middle) : Ends (x >>= f) session := by
  intro final halted
  cases hx : x session with
  | ok a middle =>
    rw [bind_of_ok hx] at halted
    exact next a middle hx final halted
  | error reason middle =>
    rw [bind_of_error hx] at halted
    cases halted
    exact first final hx

theorem refines_bind {f g : γ → Run τ σ ε δ} (h : x.Refines y) (next : ∀ a, (f a).Refines (g a)) :
    Refines (x >>= f) (y >>= g) := by
  intro session ends
  have hy := h session ends.first
  cases hx : x session with
  | ok a middle =>
    rw [bind_of_ok hx, bind_of_ok (hy.trans hx)]
    exact next a middle (ends.next hx)
  | error reason middle => rw [bind_of_error hx, bind_of_error (hy.trans hx)]

/-- Moving along meets a fault, but never a lack of fuel. -/
theorem consume_ends [Source τ σ] [Symbol σ] (s : Stream σ) (session : Session τ σ ε) :
    (Run.consume s).Ends session := by
  intro final halted
  cases hconsume : session.chain.consume s with
  | mk answer after =>
    cases answer with
    | ok t => cases (consume_ok hconsume).symm.trans halted
    | error fault => cases (consume_error hconsume).symm.trans halted

end Run

variable [Source τ σ] [Symbol σ] {rules : Rules σ ν ε}

theorem Plan.run_refines
    {part further definition beyond : {β : Type} → Grammar σ ν ε β → Parser τ σ ε β}
    (definitions : ∀ {β : Type} (g : Grammar σ ν ε β) (s : Stream σ),
      (definition g s).Refines (beyond g s))
    {answer : Stream σ → Message → Plan σ ν ε α} {p : Plan σ ν ε α}
    (lawful : p.Lawful (fun g => ∀ s, (part g s).Refines (further g s)) (fun _ => True)
      (fun _ => True) answer) :
    (p.run part definition).Refines (p.run further beyond) := by
  induction p with
  | done notice outcome => cases notice <;> exact Run.refines_self _
  | halt reason => exact Run.refines_self _
  | consume s next ih =>
    exact Run.refines_bind (Run.refines_self _) fun rest => ih rest (lawful.2 rest trivial)
  | emit event next ih => exact Run.refines_bind (Run.refines_self _) fun _ => ih lawful
  | call hook next ih => exact ih lawful
  | invoke g s next ih =>
    exact Run.refines_bind (lawful.1 s) fun reply => ih reply (lawful.2.2.2 reply trivial)
  | follow g s => exact definitions g s

theorem Plan.Extends.refines {part definition : {β : Type} → Grammar σ ν ε β → Parser τ σ ε β}
    {p q : Plan σ ν ε α} (extends_ : p.Extends q) :
    (p.run part definition).Refines (q.run part definition) := by
  induction extends_ with
  | same => exact Run.refines_self _
  | stuck => exact Run.refines_outOfFuel _
  | invoke _ ih => exact Run.refines_bind (Run.refines_self _) ih

/-- A parse that has ended, with an outcome or at a fault, does the same with more fuel. -/
theorem Grammar.parse_refines {fuel more : Nat} (le : fuel ≤ more) (g : Grammar σ ν ε α)
    (s : Stream σ) :
    Run.Refines (g.parse rules fuel s : Run τ σ ε (Outcome σ α)) (g.parse rules more s) := by
  induction fuel generalizing more α s with
  | zero => exact Run.refines_outOfFuel _
  | succ fuel ih =>
    obtain ⟨more, rfl⟩ : ∃ less, more = less + 1 := ⟨more - 1, by omega⟩
    have hle : fuel ≤ more := by omega
    refine induction_on_parts (motive := fun g => ∀ s,
      Run.Refines (g.parse rules (fuel + 1) s : Run τ σ ε _) (g.parse rules (more + 1) s)) ?_ g s
    intro β g parts s
    have lawful := plan_lawful rules fuel (s := s) trivial (Or.inr fun _ => trivial) parts
      (eachDefinition_of_forall (fun _ => trivial) g)
    rw [parse_eq_run, parse_eq_run]
    exact (Plan.run_refines (fun h t => ih hle h t) lawful).trans
      (plan_extends rules hle g s).refines

/-! ## Rounds -/

/-- The number of symbols from the stream on. -/
def Input.remaining (input : Input σ) (s : Stream σ) : Nat := input.symbols.length - s.node

/-- What the plan tries leaves streams in the set that are not behind those that it was given, and
then the plan does not run out of rounds. -/
def Plan.Ends (V : Stream σ → Prop) : Plan σ ν ε α → Prop
  | .done _ _ => True
  | .halt reason => reason ≠ .outOfFuel
  | .consume _ next => ∀ rest, (next rest).Ends V
  | .emit _ next => next.Ends V
  | .call _ next => next.Ends V
  | .invoke _ s next =>
    ∀ outcome, V outcome.rest → s.node ≤ outcome.rest.node → (next outcome).Ends V
  | .follow _ _ => True

namespace Plan

variable {V : Stream σ → Prop} {input : Input σ}

omit [Source τ σ] [Symbol σ]

theorem ends_reply (outcome : Outcome σ α) : (reply (ν := ν) (ε := ε) outcome).Ends V := trivial

theorem ends_onSuccess {g : Grammar σ ν ε β} {s : Stream σ} {next : β → Stream σ → Plan σ ν ε α}
    (h : ∀ value rest, V rest → (next value rest).Ends V) :
    (Plan.invoke g s (onSuccess next)).Ends V := by
  intro outcome hrest _
  cases outcome with
  | success value rest => exact h value rest hrest
  | failure rest => trivial
  | error rest message => trivial

theorem ends_onFailure {g : Grammar σ ν ε α} {s : Stream σ} {otherwise : Plan σ ν ε α}
    (h : otherwise.Ends V) :
    (Plan.invoke g s (onFailure otherwise)).Ends V := by
  intro outcome _ _
  cases outcome with
  | success value rest => trivial
  | failure rest => exact h
  | error rest message => trivial

theorem ends_last (g : Grammar σ ν ε α) (s : Stream σ) : (Plan.invoke g s reply).Ends V :=
  fun _ _ _ => trivial

theorem ends_emitAll {next : Plan σ ν ε α} (h : next.Ends V) (events : List ε) :
    (emitAll next events).Ends V := by
  induction events with
  | nil => exact h
  | cons event rest ih => exact ih

theorem ends_literal [DecidableEq σ] (expected : List σ) (start : Stream σ) (left : List σ)
    (s : Stream σ) :
    (literal (ν := ν) (ε := ε) expected start left s).Ends V := by
  induction left generalizing s with
  | nil => trivial
  | cons a rest ih =>
    rw [literal]
    split
    · exact ih
    · trivial

theorem ends_choice (s : Stream σ) (parts : List (Grammar σ ν ε α)) : (choice s parts).Ends V := by
  induction parts with
  | nil => trivial
  | cons p rest ih => exact ends_onFailure ih

theorem ends_sequence (values : List α) (parts : List (Grammar σ ν ε α)) (s : Stream σ) :
    (sequence values parts s).Ends V := by
  induction parts generalizing values s with
  | nil => trivial
  | cons p rest ih =>
    intro outcome _ _
    cases outcome with
    | success value next => exact ih _ _
    | failure _ => trivial
    | error next message => trivial

theorem ends_script (script : Script σ ε α) : (Plan.script (ν := ν) script).Ends V := by
  induction script with
  | done outcome => trivial
  | consume s next ih => exact ih
  | emit event next ih => exact ih

theorem ends_exactly (p : Grammar σ ν ε α) {finish : List α → Stream σ → Plan σ ν ε (List α)}
    (h : ∀ values rest, V rest → (finish values rest).Ends V) (count : Nat) (values : List α)
    {s : Stream σ} (hs : V s) : (exactly p finish count values s).Ends V := by
  induction count generalizing values s with
  | zero => exact h values s hs
  | succ count ih =>
    intro outcome hrest _
    cases outcome with
    | success value next => exact ih _ hrest
    | failure _ => trivial
    | error next message => trivial

variable [Symbol σ]

/-- A node with another index is further on. -/
theorem remaining_lt {s next : Stream σ} (hs : input.Has s) (hnext : input.Has next)
    (le : s.node ≤ next.node) (moved : next.position.index ≠ s.position.index) :
    input.remaining next < input.remaining s := by
  have hne : next.node ≠ s.node := fun h => moved (by rw [hnext.eq_of_node hs h])
  have hbound := hnext.node_le
  rw [Input.remaining, Input.remaining]
  omega

/-- Each round of a repetition that goes on leaves fewer symbols. -/
theorem ends_many (p : Grammar σ ν ε α) {rounds : Nat} (values : List α) {s : Stream σ}
    (hs : input.Has s) (enough : input.remaining s < rounds) :
    (many p rounds values s).Ends input.Has := by
  induction rounds generalizing values s with
  | zero => omega
  | succ rounds ih =>
    intro outcome hrest le
    cases outcome with
    | success value next =>
      dsimp only
      split
      · trivial
      · rename_i moved
        have hless : input.remaining next < input.remaining s := remaining_lt hs hrest le moved
        exact ih _ hrest (by omega)
    | failure _ => trivial
    | error next message => trivial

/-- A separator and an item together leave fewer symbols. -/
theorem ends_separated (p : Grammar σ ν ε α) (separator : Grammar σ ν ε β) {rounds : Nat}
    (values : List α) {s : Stream σ} (hs : input.Has s) (enough : input.remaining s < rounds) :
    (separated p separator rounds values s).Ends input.Has := by
  induction rounds generalizing values s with
  | zero => omega
  | succ rounds ih =>
    intro outcome _ lemiddle
    cases outcome with
    | success _ middle =>
      intro outcome hrest lerest
      cases outcome with
      | success value next =>
        dsimp only
        split
        · trivial
        · rename_i moved
          have hless : input.remaining next < input.remaining s :=
            remaining_lt hs hrest (Nat.le_trans lemiddle lerest) moved
          exact ih _ hrest (by omega)
      | failure _ => trivial
      | error next message => trivial
    | failure _ => trivial
    | error next message => trivial

end Plan

namespace Grammar

variable {input : Input σ}

open Plan in
omit [Source τ σ] in
/-- With a round for each symbol and one more, no plan runs out of rounds. -/
theorem plan_ends (rules : Rules σ ν ε) {rounds : Nat} (enough : input.symbols.length < rounds)
    (g : Grammar σ ν ε α) {s : Stream σ} (hs : input.Has s) :
    (g.plan rules rounds s).Ends input.Has := by
  have hrounds : ∀ t, input.remaining t < rounds :=
    fun t => Nat.lt_of_le_of_lt (Nat.sub_le _ _) enough
  cases g with
  | any =>
    rw [plan]
    cases s.current with
    | none => trivial
    | some a => exact fun _ => trivial
  | satisfy accepts =>
    rw [plan]
    cases s.current with
    | none => trivial
    | some a =>
      dsimp only [Ends]
      split
      · exact fun _ => trivial
      · trivial
  | symbol expected =>
    rw [plan]
    cases s.current with
    | none => trivial
    | some a =>
      dsimp only
      split
      · exact fun _ => trivial
      · trivial
  | literal expected => exact ends_literal expected s expected s
  | endOfInput => trivial
  | succeed value => trivial
  | fail => trivial
  | error text => trivial
  | cut text => trivial
  | orElse p q => exact ends_onFailure (ends_last q s)
  | choiceOf count parts => exact ends_choice s _
  | optional p => exact fun outcome _ _ => by cases outcome <;> trivial
  | lookAhead p => exact fun outcome _ _ => by cases outcome <;> trivial
  | notAhead p => exact fun outcome _ _ => by cases outcome <;> trivial
  | filter accepts p => exact ends_onSuccess fun _ _ _ => trivial
  | map f p => exact ends_onSuccess fun _ _ _ => trivial
  | ignore p => exact ends_onSuccess fun _ _ _ => trivial
  | bind p next => exact ends_onSuccess fun value rest _ => ends_last (next value) rest
  | pair p q => exact ends_onSuccess fun _ _ _ => ends_onSuccess fun _ _ _ => trivial
  | keepLeft p q => exact ends_onSuccess fun _ _ _ => ends_onSuccess fun _ _ _ => trivial
  | keepRight p q => exact ends_onSuccess fun _ rest _ => ends_last q rest
  | between opening p closing =>
    exact ends_onSuccess fun _ _ _ => ends_onSuccess fun _ _ _ => ends_onSuccess fun _ _ _ =>
      trivial
  | sequenceOf count parts => exact ends_sequence [] _ s
  | exactly p count =>
    rw [plan]
    split
    · exact ends_exactly p (fun _ _ _ => ends_reply _) count [] hs
    · rintro ⟨⟩
  | many p => exact ends_many p [] hs (hrounds s)
  | atLeast p count =>
    rw [plan]
    split
    · exact ends_exactly p (fun values rest hrest => ends_many p values hrest (hrounds rest)) count
        [] hs
    · rintro ⟨⟩
  | separated p separator =>
    exact ends_onSuccess fun value rest hrest =>
      ends_separated p separator [value] hrest (hrounds rest)
  | label text p => exact ends_onFailure trivial
  | commit text p => exact ends_onFailure trivial
  | attempt p => exact fun outcome _ _ => by cases outcome <;> trivial
  | boundary p =>
    intro outcome _ _
    cases outcome with
    | success value rest => trivial
    | failure rest => trivial
    | error rest message =>
      rw [soften]
      split <;> trivial
  | spanned p => exact ends_onSuccess fun _ _ _ => trivial
  | inspect observe p =>
    refine ends_onSuccess fun value rest _ => ?_
    dsimp only [Ends]
    cases observe value with
    | ok event => trivial
    | error fault => rintro ⟨⟩
  | rule name =>
    rw [plan]
    cases rules.slot name <;> trivial
  | lazy name =>
    have followed : Ends input.Has (.follow (rules.build name).grammar s) := trivial
    exact ends_emitAll followed _
  | scripted script => exact ends_script (script s)

/-- The grammar refers to no other by name, and is not written by hand. -/
def Nameless : Grammar σ ν ε α → Prop
  | .rule _ | .lazy _ | .scripted _ => False
  | _ => True

omit [Source τ σ] [Symbol σ] in
theorem Nameless.scriptless {g : Grammar σ ν ε α} (nameless : g.Nameless) : g.Scriptless := by
  cases g with
  | scripted script => exact nameless
  | _ => trivial

omit [Source τ σ] [Symbol σ] in
theorem Nameless.definitions {g : Grammar σ ν ε α} (nameless : g.Nameless) :
    g.EachDefinition rules fun _ => False := by
  cases g with
  | rule name => exact False.elim nameless
  | lazy name => exact False.elim nameless
  | _ => trivial

end Grammar

/-! ## Runs on the nodes of an input -/

section

variable {left : τ → List σ → Prop} {input : Input σ} {session : Session τ σ ε}

/-- The steps along a chain that is as it ought to be lead from nodes of the input to nodes that
are not behind. -/
theorem Chain.Reaches.confines (serves : Serves left) {c : Chain τ σ} {last : Stream σ}
    (reaches : c.Reaches left input last) (i : Nat) :
    c.Confines fun t => input.Has t ∧ i ≤ t.node := by
  rintro t u ⟨ht, le⟩ knows
  have hbound := ht.node_le
  have hplace : input.place (t.node + 1) = .ok u := by
    have hconsume := Chain.consume_of_knows knows
    rcases Chain.consume_cases serves reaches t with
      ⟨v, hv, hplace, -⟩ | ⟨v, found, hv, hplace, -⟩ | ⟨fault, broken, hv, -⟩
    · rw [hconsume] at hv
      cases hv
      exact hplace
    · rw [hconsume] at hv
      cases hv
      exact hplace
    · rw [hconsume] at hv
      cases hv
  obtain ⟨hnode, -, hu⟩ := Input.place_spec hplace
  exact ⟨hu, by omega⟩

/-- A parse leaves a node that is not behind the one that it was given. -/
theorem parse_forward (serves : Serves left) {fuel : Nat} {g : Grammar σ ν ε α} {s : Stream σ}
    {final : Session τ σ ε} {outcome : Outcome σ α}
    (scriptless : g.Throughout rules Grammar.Scriptless) (hs : input.Has s)
    (reaches : ∃ last, session.chain.Reaches left input last)
    (ended : g.parse rules fuel s session = .ok outcome final) :
    (input.Has outcome.rest ∧ s.node ≤ outcome.rest.node) ∧
    ∃ last, final.chain.Reaches left input last := by
  obtain ⟨last, hfinal⟩ := (Grammar.parse_closed (closed_reaches serves) fuel g s).ok reaches ended
  have hstart : input.Has s ∧ s.node ≤ s.node := ⟨hs, Nat.le_refl _⟩
  exact ⟨parse_confined (hfinal.confines serves s.node) (fun _ h => h) scriptless hstart ended
    fun _ _ knows => knows,
    last, hfinal⟩

/-- The grammar ends at all nodes of the input. -/
def Grammar.Settles (rules : Rules σ ν ε) (left : τ → List σ → Prop) (input : Input σ) (fuel : Nat)
    (g : Grammar σ ν ε α) : Prop :=
  ∀ (s : Stream σ) (session : Session τ σ ε), input.Has s →
  (∃ last, session.chain.Reaches left input last) →
    (g.parse rules fuel s).Ends session

theorem Plan.run_ends (serves : Serves left) {fuel : Nat}
    {definition : {β : Type} → Grammar σ ν ε β → Parser τ σ ε β}
    {answer : Stream σ → Message → Plan σ ν ε α} {p : Plan σ ν ε α}
    (lawful :
      p.Lawful (fun g => g.Throughout rules Grammar.Nameless ∧ g.Settles rules left input fuel)
        (fun _ => False) input.Has answer)
    (ends : p.Ends input.Has)
    (reaches : ∃ last, session.chain.Reaches left input last) :
    (p.run (fun g => g.parse rules fuel) definition).Ends session := by
  induction p generalizing session with
  | done notice outcome => cases notice <;> exact nofun
  | halt reason =>
    intro final halted
    cases halted
    exact ends rfl
  | consume s next ih =>
    refine Run.ends_bind (Run.consume_ends s session) fun rest middle moved => ?_
    have hmiddle := ((closed_reaches serves).consume s).ok reaches moved
    obtain ⟨last, hlast⟩ := hmiddle
    have hrest :=
      (hlast.confines serves 0 s rest ⟨lawful.1, Nat.zero_le _⟩ (Run.consume_knows moved)).1
    exact ih rest (lawful.2 rest hrest) (ends rest) ⟨last, hlast⟩
  | emit event next ih => exact ih lawful ends reaches
  | call hook next ih => exact ih lawful ends reaches
  | invoke g s next ih =>
    obtain ⟨⟨nameless, settles⟩, hs, -, hkeeps⟩ := lawful
    refine Run.ends_bind (settles s session hs reaches) fun reply middle ended => ?_
    obtain ⟨⟨hreply, le⟩, hmiddle⟩ :=
      parse_forward serves (nameless.imp fun _ h => h.scriptless) hs reaches ended
    exact ih reply (hkeeps reply hreply) (ends reply hreply le) hmiddle
  | follow g s => exact lawful.1.elim

/-- With a round for each symbol and one more, a grammar without names ends. -/
theorem Grammar.parse_ends (serves : Serves left) {rounds : Nat}
    (enough : input.symbols.length < rounds) {g : Grammar σ ν ε α}
    (nameless : g.Throughout rules Nameless) : g.Settles rules left input (rounds + 1) := by
  refine nameless.induction (motive := fun g => g.Settles rules left input (rounds + 1)) ?_
  intro β g throughout parts s session hs reaches
  have each : g.EachPart fun p => p.Throughout rules Nameless ∧
      p.Settles rules left input (rounds + 1) :=
    EachPart.mp (P := fun p => p.Throughout rules Nameless) (parts.imp fun _ settles nameless =>
      ⟨nameless, settles⟩)
      throughout.parts
  have lawful :=
    plan_lawful rules rounds hs (Or.inl throughout.self.scriptless) each throughout.self.definitions
  rw [parse_eq_run]
  exact Plan.run_ends serves lawful (plan_ends rules enough g hs) reaches

/-! ## Loops -/

/-- So many rounds are enough for the loop: it ends, and does the same with more of them. -/
def Run.Enough {γ : Type} (loop : Nat → Run τ σ ε γ) (rounds : Nat) (session : Session τ σ ε) :
    Prop :=
  (loop rounds).Ends session ∧ ∀ more, rounds ≤ more → loop more session = loop rounds session

theorem Plan.run_enough (serves : Serves left) {fuel : Nat}
    (definition : {β : Type} → Grammar σ ν ε β → Parser τ σ ε β)
    {answer : Stream σ → Message → Plan σ ν ε α} (loop : Nat → Plan σ ν ε α) {rounds : Nat}
    (lawful : (loop rounds).Lawful
      (fun g => g.Throughout rules Grammar.Nameless ∧ g.Settles rules left input fuel)
      (fun _ => False) input.Has answer)
    (ends : (loop rounds).Ends input.Has)
    (extends_ : ∀ more, rounds ≤ more → (loop rounds).Extends (loop more))
    (reaches : ∃ last, session.chain.Reaches left input last) :
    Run.Enough (fun n => (loop n).run (fun g => g.parse rules fuel) definition) rounds session := by
  have hends : ((loop rounds).run (fun g => g.parse rules fuel) definition).Ends session :=
    Plan.run_ends serves lawful ends reaches
  exact ⟨hends, fun more le => (extends_ more le).refines session hends⟩

variable {rounds : Nat} {s : Stream σ}

/-- A repetition makes at most one round for each symbol that is left, and one more. -/
theorem manyFrom_enough (serves : Serves left) (enough : input.symbols.length < rounds)
    {p : Grammar σ ν ε α} (nameless : p.Throughout rules Grammar.Nameless) (values : List α)
    (hs : input.Has s) (reaches : ∃ last, session.chain.Reaches left input last) :
    Run.Enough (fun n => Parser.manyFrom (p.parse rules (rounds + 1)) n values s)
      (input.remaining s + 1) session := by
  have hp := And.intro nameless (Grammar.parse_ends serves enough nameless)
  have hloop := Plan.run_enough serves (fun _ _ => Run.outOfFuel) (fun n => Plan.many p n values s)
    (Plan.passing_many hp _ values hs) (Plan.ends_many p values hs (Nat.lt_succ_self _))
    (fun _ le => Plan.extends_many p le values s) reaches
  simpa only [Plan.run_many] using hloop

theorem separatedFrom_enough (serves : Serves left) (enough : input.symbols.length < rounds)
    {p : Grammar σ ν ε α} {separator : Grammar σ ν ε β}
    (nameless : p.Throughout rules Grammar.Nameless)
    (hseparator : separator.Throughout rules Grammar.Nameless) (values : List α) (hs : input.Has s)
    (reaches : ∃ last, session.chain.Reaches left input last) :
    Run.Enough
      (fun n =>
        Parser.separatedFrom (p.parse rules (rounds + 1))
          (separator.parse rules (rounds + 1)) n values s)
      (input.remaining s + 1) session := by
  have hp := And.intro nameless (Grammar.parse_ends serves enough nameless)
  have hq := And.intro hseparator (Grammar.parse_ends serves enough hseparator)
  have hloop :=
    Plan.run_enough serves (fun _ _ => Run.outOfFuel)
      (fun n => Plan.separated p separator n values s) (Plan.passing_separated hp hq _ values hs)
    (Plan.ends_separated p separator values hs (Nat.lt_succ_self _))
    (fun _ le => Plan.extends_separated p separator le values s) reaches
  simpa only [Plan.run_separated] using hloop

/-- The result is that of a loop for which so many rounds are enough. -/
def Run.Rounds {γ : Type} (result : EStateM.Result Halt (Session τ σ ε) γ)
    (loop : Nat → Run τ σ ε γ) (rounds : Nat) (session : Session τ σ ε) : Prop :=
  result = loop rounds session ∧ Run.Enough loop rounds session

theorem many_rounds (serves : Serves left) (enough : input.symbols.length < rounds)
    {p : Grammar σ ν ε α} (nameless : p.Throughout rules Grammar.Nameless) (hs : input.Has s)
    (reaches : ∃ last, session.chain.Reaches left input last) :
    Run.Rounds ((Grammar.many p).parse rules (rounds + 1) s session)
      (fun n => Parser.manyFrom (p.parse rules (rounds + 1)) n [] s)
      (input.remaining s + 1) session := by
  have hloop := manyFrom_enough serves enough nameless [] hs reaches
  have hbound : input.remaining s ≤ input.symbols.length := Nat.sub_le _ _
  exact ⟨hloop.2 rounds (by omega), hloop⟩

theorem atLeast_rounds [Stored α] (serves : Serves left) (enough : input.symbols.length < rounds)
    {p : Grammar σ ν ε α} (nameless : p.Throughout rules Grammar.Nameless) {count : Nat}
    {values : List α} {u : Stream σ} {middle : Session τ σ ε} (hs : input.Has s)
    (reaches : ∃ last, session.chain.Reaches left input last)
    (counted : (Grammar.exactly p count).parse rules (rounds + 1) s session =
      .ok (.success values u) middle) :
    Run.Rounds ((Grammar.atLeast p count).parse rules (rounds + 1) s session)
      (fun n => Parser.manyFrom (p.parse rules (rounds + 1)) n values.reverse u)
      (input.remaining u + 1) middle := by
  have hexactly : (Grammar.exactly p count).Throughout rules Grammar.Scriptless :=
    .intro trivial (nameless.imp fun _ h => h.scriptless) trivial
  obtain ⟨⟨hrest, -⟩, hmiddle⟩ := parse_forward serves hexactly hs reaches counted
  have hu : input.Has u := hrest
  have hloop := manyFrom_enough serves enough nameless values.reverse hu hmiddle
  have hbound : input.remaining u ≤ input.symbols.length := Nat.sub_le _ _
  have hwhole : (Grammar.atLeast p count).parse rules (rounds + 1) s session =
      Parser.manyFrom (p.parse rules (rounds + 1)) rounds values.reverse u middle :=
        bind_of_ok counted _
  exact ⟨hwhole.trans (hloop.2 rounds (by omega)), hloop⟩

theorem separated_rounds (serves : Serves left) (enough : input.symbols.length < rounds)
    {p : Grammar σ ν ε α} {separator : Grammar σ ν ε β}
    (nameless : p.Throughout rules Grammar.Nameless)
    (hseparator : separator.Throughout rules Grammar.Nameless) {value : α} {u : Stream σ}
    {middle : Session τ σ ε} (hs : input.Has s)
    (reaches : ∃ last, session.chain.Reaches left input last)
    (first : p.parse rules (rounds + 1) s session = .ok (.success value u) middle) :
    Run.Rounds ((Grammar.separated p separator).parse rules (rounds + 1) s session)
      (fun n =>
        Parser.separatedFrom (p.parse rules (rounds + 1))
          (separator.parse rules (rounds + 1)) n [value] u)
      (input.remaining u + 1) middle := by
  obtain ⟨⟨hrest, -⟩, hmiddle⟩ :=
    parse_forward serves (nameless.imp fun _ h => h.scriptless) hs reaches first
  have hu : input.Has u := hrest
  have hloop := separatedFrom_enough serves enough nameless hseparator [value] hu hmiddle
  have hbound : input.remaining u ≤ input.symbols.length := Nat.sub_le _ _
  have hwhole : (Grammar.separated p separator).parse rules (rounds + 1) s session =
      Parser.separatedFrom (p.parse rules (rounds + 1)) (separator.parse rules (rounds + 1)) rounds
        [value] u middle :=
    bind_of_ok first _
  exact ⟨hwhole.trans (hloop.2 rounds (by omega)), hloop⟩

/-! ## What is met on the way -/

/-- A plan that becomes no other grammar gives what it tries one more fuel than it has rounds. -/
theorem Plan.Tries.fuel_eq {rounds fuel : Nat} {p : Plan σ ν ε α} {h : Grammar σ ν ε β}
    {t : Stream σ} {before : Session τ σ ε} (tries : p.Tries rules rounds session fuel h t before) :
    ∀ answer : Stream σ → Message → Plan σ ν ε α,
      p.Lawful (fun _ => True) (fun _ => False) (fun _ => True) answer → fuel = rounds + 1 := by
  induction tries with
  | consume _ _ ih => exact fun answer lawful => ih answer (lawful.2 _ trivial)
  | emit _ ih => exact ih
  | call _ ih => exact ih
  | here => exact fun _ _ => rfl
  | later _ _ ih => exact fun answer lawful => ih answer (lawful.2.2.2 _ trivial)
  | follow => exact fun _ lawful => lawful.1.elim

theorem Evaluates.fuel_eq {fuel less : Nat} {g : Grammar σ ν ε α} {h : Grammar σ ν ε β}
    {s t : Stream σ} {before : Session τ σ ε}
    (evaluates : Evaluates rules fuel g s session less h t before)
    (nameless : g.Throughout rules Grammar.Nameless) : less = fuel := by
  induction evaluates with
  | self => rfl
  | inside tries nested ih =>
    rename_i rounds fuel _ g p _ s t _ _ middle _
    have hp : p.Throughout rules Grammar.Nameless ∧ True :=
      tries.confined (V := fun _ => True) (fun _ _ _ _ => trivial)
        (fun _ h => Grammar.Nameless.scriptless h) _
        (nameless.plan_lawful rounds trivial (Or.inr fun _ => trivial)) fun _ _ knows => knows
    have lawful :=
      Grammar.plan_lawful (P := fun _ => True) (V := fun _ => True) rules rounds (s := s) trivial
        (Or.inr fun _ => trivial) (Grammar.eachPart_of_forall (fun _ => trivial) g)
        nameless.self.definitions
    exact (ih hp.1).trans (tries.fuel_eq _ lawful)

/-- What is evaluated in the course of a grammar without names is one itself, and is
evaluated at a node. -/
theorem Evaluates.nameless (serves : Serves left) {fuel less : Nat} {g : Grammar σ ν ε α}
    {h : Grammar σ ν ε β} {s t : Stream σ} {before : Session τ σ ε}
    (evaluates : Evaluates rules fuel g s session less h t before)
    (nameless : g.Throughout rules Grammar.Nameless) (hs : input.Has s)
    (reaches : ∃ last, session.chain.Reaches left input last) :
    h.Throughout rules Grammar.Nameless ∧ input.Has t ∧
    ∃ last, before.chain.Reaches left input last := by
  obtain ⟨last, hlast⟩ := evaluates.keeps (closed_reaches serves) reaches
  have hstart : input.Has s ∧ 0 ≤ s.node := ⟨hs, Nat.zero_le _⟩
  obtain ⟨hh, ht, -⟩ :=
    evaluates.confined (hlast.confines serves 0) (fun _ h => Grammar.Nameless.scriptless h) nameless
    hstart fun _ _ knows => knows
  exact ⟨hh, ht, last, hlast⟩

end

/-- Whatever was done before, a parse without names at a stream of a list comes to an outcome or to
a fault, and needs no more fuel than the list has symbols, and two. Each loop that it enters on the
way makes at most as many rounds as there are symbols left where it is entered, and one more. -/
theorem repetition_ends {source : τ} {capacity : Nat} {window : Window τ σ} (input : Input σ)
    (honest : Honest source input.symbols)
    (opened : Window.withCapacity source capacity = .ok window) (history : List (Nat × Action σ ε))
    (scriptless : ∀ step ∈ history, step.2.Scriptless) {s : Stream σ}
    (held : s ∈ ((Visit.ofWindow window input.start).actAll history).held) {g : Grammar σ ν ε α}
    (nameless : g.Throughout rules Grammar.Nameless) :
    let session := ((Visit.ofWindow window input.start).actAll history).session
    Run.Enough (fun fuel => g.parse rules fuel s) (input.symbols.length + 2) session ∧
    ∀ fuel, input.symbols.length + 2 ≤ fuel →
      (∀ {β : Type} {p : Grammar σ ν ε β} {less : Nat} {t : Stream σ} {before : Session τ σ ε},
        Evaluates rules fuel g s session less (.many p) t before →
        Run.Rounds ((Grammar.many p).parse rules less t before)
          (fun n => Parser.manyFrom (p.parse rules less) n [] t) (input.remaining t + 1) before) ∧
      (∀ {β : Type} [Stored β] {p : Grammar σ ν ε β} {count less : Nat} {t : Stream σ}
        {before : Session τ σ ε},
        Evaluates rules fuel g s session less (.atLeast p count) t before →
        ∀ values u middle,
        (Grammar.exactly p count).parse rules less t before = .ok (.success values u) middle →
        Run.Rounds ((Grammar.atLeast p count).parse rules less t before)
          (fun n => Parser.manyFrom (p.parse rules less) n values.reverse u)
          (input.remaining u + 1) middle) ∧
      ∀ {β γ : Type} {p : Grammar σ ν ε β} {separator : Grammar σ ν ε γ} {less : Nat} {t : Stream σ}
        {before : Session τ σ ε},
        Evaluates rules fuel g s session less (.separated p separator) t before →
        ∀ value u middle, p.parse rules less t before = .ok (.success value u) middle →
        Run.Rounds ((Grammar.separated p separator).parse rules less t before)
          (fun n =>
            Parser.separatedFrom (p.parse rules less) (separator.parse rules less) n [value] u)
          (input.remaining u + 1) middle := by
  intro session
  have hsound := Visit.sound_history honest opened history scriptless
  have hs : input.Has s := hsound.has_held s held
  have hends :=
    Grammar.parse_ends serves_honest (Nat.lt_succ_self _) nameless s session hs hsound.reaches
  refine ⟨⟨hends, fun more le => Grammar.parse_refines le g s session hends⟩, ?_⟩
  intro fuel enough
  obtain ⟨rounds, rfl⟩ : ∃ less, fuel = less + 1 := ⟨fuel - 1, by omega⟩
  have hrounds : input.symbols.length < rounds := by omega
  refine ⟨?_, ?_, ?_⟩
  · intro β p less t before evaluates
    obtain ⟨hinside, ht, hbefore⟩ := evaluates.nameless serves_honest nameless hs hsound.reaches
    rw [evaluates.fuel_eq nameless]
    exact many_rounds serves_honest hrounds hinside.parts ht hbefore
  · intro β _ p count less t before evaluates values u middle counted
    obtain ⟨hinside, ht, hbefore⟩ := evaluates.nameless serves_honest nameless hs hsound.reaches
    rw [evaluates.fuel_eq nameless] at counted ⊢
    exact atLeast_rounds serves_honest hrounds hinside.parts ht hbefore counted
  · intro β γ p separator less t before evaluates value u middle first
    obtain ⟨hinside, ht, hbefore⟩ := evaluates.nameless serves_honest nameless hs hsound.reaches
    rw [evaluates.fuel_eq nameless] at first ⊢
    exact separated_rounds serves_honest hrounds hinside.parts.1 hinside.parts.2 ht hbefore first

/-- A repetition of an item that may be empty, from the second of three symbols on. It stands still
before the third, where it ends with an error. -/
theorem repetition_ends_zeroWidth :
    let window : Window (Pieces Char) Char := ⟨⟨[['a'], ['a', 'b']]⟩, #[], 0, 1, false, #[]⟩
    let session : Session (Pieces Char) Char Unit :=
      ((Visit.ofWindow window .start).actAll [(0, .consume)]).session
    let item : Grammar Char (fun _ => Empty) Unit (Option Char) := .optional (.symbol 'a')
    let s : Stream Char := ⟨1, some 'a', ⟨1, 2, 1⟩⟩
    (∃ final, item.many.parse Rules.none 5 s session = .ok
      (.error ⟨2, some 'b', ⟨1, 3, 2⟩⟩ (.ofText Parser.zeroWidthRepetition)) final) ∧
      Run.Enough (fun fuel => item.many.parse Rules.none fuel s) 5 session ∧
      Run.Rounds (item.many.parse Rules.none 5 s session)
        (fun n => Parser.manyFrom (item.parse Rules.none 5) n [] s) 3 session := by
  intro window session item s
  have nameless : item.many.Throughout Rules.none Grammar.Nameless :=
    .intro trivial (.intro trivial (.intro trivial trivial trivial) trivial) trivial
  have honest : Honest (Pieces.mk [['a'], ['a', 'b']]) ['a', 'a', 'b'] := honest_pieces (by decide)
  have opened : Window.withCapacity (Pieces.mk [['a'], ['a', 'b']]) 0 = .ok window := rfl
  have scriptless : ∀ step ∈ [((0, .consume) : Nat × Action Char Unit)], step.2.Scriptless := by
    simp [Action.Scriptless]
  have held : s ∈ ((Visit.ofWindow window .start).actAll
      [((0, .consume) : Nat × Action Char Unit)]).held := by decide +kernel
  obtain ⟨hends, hloops⟩ :=
    repetition_ends ⟨['a', 'a', 'b'], .start⟩ honest opened _ scriptless held nameless
  exact ⟨Run.value?_eq_some (by decide +kernel), hends, (hloops 5 (Nat.le_refl 5)).1 .self⟩

end Rewind
