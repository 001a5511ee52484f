import Rewind.Proofs.Residual

/-!
# Repetition

A repetition climbs: each round succeeds further on than the one before (`Climbs`). It ends with a
round that fails, that stands still, or that ends with an error of its own (`Concludes`), and that
is all that there is to its reply (`many_yields_iff`). Asked for a number of rounds at least, a
repetition makes these without a look at where they lead, and goes on from there. That comes to the
same reply, or to a failure where the rounds are too few (`Climbs.atLeast_yields`).

The main theorem is `many_iterates`.
-/
namespace Rewind

variable {τ σ ε α : Type} {ν : Type → Type}

/-- As many values as asked for at least, else a failure where they end. -/
def Outcome.require (count : Nat) : Outcome σ (List α) → Outcome σ (List α)
  | .success values rest => if count ≤ values.length then .success values rest else .failure rest
  | outcome => outcome

variable [Source τ σ] [Symbol σ] {rules : Rules σ ν ε}

/-! ## Replies -/

/-- With enough fuel the grammar replies so, and leaves that session. -/
def Grammar.Yields (rules : Rules σ ν ε) (g : Grammar σ ν ε α) (s : Stream σ)
    (session : Session τ σ ε) (reply : Outcome σ α) (final : Session τ σ ε) : Prop :=
  ∃ fuel, g.parse rules fuel s session = .ok reply final

section Yields

variable {g : Grammar σ ν ε α} {s : Stream σ} {session final last : Session τ σ ε}
  {reply other : Outcome σ α}

theorem Grammar.Yields.eventually (h : g.Yields rules s session reply final) :
    ∃ least, ∀ fuel, least ≤ fuel → g.parse rules fuel s session = .ok reply final := by
  obtain ⟨least, ended⟩ := h
  exact ⟨least, fun fuel le => parse_mono le ended⟩

theorem Grammar.Yields.unique (h : g.Yields rules s session reply final)
    (h' : g.Yields rules s session other last) :
    reply = other ∧ final = last := by
  obtain ⟨least, hall⟩ := h.eventually
  obtain ⟨least', hall'⟩ := h'.eventually
  have hfirst := hall (max least least') (by omega)
  rw [hall' (max least least') (by omega)] at hfirst
  cases hfirst
  exact ⟨rfl, rfl⟩

end Yields

/-! ## Rounds -/

/-- The grammar succeeds again and again, each time further on: with which values, and on which
stream and in which session the last of them leaves off. -/
inductive Climbs (rules : Rules σ ν ε) (p : Grammar σ ν ε α) :
    Stream σ → Session τ σ ε → List α → Stream σ →
    Session τ σ ε → Prop
  | stay {s : Stream σ} {session : Session τ σ ε} : Climbs rules p s session [] s session
  | step {s next t : Stream σ} {session middle final : Session τ σ ε} {value : α}
    {values : List α} :
    p.Yields rules s session (.success value next) middle → s.position.index < next.position.index →
    Climbs rules p next middle values t final → Climbs rules p s session (value :: values) t final

/-- The last round of a repetition that has found some values, and the reply that it leads to. -/
inductive Concludes (rules : Rules σ ν ε) (p : Grammar σ ν ε α) (values : List α) (s : Stream σ)
    (session : Session τ σ ε) : Outcome σ (List α) → Session τ σ ε → Prop
  | fails {t : Stream σ} {final : Session τ σ ε} : p.Yields rules s session (.failure t) final →
    Concludes rules p values s session (.success values s) final
  | stalls {value : α} {next : Stream σ} {after : Session τ σ ε} :
    p.Yields rules s session (.success value next) after → next.position.index = s.position.index →
    Concludes rules p values s session (.error s (.ofText Parser.zeroWidthRepetition))
      (after.noted (some (.zeroWidthRepetition s.position)))
  | breaks {t : Stream σ} {message : Message} {final : Session τ σ ε} :
    p.Yields rules s session (.error t message) final →
    Concludes rules p values s session (.error t message) final

/-- After some rounds the grammar succeeds on `t` and stands still. -/
def Stalls (rules : Rules σ ν ε) (p : Grammar σ ν ε α) (s : Stream σ) (session : Session τ σ ε)
    (t : Stream σ) (final : Session τ σ ε) : Prop :=
  ∃ values before value next after, Climbs rules p s session values t before ∧
    p.Yields rules t before (.success value next) after ∧ next.position.index = t.position.index ∧
    final = after.noted (some (.zeroWidthRepetition t.position))

/-- After some rounds the grammar ends with an error of its own. -/
def BreaksOff (rules : Rules σ ν ε) (p : Grammar σ ν ε α) (s : Stream σ) (session : Session τ σ ε)
    (t : Stream σ) (message : Message) (final : Session τ σ ε) : Prop :=
  ∃ values u before, Climbs rules p s session values u before ∧
  p.Yields rules u before (.error t message) final

variable {p : Grammar σ ν ε α} {s t : Stream σ} {session before final : Session τ σ ε}
  {values more : List α} {reply : Outcome σ (List α)}

/-- There is one way up. -/
theorem Climbs.unique {t' : Stream σ} {before' : Session τ σ ε}
    (climbs : Climbs rules p s session values t before)
    (climbs' : Climbs rules p s session more t' before')
    (ends : ∀ value next after, p.Yields rules t before (.success value next) after →
      ¬ t.position.index < next.position.index)
    (ends' : ∀ value next after, p.Yields rules t' before' (.success value next) after →
      ¬ t'.position.index < next.position.index) :
    values = more ∧ t = t' ∧ before = before' := by
  induction climbs generalizing more with
  | stay =>
    cases climbs' with
    | stay => exact ⟨rfl, rfl, rfl⟩
    | step hp hup _ => exact absurd hup (ends _ _ _ hp)
  | step hp hup _ ih =>
    cases climbs' with
    | stay => exact absurd hup (ends' _ _ _ hp)
    | step hp' _ hrest =>
      obtain ⟨hreply, rfl⟩ := hp.unique hp'
      cases hreply
      obtain ⟨rfl, rfl, rfl⟩ := ih hrest ends
      exact ⟨rfl, rfl, rfl⟩

/-- Nothing both stands still and breaks off. -/
theorem Stalls.not_breaksOff {u : Stream σ} {message : Message} {last : Session τ σ ε}
    (stalls : Stalls rules p s session t final) : ¬ BreaksOff rules p s session u message last := by
  rintro ⟨more, v, before', climbs', herror⟩
  obtain ⟨values, before, value, next, after, climbs, hp, hstill, -⟩ := stalls
  have ends : ∀ value next after, p.Yields rules t before (.success value next) after →
      ¬ t.position.index < next.position.index := by
    intro value' next' after' h
    cases (hp.unique h).1
    omega
  have ends' : ∀ value next after, p.Yields rules v before' (.success value next) after →
      ¬ v.position.index < next.position.index := by
    intro value' next' after' h
    cases (herror.unique h).1
  obtain ⟨-, rfl, rfl⟩ := climbs.unique climbs' ends ends'
  cases (hp.unique herror).1

/-! ## From a run to its rounds -/

variable {first : Stream σ}

/-- On a node a success that moves at all moves on. -/
theorem Grammar.Yields.success_le {value : α} {next : Stream σ}
    (h : p.Yields rules s session (.success value next) final)
    (scriptless : p.Throughout rules Grammar.Scriptless) (linked : session.chain.Linked first)
    (hs : session.chain.Node first s) :
    final.chain.Linked first ∧ final.chain.Node first next ∧
    s.position.index ≤ next.position.index := by
  obtain ⟨fuel, ended⟩ := h
  obtain ⟨hnext, count, ahead⟩ := parse_ahead scriptless linked hs ended
  have hindex : next.position.index = s.position.index + count := ahead.index_eq
  exact ⟨(Grammar.parse_closed (closed_linked first) fuel p s).ok linked ended, hnext, by omega⟩

theorem manyFrom_concludes {fuel rounds : Nat} (scriptless : p.Throughout rules Grammar.Scriptless)
    (linked : session.chain.Linked first) (hs : session.chain.Node first s)
    (ended : Parser.manyFrom (p.parse rules fuel) rounds values s session = .ok reply final) :
    ∃ more t before, Climbs rules p s session more t before ∧
      Concludes rules p (values.reverse ++ more) t before reply final := by
  induction rounds generalizing values s session with
  | zero => cases ended
  | succ rounds ih =>
    rw [Parser.manyFrom] at ended
    obtain ⟨outcome, middle, hp, hnext⟩ := bind_eq_ok.mp ended
    have hyields : p.Yields rules s session outcome middle := ⟨fuel, hp⟩
    cases outcome with
    | failure t =>
      cases hnext
      refine ⟨[], s, session, .stay, ?_⟩
      rw [List.append_nil]
      exact .fails hyields
    | error t message =>
      cases hnext
      exact ⟨[], s, session, .stay, .breaks hyields⟩
    | success value next =>
      dsimp only at hnext
      by_cases hstill : next.position.index = s.position.index
      · rw [if_pos hstill] at hnext
        cases hnext
        exact ⟨[], s, session, .stay, .stalls hyields hstill⟩
      · rw [if_neg hstill] at hnext
        obtain ⟨hlinked, hnode, hle⟩ := hyields.success_le scriptless linked hs
        obtain ⟨more, t, before, hclimbs, hconcludes⟩ := ih hlinked hnode hnext
        rw [List.reverse_cons, List.append_assoc] at hconcludes
        exact ⟨value :: more, t, before, .step hyields (by omega) hclimbs, hconcludes⟩

/-! ## From rounds to a run -/

/-- The round that ends a repetition, made with enough fuel. -/
theorem Concludes.manyFrom (concludes : Concludes rules p values.reverse s session reply final) :
    ∃ least, ∀ fuel rounds, least ≤ fuel → least ≤ rounds →
      Parser.manyFrom (p.parse rules fuel) rounds values s session = .ok reply final := by
  obtain ⟨outcome, middle, hyields, hround⟩ : ∃ outcome middle, p.Yields rules s session
      outcome middle ∧
      ∀ fuel rounds, p.parse rules fuel s session = .ok outcome middle →
        Parser.manyFrom (p.parse rules fuel) (rounds + 1) values s session = .ok reply final := by
    cases concludes with
    | fails hp =>
      refine ⟨_, _, hp, fun fuel rounds h => ?_⟩
      rw [Parser.manyFrom, bind_of_ok h]
      rfl
    | stalls hp hstill =>
      refine ⟨_, _, hp, fun fuel rounds h => ?_⟩
      rw [Parser.manyFrom, bind_of_ok h]
      dsimp only
      rw [if_pos hstill]
      rfl
    | breaks hp =>
      refine ⟨_, _, hp, fun fuel rounds h => ?_⟩
      rw [Parser.manyFrom, bind_of_ok h]
      rfl
  obtain ⟨least, hall⟩ := hyields.eventually
  refine ⟨least + 1, ?_⟩
  intro fuel rounds hfuel hrounds
  obtain ⟨rounds, rfl⟩ : ∃ less, rounds = less + 1 := ⟨rounds - 1, by omega⟩
  exact hround fuel rounds (hall fuel (by omega))

theorem Climbs.manyFrom (values : List α) (climbs : Climbs rules p s session more t before)
    (concludes : Concludes rules p (values.reverse ++ more) t before reply final) :
    ∃ least, ∀ fuel rounds, least ≤ fuel → least ≤ rounds →
      Parser.manyFrom (p.parse rules fuel) rounds values s session = .ok reply final := by
  induction climbs generalizing values with
  | stay =>
    rw [List.append_nil] at concludes
    exact concludes.manyFrom
  | step hp hup hrest ih =>
    rename_i s next _ _ _ _ value more
    have hvalues : values.reverse ++ value :: more = (value :: values).reverse ++ more := by simp
    rw [hvalues] at concludes
    obtain ⟨least, hfurther⟩ := ih _ concludes
    obtain ⟨enough, hall⟩ := hp.eventually
    refine ⟨max least enough + 1, ?_⟩
    intro fuel rounds hfuel hrounds
    obtain ⟨rounds, rfl⟩ : ∃ less, rounds = less + 1 := ⟨rounds - 1, by omega⟩
    have hmoved : ¬ next.position.index = s.position.index := by omega
    rw [Parser.manyFrom, bind_of_ok (hall fuel (by omega))]
    dsimp only
    rw [if_neg hmoved]
    exact hfurther fuel rounds (by omega) (by omega)

/-- A repetition replies as its last round has it. -/
theorem many_yields_iff (scriptless : p.Throughout rules Grammar.Scriptless)
    (linked : session.chain.Linked first) (hs : session.chain.Node first s) :
    (Grammar.many p).Yields rules s session reply final ↔
      ∃ values t before, Climbs rules p s session values t before ∧
      Concludes rules p values t before reply final := by
  constructor
  · rintro ⟨fuel, ended⟩
    cases fuel with
    | zero => cases ended
    | succ fuel =>
      have hrounds : Parser.manyFrom (p.parse rules (fuel + 1)) fuel [] s session =
          .ok reply final := ended
      exact manyFrom_concludes scriptless linked hs hrounds
  · rintro ⟨values, t, before, climbs, concludes⟩
    obtain ⟨least, hall⟩ := climbs.manyFrom [] concludes
    exact ⟨least + 1, hall (least + 1) least (by omega) (by omega)⟩

/-! ## A number of rounds at least -/

omit [Source τ σ] [Symbol σ] in
theorem Outcome.require_of_le {count : Nat} {rest : Stream σ} (le : count ≤ values.length) :
    (Outcome.success values rest).require count = .success values rest := if_pos le

omit [Source τ σ] [Symbol σ] in
theorem Outcome.require_of_lt {count : Nat} {rest : Stream σ} (lt : values.length < count) :
    (Outcome.success values rest).require count = .failure rest := if_neg (by omega)

/-- The values that have been found are enough of themselves. -/
theorem Concludes.require_eq {count : Nat}
    (concludes : Concludes rules p values t before reply final) (le : count ≤ values.length) :
    reply.require count = reply := by
  cases concludes with
  | fails _ => exact Outcome.require_of_le le
  | stalls _ _ => rfl
  | breaks _ => rfl

/-- So many rounds counted off, and then the open-ended repetition. -/
theorem Climbs.exactlyFrom_andThen (values : List α) (count : Nat)
    (climbs : Climbs rules p s session more t before)
    (concludes : Concludes rules p (values.reverse ++ more) t before reply final)
    (moves : ∀ value next after, p.Yields rules t before (.success value next) after →
      next.position.index ≠ t.position.index) :
    ∃ least, ∀ fuel rounds, least ≤ fuel → least ≤ rounds →
      (do (← Parser.exactlyFrom (p.parse rules fuel) count values s).andThen fun all rest =>
        Parser.manyFrom (p.parse rules fuel) rounds all.reverse rest :
          Run τ σ ε (Outcome σ (List α))) session =
          .ok (reply.require (values.length + count)) final := by
  induction count generalizing values s session more with
  | zero =>
    have henough : values.length + 0 ≤ (values.reverse ++ more).length := by simp
    rw [concludes.require_eq henough]
    obtain ⟨least, hall⟩ := climbs.manyFrom values concludes
    refine ⟨least, fun fuel rounds hfuel hrounds => ?_⟩
    rw [Parser.exactlyFrom, pure_bind, Outcome.andThen, List.reverse_reverse]
    exact hall fuel rounds hfuel hrounds
  | succ count ih =>
    cases climbs with
    | stay =>
      cases concludes with
      | fails hp =>
        have hfew : (values.reverse ++ ([] : List α)).length < values.length + (count + 1) := by
          simp
        rw [Outcome.require_of_lt hfew]
        obtain ⟨least, hall⟩ := hp.eventually
        refine ⟨least, fun fuel rounds hfuel _ => ?_⟩
        rw [Parser.exactlyFrom, bind_assoc, bind_of_ok (hall fuel hfuel)]
        rfl
      | stalls hp hstill => exact absurd hstill (moves _ _ _ hp)
      | breaks hp =>
        obtain ⟨least, hall⟩ := hp.eventually
        refine ⟨least, fun fuel rounds hfuel _ => ?_⟩
        rw [Parser.exactlyFrom, bind_assoc, bind_of_ok (hall fuel hfuel)]
        rfl
    | step hp hup hrest =>
      rename_i next middle value more
      have hvalues : values.reverse ++ value :: more = (value :: values).reverse ++ more := by simp
      have hcount : values.length + (count + 1) = (value :: values).length + count := by
        rw [List.length_cons]
        omega
      rw [hvalues] at concludes
      obtain ⟨least, hfurther⟩ := ih (value :: values) hrest concludes
      obtain ⟨enough, hall⟩ := hp.eventually
      refine ⟨max least enough, fun fuel rounds hfuel hrounds => ?_⟩
      rw [hcount, Parser.exactlyFrom, bind_assoc, bind_of_ok (hall fuel (by omega))]
      exact hfurther fuel rounds (by omega) (by omega)

/-- A number of rounds at least comes to the same as the repetition, or to a failure where it
makes too few. -/
theorem Climbs.atLeast_yields [Stored α] {count : Nat} (storage : HasStorage α count)
    (climbs : Climbs rules p s session values t before)
    (concludes : Concludes rules p values t before reply final)
    (moves : ∀ value next after, p.Yields rules t before (.success value next) after →
      next.position.index ≠ t.position.index) :
    (Grammar.atLeast p count).Yields rules s session (reply.require count) final := by
  obtain ⟨least, hall⟩ := climbs.exactlyFrom_andThen [] count concludes moves
  have hrun := hall (least + 1) least (by omega) (Nat.le_refl least)
  rw [List.length_nil, Nat.zero_add] at hrun
  refine ⟨least + 1, ?_⟩
  change Parser.atLeast least (p.parse rules (least + 1)) count s session = _
  rw [Parser.atLeast, Parser.exactly_of_storage storage]
  exact hrun

theorem atLeast_zero [Stored α] (rules : Rules σ ν ε) (p : Grammar σ ν ε α) (fuel : Nat) :
    ((Grammar.atLeast p 0).parse rules fuel : Parser τ σ ε (List α)) =
      (Grammar.many p).parse rules fuel := by
  refine Grammar.parse_congr (fun fuel => ?_) fuel
  funext s
  change Parser.atLeast fuel (p.parse rules (fuel + 1)) 0 s =
      Parser.many fuel (p.parse rules (fuel + 1)) s
  rw [Parser.atLeast, Parser.exactly_of_storage HasStorage.zero, Parser.exactlyFrom, pure_bind]
  rfl

/-- In every session that a history leads to and on each of its nodes, a repetition succeeds exactly
if its grammar climbs with these values to the stream that is left and fails there. It ends with an
error exactly if the grammar climbs to where it stands still, and then the error says so, or to
where it ends with that error itself; never does it do both, and never does the repetition fail.
Where the grammar nowhere stands still, a repetition of so many rounds at least replies just as that
one does, or, when there are too few values, fails where they end. With no rounds asked for the two
are the same function. -/
theorem many_iterates (window : Window τ σ) (start : Position) (history : List (Nat × Action σ ε))
    {p : Grammar σ ν ε α} {s : Stream σ}
    (node : ((Visit.ofWindow window start).actAll history).session.chain.Node
      (Chain.ofWindow window start).1 s)
    (scriptless : p.Throughout rules Grammar.Scriptless) :
    let session := ((Visit.ofWindow window start).actAll history).session
    (∀ values t final, (Grammar.many p).Yields rules s session (.success values t) final ↔
      ∃ before u, Climbs rules p s session values t before ∧
        p.Yields rules t before (.failure u) final) ∧
    (∀ t message final, (Grammar.many p).Yields rules s session (.error t message) final ↔
      message = .ofText Parser.zeroWidthRepetition ∧ Stalls rules p s session t final ∨
        BreaksOff rules p s session t message final) ∧
    (∀ t u message final last, Stalls rules p s session t final →
      ¬ BreaksOff rules p s session u message last) ∧
    (∀ t final, ¬ (Grammar.many p).Yields rules s session (.failure t) final) ∧
    (∀ [Stored α] count, HasStorage α count → (∀ t final, ¬ Stalls rules p s session t final) →
      ∀ reply final, (Grammar.many p).Yields rules s session reply final →
        ∀ other last, (Grammar.atLeast p count).Yields rules s session other last ↔
          other = reply.require count ∧ last = final) ∧
    ∀ [Stored α] fuel, ((Grammar.atLeast p 0).parse rules fuel : Parser τ σ ε (List α)) =
      (Grammar.many p).parse rules fuel := by
  intro session
  have hlinked : session.chain.Linked (Chain.ofWindow window start).1 :=
    Visit.actAll_keeps (closed_linked _) (v := Visit.ofWindow window start)
      (Chain.linked_ofWindow window start) history
  have hmany : ∀ {reply : Outcome σ (List α)} {final : Session τ σ ε},
      (Grammar.many p).Yields rules s session reply final ↔
        ∃ values t before, Climbs rules p s session values t before ∧
        Concludes rules p values t before reply final :=
    many_yields_iff scriptless hlinked node
  refine ⟨?_, ?_, fun t u message final last stalls =>
    stalls.not_breaksOff, ?_, ?_, atLeast_zero rules p⟩
  · intro values t final
    rw [hmany]
    constructor
    · rintro ⟨values, t, before, climbs, concludes⟩
      cases concludes with
      | fails hp => exact ⟨before, _, climbs, hp⟩
    · rintro ⟨before, u, climbs, hp⟩
      exact ⟨values, t, before, climbs, .fails hp⟩
  · intro t message final
    rw [hmany]
    constructor
    · rintro ⟨values, u, before, climbs, concludes⟩
      cases concludes with
      | stalls hp hstill => exact Or.inl ⟨rfl, values, before, _, _, _, climbs, hp, hstill, rfl⟩
      | breaks hp => exact Or.inr ⟨values, u, before, climbs, hp⟩
    · rintro
        (⟨rfl, values, before, value, next, after, climbs, hp, hstill, rfl⟩ |
          ⟨values, u, before, climbs, hp⟩)
      · exact ⟨values, t, before, climbs, .stalls hp hstill⟩
      · exact ⟨values, u, before, climbs, .breaks hp⟩
  · intro t final
    rw [hmany]
    rintro ⟨values, u, before, climbs, concludes⟩
    cases concludes
  · intro _ count storage moving reply final hyields other last
    obtain ⟨values, t, before, climbs, concludes⟩ := hmany.mp hyields
    have hmoves : ∀ value next after, p.Yields rules t before (.success value next) after →
        next.position.index ≠ t.position.index :=
      fun value next after hp hstill =>
        moving t _ ⟨values, before, value, next, after, climbs, hp, hstill, rfl⟩
    have hatLeast := climbs.atLeast_yields storage concludes hmoves
    constructor
    · exact fun hother => hother.unique hatLeast
    · rintro ⟨rfl, rfl⟩
      exact hatLeast

/-- Two of a symbol, where three are asked for. -/
theorem many_iterates_twice :
    let window : Window (Queue Char) Char := .ofSource ⟨['a', 'a', 'b']⟩
    let p : Grammar Char (fun _ => Empty) Unit Char := .symbol 'a'
    let s : Stream Char := (Chain.ofWindow window .start).1
    let rest : Stream Char := ⟨2, some 'b', ⟨1, 3, 2⟩⟩
    let session : Session (Queue Char) Char Unit := (Visit.ofWindow window .start).session
    ∃ before u final,
      (Grammar.many p).Yields Rules.none s session (.success ['a', 'a'] rest) final ∧
      Climbs Rules.none p s session ['a', 'a'] rest before ∧
      p.Yields Rules.none rest before (.failure u) final ∧
      (Grammar.atLeast p 2).Yields Rules.none s session (.success ['a', 'a'] rest) final ∧
      (Grammar.atLeast p 3).Yields Rules.none s session (.failure rest) final := by
  intro window p s rest session
  have scriptless : p.Throughout Rules.none Grammar.Scriptless := .intro trivial trivial trivial
  have node :
      ((Visit.ofWindow window .start).actAll
          ([] : List (Nat × Action Char Unit))).session.chain.Node
        (Chain.ofWindow window .start).1 s :=
    Or.inl rfl
  obtain ⟨hsuccess, herror, -, -, hatLeast, -⟩ := many_iterates window .start [] node scriptless
  obtain ⟨final, ended⟩ :
      ∃ final, (Grammar.many p).parse Rules.none 4 s session =
        .ok (.success ['a', 'a'] rest) final :=
    Run.value?_eq_some (by decide +kernel)
  have hmany : (Grammar.many p).Yields Rules.none s session (.success ['a', 'a'] rest) final :=
    ⟨4, ended⟩
  obtain ⟨before, u, climbs, hp⟩ := (hsuccess _ _ _).mp hmany
  have moving : ∀ t last, ¬ Stalls Rules.none p s session t last := by
    intro t last stalls
    cases (hmany.unique ((herror t _ last).mpr (Or.inl ⟨rfl, stalls⟩))).1
  have htwo := (hatLeast 2 (by decide) moving _ final hmany _ final).mpr ⟨rfl, rfl⟩
  have hthree := (hatLeast 3 (by decide) moving _ final hmany _ final).mpr ⟨rfl, rfl⟩
  exact ⟨before, u, final, hmany, climbs, hp, htwo, hthree⟩

/-- The letter is not there, so that the repetition succeeds without a value and nowhere stands
still. Asked for more letters at least than there is storage for, though fewer than half the words,
it does not fail but stops the parse. -/
theorem many_iterates_storage :
    let p : Grammar Char (fun _ => Empty) Unit Char := .symbol 'a'
    let window : Window (Queue Char) Char := .ofSource ⟨['b']⟩
    let s : Stream Char := (Chain.ofWindow window .start).1
    let session : Session (Queue Char) Char Unit := (Visit.ofWindow window .start).session
    let count : Nat := 1 <<< 62
    count < 1 <<< 63 ∧ (∀ t last, ¬ Stalls Rules.none p s session t last) ∧
      (Grammar.many p).Yields Rules.none s session (.success [] s) session ∧
      (∀ reply last, ¬ (Grammar.atLeast p count).Yields Rules.none s session reply last) ∧
      (Grammar.atLeast p count).parse Rules.none 2 s session =
        .error (.fault .capacityOverflow) session := by
  intro p window s session count
  have hfails : p.Yields Rules.none s session (.failure s) session := ⟨1, rfl⟩
  have hfull : ¬ HasStorage Char count := by decide
  have hstops : ∀ fuel, (Grammar.atLeast p count).parse Rules.none (fuel + 1) s session =
      .error (.fault .capacityOverflow) session :=
    fun fuel => Grammar.atLeast_parse_of_full Rules.none fuel hfull p s session
  refine ⟨by decide, ?_, ⟨2, rfl⟩, ?_, hstops 1⟩
  · rintro t last ⟨values, before, value, next, after, climbs, hp, -⟩
    cases climbs with
    | stay => cases (hp.unique hfails).1
    | step hfirst _ _ => cases (hfirst.unique hfails).1
  · rintro reply last ⟨fuel, ended⟩
    cases fuel with
    | zero => cases ended
    | succ fuel =>
      rw [hstops] at ended
      cases ended

end Rewind
