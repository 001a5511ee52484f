import Rewind.Proofs.Residual

/-!
# Parsers one after another

Whatever runs parsers one after another can be put together from a bind and a success. Those that
run two or three are the same function as what they can be put together from. A list of parsers is
the nested bind of its parts (`Grammar.gather`), except for the stream that it leaves where a part
fails: the list fails at the stream that the part was tried on, the bind at the one that the part
failed at, which lies ahead (`Gathers`, `FailsAt.ahead`).

The main theorem is `sequencing_nested_bind`.
-/
namespace Rewind

variable {τ σ ε α β γ : Type} {ν : Type → Type}

namespace Parser

/-! ## Equations -/

theorem map_eq_bind (f : α → β) (p : Parser τ σ ε α) : map f p = bind p fun a => succeed (f a) :=
  funext fun _ => Plan.bind_outcome_congr (fun _ _ => rfl) (fun _ => rfl) (fun _ _ => rfl)

theorem ignore_eq_bind (p : Parser τ σ ε α) : ignore p = bind p fun _ => succeed () :=
  map_eq_bind (fun _ => ()) p

theorem pair_eq_bind (p : Parser τ σ ε α) (q : Parser τ σ ε β) :
    pair p q = bind p fun a => bind q fun b => succeed (a, b) := by
  funext s
  refine Plan.bind_outcome_congr (fun a rest => ?_) (fun _ => rfl) (fun _ _ => rfl)
  exact congrFun (map_eq_bind (fun b => (a, b)) q) rest

theorem keepLeft_eq_bind (p : Parser τ σ ε α) (q : Parser τ σ ε β) :
    keepLeft p q = bind p fun a => bind q fun _ => succeed a := by
  funext s
  refine Plan.bind_outcome_congr (fun a rest => ?_) (fun _ => rfl) (fun _ _ => rfl)
  exact congrFun (map_eq_bind (fun _ => a) q) rest

theorem bind_succeed (p : Parser τ σ ε α) : bind p succeed = p := by
  funext s
  refine Eq.trans ?_ (bind_pure (p s))
  exact Plan.bind_outcome_congr (fun _ _ => rfl) (fun _ => rfl) (fun _ _ => rfl)

theorem keepRight_eq_bind (p : Parser τ σ ε α) (q : Parser τ σ ε β) :
    keepRight p q = bind p fun _ => bind q succeed := by
  rw [bind_succeed]
  rfl

theorem between_eq_bind (opening : Parser τ σ ε α) (p : Parser τ σ ε β) (closing : Parser τ σ ε γ) :
    between opening p closing = bind opening fun _ => bind p fun b => bind closing fun _ =>
      succeed b := by
  funext s
  refine Plan.bind_outcome_congr (fun _ rest => ?_) (fun _ => rfl) (fun _ _ => rfl)
  exact congrFun (keepLeft_eq_bind p closing) rest

/-- Values that are there already come before those to be found. -/
theorem sequenceFrom_eq_bind (values : List α) (ps : List (Parser τ σ ε α)) :
    sequenceFrom values ps = bind (sequence ps) fun more => succeed (values.reverse ++ more) := by
  suffices general : ∀ prior : List α, sequenceFrom (prior ++ values) ps =
      bind (sequenceFrom prior ps) fun more => succeed (values.reverse ++ more) from general []
  induction ps with
  | nil =>
    intro prior
    funext s
    simp [sequenceFrom, bind, succeed, Outcome.andThen]
  | cons p rest ih =>
    intro prior
    funext s
    simp only [sequenceFrom, bind, bind_assoc]
    refine Plan.bind_outcome_congr (fun value next => ?_) (fun _ => rfl) (fun _ _ => rfl)
    exact congrFun (ih (value :: prior)) next

theorem sequenceFrom_append (values : List α) (ps qs : List (Parser τ σ ε α)) :
    sequenceFrom values (ps ++ qs) =
      bind (sequenceFrom values ps) fun xs => bind (sequence qs) fun ys => succeed (xs ++ ys) := by
  induction ps generalizing values with
  | nil => exact sequenceFrom_eq_bind values qs
  | cons p rest ih =>
    funext s
    simp only [List.cons_append, sequenceFrom, bind, bind_assoc]
    refine Plan.bind_outcome_congr (fun value next => ?_) (fun _ => rfl) (fun _ _ => rfl)
    exact congrFun (ih (value :: values)) next

theorem exactlyFrom_eq_sequenceFrom (p : Parser τ σ ε α) (count : Nat) (values : List α) :
    exactlyFrom p count values = sequenceFrom values (List.replicate count p) := by
  induction count generalizing values with
  | zero => rfl
  | succ count ih =>
    funext s
    refine Plan.bind_outcome_congr (fun value next => ?_) (fun _ => rfl) (fun _ _ => rfl)
    exact congrFun (ih (value :: values)) next

theorem exactly_eq_sequence [Stored α] (p : Parser τ σ ε α) {count : Nat}
    (storage : HasStorage α count) :
    exactly p count = sequence (List.replicate count p) := by
  rw [exactly_of_storage storage, exactlyFrom_eq_sequenceFrom, sequence]

theorem exactly_add [Stored α] (p : Parser τ σ ε α) {n m : Nat} (storage : HasStorage α (n + m)) :
    exactly p (n + m) = bind (exactly p n) fun xs => bind (exactly p m) fun ys =>
      succeed (xs ++ ys) := by
  have hn : HasStorage α n := storage.mono (Nat.le_add_right n m)
  have hm : HasStorage α m := storage.mono (Nat.le_add_left m n)
  rw [exactly_eq_sequence p storage, exactly_eq_sequence p hn, exactly_eq_sequence p hm,
    ← List.replicate_append_replicate]
  exact sequenceFrom_append [] _ _

end Parser

/-! ## Lists of parsers -/

/-- The parsers tried in order, each by a bind, with the values so far. -/
def Grammar.gather (values : List α) : List (Grammar σ ν ε α) → Grammar σ ν ε (List α)
  | [] => .succeed values
  | p :: rest => .bind p fun value => gather (values ++ [value]) rest

variable [Source τ σ] [Symbol σ]

theorem Grammar.sequence_parse (rules : Rules σ ν ε) (fuel : Nat) (parts : List (Grammar σ ν ε α)) :
    ((sequence parts).parse rules (fuel + 1) : Parser τ σ ε (List α)) =
      Parser.sequence (parts.map fun p => p.parse rules (fuel + 1)) :=
  congrArg Parser.sequence (List.ofFn_getElem_eq_map parts fun p =>
    (p.parse rules (fuel + 1) : Parser τ σ ε α))

/-- The grammars succeed one after another: with which values, and on which stream and in which
session the last of them leaves off. -/
inductive Passes (rules : Rules σ ν ε) (fuel : Nat) :
    List (Grammar σ ν ε α) → Stream σ → Session τ σ ε →
    List α → Stream σ → Session τ σ ε → Prop
  | nil {s : Stream σ} {session : Session τ σ ε} : Passes rules fuel [] s session [] s session
  | cons {p : Grammar σ ν ε α} {rest : List (Grammar σ ν ε α)} {s next t : Stream σ}
    {session middle final : Session τ σ ε} {value : α} {values : List α} :
    p.parse rules fuel s session = .ok (.success value next) middle →
    Passes rules fuel rest next middle values t final →
    Passes rules fuel (p :: rest) s session (value :: values) t final

/-- One of the grammars is tried on `t`, after those before it, and fails at `u`. -/
def FailsAt (rules : Rules σ ν ε) (fuel : Nat) (parts : List (Grammar σ ν ε α)) (s : Stream σ)
    (session : Session τ σ ε) (t u : Stream σ) (final : Session τ σ ε) : Prop :=
  ∃ before p later values middle, parts = before ++ p :: later ∧
    Passes rules fuel before s session values t middle ∧
    p.parse rules fuel t middle = .ok (.failure u) final

/-- How a list of parsers ends, and how the nested bind of its parts does, after some values: in one
session and with one reply, but for the stream of a failure, or they halt for one reason. -/
inductive Gathers (rules : Rules σ ν ε) (fuel : Nat) (values : List α)
    (parts : List (Grammar σ ν ε α)) (s : Stream σ) (session : Session τ σ ε) :
    EStateM.Result Halt (Session τ σ ε) (Outcome σ (List α)) →
    EStateM.Result Halt (Session τ σ ε) (Outcome σ (List α)) → Prop
  | passed {more : List α} {t : Stream σ} {final : Session τ σ ε} :
    Passes rules fuel parts s session more t final →
    Gathers rules fuel values parts s session (.ok (.success (values ++ more) t) final)
      (.ok (.success (values ++ more) t) final)
  | failed {t u : Stream σ} {final : Session τ σ ε} : FailsAt rules fuel parts s session t u final →
    Gathers rules fuel values parts s session (.ok (.failure t) final) (.ok (.failure u) final)
  | broken (t : Stream σ) (message : Message) (final : Session τ σ ε) :
    Gathers rules fuel values parts s session (.ok (.error t message) final)
      (.ok (.error t message) final)
  | halted (reason : Halt) (final : Session τ σ ε) :
    Gathers rules fuel values parts s session (.error reason final) (.error reason final)

section Lists

variable {rules : Rules σ ν ε} {fuel : Nat} {p : Grammar σ ν ε α}
  {parts rest : List (Grammar σ ν ε α)}
  {s t u : Stream σ} {session middle final : Session τ σ ε}

theorem FailsAt.cons {value : α}
    (passed : p.parse rules fuel s session = .ok (.success value t) middle) {u v : Stream σ}
    (fails : FailsAt rules fuel rest t middle u v final) :
    FailsAt rules fuel (p :: rest) s session u v final := by
  obtain ⟨before, q, later, values, last, rfl, hbefore, hq⟩ := fails
  exact ⟨p :: before, q, later, value :: values, last, rfl, .cons passed hbefore, hq⟩

theorem Gathers.cons {value : α} {values : List α}
    {run other : EStateM.Result Halt (Session τ σ ε) (Outcome σ (List α))}
    (passed : p.parse rules fuel s session = .ok (.success value t) middle)
    (gathers : Gathers rules fuel (values ++ [value]) rest t middle run other) :
    Gathers rules fuel values (p :: rest) s session run other := by
  cases gathers with
  | passed hrest =>
    rw [List.append_assoc]
    exact .passed (.cons passed hrest)
  | failed hrest => exact .failed (hrest.cons passed)
  | broken t message final => exact .broken t message final
  | halted reason final => exact .halted reason final

/-- A list of parsers and the nested bind try the same parts on the same streams. -/
theorem sequenceFrom_gathers (rules : Rules σ ν ε) (fuel : Nat) (values : List α)
    (parts : List (Grammar σ ν ε α)) (s : Stream σ) (session : Session τ σ ε) :
    Gathers rules (fuel + 1) values parts s session
      (Parser.sequenceFrom values.reverse (parts.map fun p => p.parse rules (fuel + 1)) s session)
      ((Grammar.gather values parts).parse rules (fuel + 1) s session) := by
  induction parts generalizing values s session with
  | nil =>
    have hpassed : Gathers rules (fuel + 1) values [] s session
        (.ok (.success (values ++ []) s) session)
        (.ok (.success (values ++ []) s) session) := .passed .nil
    rw [List.map_nil, Parser.sequenceFrom, List.reverse_reverse]
    rwa [List.append_nil] at hpassed
  | cons p rest ih =>
    change Gathers _ _ _ _ _ _ _ (Parser.bind (p.parse rules (fuel + 1)) _ s session)
    rw [List.map_cons, Parser.sequenceFrom, Parser.bind]
    cases hp : p.parse rules (fuel + 1) s session with
    | error reason middle =>
      rw [bind_of_error hp, bind_of_error hp]
      exact .halted reason middle
    | ok reply middle =>
      rw [bind_of_ok hp, bind_of_ok hp]
      cases reply with
      | success value next =>
        have hrest := ih (values ++ [value]) next middle
        rw [List.reverse_append] at hrest
        exact hrest.cons hp
      | failure next => exact .failed ⟨[], p, rest, [], session, rfl, .nil, hp⟩
      | error next message => exact .broken next message middle

theorem sequence_gathers (rules : Rules σ ν ε) (fuel : Nat) (parts : List (Grammar σ ν ε α))
    (s : Stream σ) (session : Session τ σ ε) :
    Gathers rules fuel [] parts s session ((Grammar.sequence parts).parse rules fuel s session)
      ((Grammar.gather [] parts).parse rules fuel s session) := by
  cases fuel with
  | zero => exact .halted ..
  | succ fuel =>
    rw [Grammar.sequence_parse]
    exact sequenceFrom_gathers rules fuel [] parts s session

variable {first : Stream σ}

/-- Parsers that succeed one after another lead from nodes to nodes. -/
theorem Passes.node {values : List α} (passes : Passes rules fuel parts s session values t final)
    (scriptless : ∀ p ∈ parts, p.Throughout rules Grammar.Scriptless)
    (linked : session.chain.Linked first) (hs : session.chain.Node first s) :
    final.chain.Linked first ∧ final.chain.Node first t := by
  induction passes with
  | nil => exact ⟨linked, hs⟩
  | cons hp _ ih =>
    have hmiddle := (Grammar.parse_closed (closed_linked first) fuel _ _).ok linked hp
    have hnext := (parse_ahead (scriptless _ List.mem_cons_self) linked hs hp).1
    exact ih (fun q hq => scriptless q (List.mem_cons_of_mem _ hq)) hmiddle hnext

/-- The stream that a part fails at lies ahead of the one that it was tried on. -/
theorem FailsAt.ahead (fails : FailsAt rules fuel parts s session t u final)
    (scriptless : ∀ p ∈ parts, p.Throughout rules Grammar.Scriptless)
    (linked : session.chain.Linked first) (hs : session.chain.Node first s) :
    ∃ count, final.chain.Ahead count t u := by
  obtain ⟨before, p, later, values, middle, rfl, hbefore, hp⟩ := fails
  have hscriptless : ∀ q ∈ before, q.Throughout rules Grammar.Scriptless :=
    fun q hq => scriptless q (List.mem_append_left _ hq)
  obtain ⟨hlinked, ht⟩ := hbefore.node hscriptless linked hs
  exact (parse_ahead (scriptless p (by simp)) hlinked ht hp).2

end Lists

theorem Grammar.exactly_parse [Stored α] (rules : Rules σ ν ε) (fuel : Nat) (p : Grammar σ ν ε α)
    {n : Nat} (storage : HasStorage α n) :
    ((exactly p n).parse rules fuel : Parser τ σ ε (List α)) = (sequence (List.replicate n p)).parse
      rules fuel := by
  refine parse_congr (fun fuel => ?_) fuel
  rw [sequence_parse, List.map_replicate]
  exact Parser.exactly_eq_sequence _ storage

theorem Grammar.exactly_add_parse [Stored α] (rules : Rules σ ν ε) (fuel : Nat)
    (p : Grammar σ ν ε α) {n m : Nat} (storage : HasStorage α (n + m)) :
    ((exactly p (n + m)).parse rules fuel : Parser τ σ ε (List α)) =
      (bind (exactly p n) fun xs => bind (exactly p m) fun ys => succeed (xs ++ ys)).parse
        rules fuel := by
  refine parse_congr (fun fuel => ?_) fuel
  exact Parser.exactly_add (p.parse rules (fuel + 1)) storage

/-- At each fuel and on every stream, whatever runs parsers one after another does what a bind and a
success do. A map, an ignore, a pair, its halves and a between are the same function as what they
can be put together from. A list of any length ends together with the nested bind of its parts, in
the same reply, but for the stream of a failure: that of the list is the stream that the failing
part was tried on, from which that of the bind is so many steps ahead. A number of repetitions is
the list of so many copies, and that number in two parts, one after the other. -/
theorem sequencing_nested_bind (rules : Rules σ ν ε) (fuel : Nat) :
    (∀ (f : α → β) (p : Grammar σ ν ε α),
      ((Grammar.map f p).parse rules fuel : Parser τ σ ε β) =
        (Grammar.bind p fun a => .succeed (f a)).parse rules fuel) ∧
    (∀ p : Grammar σ ν ε α,
      ((Grammar.ignore p).parse rules fuel : Parser τ σ ε Unit) =
        (Grammar.bind p fun _ => .succeed ()).parse rules fuel) ∧
    (∀ (p : Grammar σ ν ε α) (q : Grammar σ ν ε β),
      ((Grammar.pair p q).parse rules fuel : Parser τ σ ε (α × β)) =
        (Grammar.bind p fun a => .bind q fun b => .succeed (a, b)).parse rules fuel) ∧
    (∀ (p : Grammar σ ν ε α) (q : Grammar σ ν ε β),
      ((Grammar.keepLeft p q).parse rules fuel : Parser τ σ ε α) =
        (Grammar.bind p fun a => .bind q fun _ => .succeed a).parse rules fuel) ∧
    (∀ (p : Grammar σ ν ε α) (q : Grammar σ ν ε β),
      ((Grammar.keepRight p q).parse rules fuel : Parser τ σ ε β) =
        (Grammar.bind p fun _ => .bind q fun b => .succeed b).parse rules fuel) ∧
    (∀ (opening : Grammar σ ν ε α) (p : Grammar σ ν ε β) (closing : Grammar σ ν ε γ),
      ((Grammar.between opening p closing).parse rules fuel : Parser τ σ ε β) =
        (Grammar.bind opening fun _ => .bind p fun b => .bind closing fun _ =>
          .succeed b).parse rules fuel) ∧
    (∀ (parts : List (Grammar σ ν ε α)) (s : Stream σ) (session : Session τ σ ε),
      Gathers rules fuel [] parts s session ((Grammar.sequence parts).parse rules fuel s session)
        ((Grammar.gather [] parts).parse rules fuel s session)) ∧
    (∀ (window : Window τ σ) (start : Position) (history : List (Nat × Action σ ε))
      (parts : List (Grammar σ ν ε α))
      (s t u : Stream σ) (final : Session τ σ ε),
      ((Visit.ofWindow window start).actAll history).session.chain.Node
        (Chain.ofWindow window start).1 s →
      (∀ p ∈ parts, p.Throughout rules Grammar.Scriptless) →
      FailsAt rules fuel parts s ((Visit.ofWindow window start).actAll history).session t u final →
      ∃ count, final.chain.consumeTimes t count = (.ok u, final.chain)) ∧
    (∀ [Stored α] (p : Grammar σ ν ε α) (n : Nat), HasStorage α n →
      ((Grammar.exactly p n).parse rules fuel : Parser τ σ ε (List α)) =
        (Grammar.sequence (List.replicate n p)).parse rules fuel) ∧
    ∀ [Stored α] (p : Grammar σ ν ε α) (n m : Nat), HasStorage α (n + m) →
      ((Grammar.exactly p (n + m)).parse rules fuel : Parser τ σ ε (List α)) =
        (Grammar.bind (.exactly p n) fun xs => .bind (.exactly p m) fun ys =>
          .succeed (xs ++ ys)).parse rules fuel := by
  refine ⟨?_, ?_, ?_, ?_, ?_, ?_, sequence_gathers rules fuel, ?_, ?_, ?_⟩
  · intro f p
    refine Grammar.parse_congr (fun _ => ?_) fuel
    exact Parser.map_eq_bind f _
  · intro p
    refine Grammar.parse_congr (fun _ => ?_) fuel
    exact Parser.ignore_eq_bind _
  · intro p q
    refine Grammar.parse_congr (fun _ => ?_) fuel
    exact Parser.pair_eq_bind _ _
  · intro p q
    refine Grammar.parse_congr (fun _ => ?_) fuel
    exact Parser.keepLeft_eq_bind _ _
  · intro p q
    refine Grammar.parse_congr (fun _ => ?_) fuel
    exact Parser.keepRight_eq_bind _ _
  · intro opening p closing
    refine Grammar.parse_congr (fun _ => ?_) fuel
    exact Parser.between_eq_bind _ _ _
  · intro window start history parts s t u final node scriptless fails
    have hlinked := Visit.actAll_keeps (closed_linked _) (v := Visit.ofWindow window start)
      (Chain.linked_ofWindow window start) history
    obtain ⟨count, hahead⟩ := fails.ahead scriptless hlinked node
    exact ⟨count, hahead.consumed⟩
  · exact fun p n storage => Grammar.exactly_parse rules fuel p storage
  · exact fun p n m storage => Grammar.exactly_add_parse rules fuel p storage

/-- A list whose second part fails after a symbol, and a number of repetitions in two parts. -/
theorem sequencing_nested_bind_list :
    let p : Grammar Char (fun _ => Empty) Unit Char := .symbol 'a'
    let q : Grammar Char (fun _ => Empty) Unit Char := .keepRight (.symbol 'b') (.symbol 'c')
    let window : Window (Queue Char) Char := .ofSource ⟨['a', 'b', 'x']⟩
    let s : Stream Char := (Chain.ofWindow window .start).1
    let session : Session (Queue Char) Char Unit := (Visit.ofWindow window .start).session
    (∃ (t u : Stream Char) (final : Session (Queue Char) Char Unit) (count : Nat),
      (Grammar.sequence [p, q]).parse Rules.none 4 s session = .ok (.failure t) final ∧ t.node = 1 ∧
        (Grammar.gather [] [p, q]).parse Rules.none 4 s session = .ok (.failure u) final ∧
        u.node = 2 ∧
        final.chain.consumeTimes t count = (.ok u, final.chain)) ∧
    ((Grammar.exactly p 2).parse Rules.none 4 : Parser (Queue Char) Char Unit (List Char)) =
      (Grammar.sequence [p, p]).parse Rules.none 4 ∧
    ((Grammar.exactly p (1 + 1)).parse Rules.none 4 : Parser (Queue Char) Char Unit (List Char)) =
      (Grammar.bind (.exactly p 1) fun xs => .bind (.exactly p 1) fun ys =>
        .succeed (xs ++ ys)).parse Rules.none 4 := by
  intro p q window s session
  have scriptless : ∀ g ∈ [p, q], g.Throughout Rules.none Grammar.Scriptless := by
    intro g hg
    rcases List.mem_cons.mp hg with rfl | hg
    · exact .intro trivial trivial trivial
    · rw [List.mem_singleton.mp hg]
      exact .intro trivial ⟨.intro trivial trivial trivial, .intro trivial trivial trivial⟩ trivial
  obtain ⟨-, -, -, -, -, -, hlists, hahead, hcopies, hparts⟩ :=
    @sequencing_nested_bind (Queue Char) Char Unit Char Char Char (fun _ => Empty) _ _ Rules.none 4
  refine ⟨?_, hcopies p 2 (by decide), hparts p 1 1 (by decide)⟩
  obtain ⟨final, hsequence⟩ : ∃ final, (Grammar.sequence [p, q]).parse Rules.none 4 s session =
      .ok (.failure ⟨1, some 'b', ⟨1, 2, 1⟩⟩) final :=
    Run.value?_eq_some (by decide +kernel)
  obtain ⟨after, hgather⟩ : ∃ after, (Grammar.gather [] [p, q]).parse Rules.none 4 s session =
      .ok (.failure ⟨2, some 'x', ⟨1, 3, 2⟩⟩) after :=
    Run.value?_eq_some (by decide +kernel)
  have hgathers := hlists [p, q] s session
  rw [hsequence, hgather] at hgathers
  cases hgathers with
  | failed fails =>
    obtain ⟨count, hcount⟩ := hahead window .start [] [p, q] s _ _ _ (Or.inl rfl) scriptless fails
    exact ⟨_, _, final, count, hsequence, rfl, hgather, rfl, hcount⟩

end Rewind
