import Rewind.Proofs.Nesting

/-!
# Lists of items

A list of items can be put together from other grammars: an item, then a separator and an item as
often as they come, and then no separator (`Grammar.listed`). Nothing is committed there. Where a
separator comes without an item after it, the repetition goes back to before the separator, and
finds the separator again.

`Listing` says how the items and separators of a list follow each other, and what the two
grammars reply in each case. The main theorem is `separated_listed`: the two end together and
reply like that.
-/
namespace Rewind

variable {τ σ ε α β : Type} {ν : Type → Type}

/-- An item, then as many separators as come with an item after them, then no separator. -/
def Grammar.listed (p : Grammar σ ν ε α) (separator : Grammar σ ν ε β) : Grammar σ ν ε (List α) :=
  .map (fun v => v.1 :: v.2)
    (.pair p (.keepLeft (.many (.keepRight separator p)) (.notAhead separator)))

/-- What may come after some items of a list, told by what the parsers answer in a session: first
the reply of the list, then that of `Grammar.listed`. -/
inductive Rounds (p : Parser τ σ ε α) (separator : Parser τ σ ε β) (session : Session τ σ ε) :
    List α → Stream σ → Outcome σ (List α) → Outcome σ (List α) → Prop
  | ended {items : List α} {s t : Stream σ} :
    Run.value? (separator s session) = some (.failure t) →
    Rounds p separator session items s (.success items s) (.success items s)
  | cut {items : List α} {s t : Stream σ} {message : Message} :
    Run.value? (separator s session) = some (.error t message) →
    Rounds p separator session items s (.error t message) (.error t message)
  /-- The list fails after the separator, the other grammar before it. -/
  | missing {items : List α} {s middle t : Stream σ} {b : β} :
    Run.value? (separator s session) = some (.success b middle) →
    Run.value? (p middle session) = some (.failure t) →
    Rounds p separator session items s (.failure middle) (.failure s)
  | broken {items : List α} {s middle t : Stream σ} {b : β} {message : Message} :
    Run.value? (separator s session) = some (.success b middle) →
    Run.value? (p middle session) = some (.error t message) →
    Rounds p separator session items s (.error t message) (.error t message)
  /-- Each refuses a round that moves nowhere, in its own words. -/
  | still {items : List α} {s middle next : Stream σ} {b : β} {value : α} :
    Run.value? (separator s session) = some (.success b middle) →
    Run.value? (p middle session) = some (.success value next) →
    next.position.index = s.position.index →
    Rounds p separator session items s (.error s (.ofText Parser.zeroWidthItem))
      (.error s (.ofText Parser.zeroWidthRepetition))
  | round {items : List α} {s middle next : Stream σ} {b : β} {value : α}
    {outcome other : Outcome σ (List α)} :
    Run.value? (separator s session) = some (.success b middle) →
    Run.value? (p middle session) = some (.success value next) →
    next.position.index ≠ s.position.index →
    Rounds p separator session (items ++ [value]) next outcome other →
    Rounds p separator session items s outcome other

/-- What may come of a list: there is no first item, or there is one and the rounds after it. -/
inductive Listing (p : Parser τ σ ε α) (separator : Parser τ σ ε β) (session : Session τ σ ε)
    (s : Stream σ) : Outcome σ (List α) → Outcome σ (List α) → Prop
  | failed {t : Stream σ} :
    Run.value? (p s session) = some (.failure t) →
    Listing p separator session s (.failure t) (.failure t)
  | broken {t : Stream σ} {message : Message} :
    Run.value? (p s session) = some (.error t message) →
    Listing p separator session s (.error t message) (.error t message)
  | begun {next : Stream σ} {value : α} {outcome other : Outcome σ (List α)} :
    Run.value? (p s session) = some (.success value next) →
    Rounds p separator session [value] next outcome other →
    Listing p separator session s outcome other

/-- A separator and an item come that take no input. -/
def StandsStill (p : Parser τ σ ε α) (separator : Parser τ σ ε β) (session : Session τ σ ε)
    (s : Stream σ) : Prop :=
  ∃ b middle value next, Run.value? (separator s session) = some (.success b middle) ∧
    Run.value? (p middle session) = some (.success value next) ∧
    next.position.index = s.position.index

/-- A separator comes with no item after it. -/
def Trails (p : Parser τ σ ε α) (separator : Parser τ σ ε β) (session : Session τ σ ε)
    (s middle : Stream σ) : Prop :=
  ∃ b t, Run.value? (separator s session) = some (.success b middle) ∧
    Run.value? (p middle session) = some (.failure t)

/-- The replies are of one kind. -/
def Outcome.SameKind (outcome : Outcome σ α) (other : Outcome σ β) : Prop :=
  outcome.isSuccess = other.isSuccess ∧ outcome.isFailure = other.isFailure ∧
  outcome.isError = other.isError

section Replies

variable {p : Parser τ σ ε α} {separator : Parser τ σ ε β} {session : Session τ σ ε}
  {items : List α} {s : Stream σ} {outcome other : Outcome σ (List α)}

theorem Rounds.sameKind (h : Rounds p separator session items s outcome other) :
    outcome.SameKind other := by
  induction h with
  | round _ _ _ _ ih => exact ih
  | _ => exact ⟨rfl, rfl, rfl⟩

theorem Rounds.success_iff (h : Rounds p separator session items s outcome other) (all : List α)
    (rest : Stream σ) :
    outcome = .success all rest ↔ other = .success all rest := by
  induction h with
  | ended => rfl
  | round _ _ _ _ ih => exact ih
  | _ => simp

theorem Rounds.error (h : Rounds p separator session items s outcome other)
    (error : outcome.isError = true) :
    ∃ t message message', outcome = .error t message ∧ other = .error t message' ∧
      message'.escalated = message.escalated ∧
      (message'.text = message.text ∨ StandsStill p separator session t ∧
        message = .ofText Parser.zeroWidthItem ∧
        message' = .ofText Parser.zeroWidthRepetition) := by
  induction h with
  | ended => cases error
  | missing => cases error
  | cut => exact ⟨_, _, _, rfl, rfl, rfl, Or.inl rfl⟩
  | broken => exact ⟨_, _, _, rfl, rfl, rfl, Or.inl rfl⟩
  | still hseparator hitem hstill =>
    exact ⟨_, _, _, rfl, rfl, rfl, Or.inr ⟨⟨_, _, _, _, hseparator, hitem, hstill⟩, rfl, rfl⟩⟩
  | round _ _ _ _ ih => exact ih error

theorem Rounds.failure (h : Rounds p separator session items s outcome other)
    (failure : outcome.isFailure = true) :
    ∃ t middle, Trails p separator session t middle ∧ outcome = .failure middle ∧
    other = .failure t := by
  induction h with
  | missing hseparator hitem => exact ⟨_, _, ⟨_, _, hseparator, hitem⟩, rfl, rfl⟩
  | round _ _ _ _ ih => exact ih failure
  | _ => cases failure

end Replies

/-- Two runs end together, in outcomes that are related, or halt together for one reason. -/
inductive Run.Together {γ δ : Type} (R : γ → Session τ σ ε → δ → Prop) :
    EStateM.Result Halt (Session τ σ ε) γ → EStateM.Result Halt (Session τ σ ε) δ → Prop
  | ended {a : γ} {b : δ} {final after : Session τ σ ε} : R a final b →
    Together R (.ok a final) (.ok b after)
  | halted (reason : Halt) (final after : Session τ σ ε) : Together R (.error reason final)
    (.error reason after)

theorem Run.Together.imp {γ δ : Type} {R S : γ → Session τ σ ε → δ → Prop}
    {run : EStateM.Result Halt (Session τ σ ε) γ} {other : EStateM.Result Halt (Session τ σ ε) δ}
    (h : Together R run other) (weaken : ∀ a final b, R a final b → S a final b) :
    Together S run other := by
  cases h with
  | ended related => exact .ended (weaken _ _ _ related)
  | halted reason final after => exact .halted reason final after

/-- The second run goes on to turn its value into another. -/
theorem Run.Together.answer {γ δ ζ : Type} {R : γ → Session τ σ ε → ζ → Prop} {f : δ → ζ}
    {run : EStateM.Result Halt (Session τ σ ε) γ} {y : Run τ σ ε δ} {session : Session τ σ ε}
    (h : Together (fun a final b => R a final (f b)) run (y session)) :
    Together R run ((do return f (← y) : Run τ σ ε ζ) session) := by
  generalize hy : y session = result at h
  cases h with
  | ended related =>
    rw [bind_of_ok hy]
    exact .ended related
  | halted reason final after =>
    rw [bind_of_error hy]
    exact .halted reason final after

theorem Outcome.map_map {γ δ : Type} (f : α → γ) (g : γ → δ) (outcome : Outcome σ α) :
    (outcome.map f).map g = outcome.map fun a => g (f a) := by
  cases outcome <;> rfl

theorem Run.value?_of_ok {γ : Type} {x : Run τ σ ε γ} {session final : Session τ σ ε} {a : γ}
    (h : x session = .ok a final) : Run.value? (x session) = some a := by
  rw [h, Run.value?]

/-- What a run came to it comes to again in each session that has grown from where it ended. -/
theorem Run.Replays.again {γ : Type} {x : Run τ σ ε γ} (replays : x.Replays)
    {session final last : Session τ σ ε} {a : γ} (h : x session = .ok a final)
    (grows : final.chain.Grows last.chain) :
    ∃ after, x last = .ok a after := by
  obtain ⟨after, hagain, -⟩ := (replays session last).2.1 a final h grows
  exact ⟨after, hagain⟩

theorem Run.Replays.grows {γ : Type} {x : Run τ σ ε γ} (replays : x.Replays)
    {session final : Session τ σ ε} {a : γ} (h : x session = .ok a final) :
    session.chain.Grows final.chain := by
  have hgrows := (replays session session).1
  rwa [h] at hgrows

theorem Run.Replays.value?_eq {γ : Type} {x : Run τ σ ε γ} (replays : x.Replays)
    {session final last : Session τ σ ε} {a : γ} (h : x session = .ok a final)
    (grows : final.chain.Grows last.chain) :
    Run.value? (x last) = some a := by
  obtain ⟨after, hagain⟩ := replays.again h grows
  exact Run.value?_of_ok hagain

section Runs

variable {p : Parser τ σ ε α} {separator : Parser τ σ ε β}

/-- One round of a repetition that something is to follow. -/
theorem keepLeft_manyFrom_succ (r : Parser τ σ ε α) (q : Parser τ σ ε β) (rounds : Nat)
    (values : List α) (s : Stream σ) :
    Parser.keepLeft (Parser.manyFrom r (rounds + 1) values) q s = (do
      match ← r s with
      | .success value next =>
        if next.position.index = s.position.index then
          Run.note (.zeroWidthRepetition s.position)
          return .error s (.ofText Parser.zeroWidthRepetition)
        else Parser.keepLeft (Parser.manyFrom r rounds (value :: values)) q next
      | .failure _ => return (← q s).map fun _ => values.reverse
      | .error next message => return .error next message) := by
  rw [Parser.keepLeft, Parser.manyFrom, bind_assoc]
  refine Plan.bind_outcome_congr (fun value next => ?_) (fun _ => rfl) (fun _ _ => rfl)
  dsimp only
  split
  · rfl
  · rfl

/-- From some items on, the list and the repetition make the same rounds in the same sessions. After
the last of them the repetition looks for a separator where the list has looked for one already. -/
theorem separatedFrom_together (hp : ∀ s, (p s).Replays) (hseparator : ∀ s, (separator s).Replays)
    (first : α) (rounds : Nat) (values : List α) (s : Stream σ) (session : Session τ σ ε) :
    Run.Together
      (fun outcome final other => session.chain.Grows final.chain ∧
        Rounds p separator final (first :: values.reverse) s outcome (other.map (first :: ·)))
      (Parser.separatedFrom p separator rounds (values ++ [first]) s session)
      (Parser.keepLeft (Parser.manyFrom (Parser.keepRight separator p) rounds values)
        (Parser.notAhead separator) s session) := by
  induction rounds generalizing values s session with
  | zero => exact .halted ..
  | succ rounds ih =>
    have hitems : (values ++ [first]).reverse = first :: values.reverse := by simp
    rw [Parser.separatedFrom, keepLeft_manyFrom_succ, Parser.keepRight, bind_assoc]
    cases hfirst : separator s session with
    | error reason middle =>
      rw [bind_of_error hfirst, bind_of_error hfirst]
      exact .halted ..
    | ok reply between =>
      have hgrown := (hseparator s).grows hfirst
      rw [bind_of_ok hfirst, bind_of_ok hfirst]
      cases reply with
      | error t message =>
        exact .ended ⟨hgrown, .cut ((hseparator s).value?_eq hfirst fun _ _ h => h)⟩
      | failure t =>
        -- The repetition ends here, and there is still no separator.
        obtain ⟨after, hagain⟩ := (hseparator s).again hfirst fun _ _ h => h
        have hclosed : Parser.notAhead separator s between = .ok (.success () s) after := by
          rw [Parser.notAhead, bind_of_ok hagain]
          rfl
        dsimp only [Outcome.andThen]
        rw [pure_bind]
        dsimp only
        rw [bind_of_ok hclosed, hitems]
        exact .ended ⟨hgrown, .ended (Run.value?_of_ok hagain)⟩
      | success b middle =>
        dsimp only [Outcome.andThen]
        cases hitem : p middle between with
        | error reason last =>
          rw [bind_of_error hitem, bind_of_error hitem]
          exact .halted ..
        | ok reply last =>
          have hfurther := (hp middle).grows hitem
          have hgrows := hgrown.trans hfurther
          have hseparated := (hseparator s).value?_eq hfirst hfurther
          have hvalue := (hp middle).value?_eq hitem fun _ _ h => h
          rw [bind_of_ok hitem, bind_of_ok hitem]
          cases reply with
          | error t message => exact .ended ⟨hgrows, .broken hseparated hvalue⟩
          | failure t =>
            -- The repetition goes back to before the separator, which is there again.
            obtain ⟨after, hagain⟩ := (hseparator s).again hfirst hfurther
            have hopen : Parser.notAhead separator s last = .ok (.failure s) after := by
              rw [Parser.notAhead, bind_of_ok hagain]
              rfl
            dsimp only
            rw [bind_of_ok hopen]
            exact .ended ⟨hgrows, .missing hseparated hvalue⟩
          | success value next =>
            dsimp only
            by_cases hstill : next.position.index = s.position.index
            · rw [if_pos hstill, if_pos hstill]
              have hnoted :
                  last.chain.Grows (last.noted (some (.zeroWidthItem s.position))).chain :=
                (last.chain.note_echoes _).grows
              exact .ended
                ⟨hgrows.trans hnoted,
                  .still ((hseparator s).value?_eq hfirst (hfurther.trans hnoted))
                    ((hp middle).value?_eq hitem hnoted) hstill⟩
            · rw [if_neg hstill, if_neg hstill]
              refine (ih (value :: values) next last).imp ?_
              rintro outcome final other ⟨hrest, hrounds⟩
              have hitems :
                  first :: (value :: values).reverse = first :: values.reverse ++ [value] := by
                simp
              rw [hitems] at hrounds
              exact ⟨hgrows.trans hrest,
                .round ((hseparator s).value?_eq hfirst (hfurther.trans hrest))
                ((hp middle).value?_eq hitem hrest) hstill hrounds⟩

/-- A list and what it can be put together from end together, or halt for one reason. -/
theorem separated_together (hp : ∀ s, (p s).Replays) (hseparator : ∀ s, (separator s).Replays)
    (rounds : Nat) (s : Stream σ) (session : Session τ σ ε) :
    Run.Together (fun outcome final other => Listing p separator final s outcome other)
      (Parser.separated rounds p separator s session)
      (Parser.map (fun v => v.1 :: v.2) (Parser.pair p
        (Parser.keepLeft (Parser.many rounds (Parser.keepRight separator p))
          (Parser.notAhead separator))) s
        session) := by
  rw [Parser.separated, Parser.map, Parser.pair, bind_assoc]
  cases hfirst : p s session with
  | error reason middle =>
    rw [bind_of_error hfirst, bind_of_error hfirst]
    exact .halted ..
  | ok reply middle =>
    have hreply := (hp s).value?_eq hfirst fun _ _ h => h
    rw [bind_of_ok hfirst, bind_of_ok hfirst]
    cases reply with
    | failure t => exact .ended (.failed hreply)
    | error t message => exact .ended (.broken hreply)
    | success first next =>
      dsimp only [Outcome.andThen]
      refine Run.Together.answer (Run.Together.answer ?_)
      refine (separatedFrom_together hp hseparator first rounds [] next middle).imp ?_
      rintro outcome final other ⟨grows, hrounds⟩
      rw [Outcome.map_map]
      exact .begun ((hp s).value?_eq hfirst grows) hrounds

end Runs

/-- On every stream and in every session a list of items with separators and what it can be put
together from end together, or halt for one reason. They reply in one kind and succeed alike. Their
errors are the same, but for the text where a separator and an item take no input: there each has
its own. They fail alike where there is no first item; where a separator comes without an item, the
list fails after it and the other before it. -/
theorem separated_listed [Source τ σ] [Symbol σ] (rules : Rules σ ν ε) (fuel : Nat)
    (p : Grammar σ ν ε α) (separator : Grammar σ ν ε β) (s : Stream σ) (session : Session τ σ ε) :
    Run.Together
      (fun outcome final other =>
        let item : Parser τ σ ε α := p.parse rules fuel
        let between : Parser τ σ ε β := separator.parse rules fuel
        Listing item between final s outcome other ∧ outcome.SameKind other ∧
        (∀ items rest, outcome = .success items rest ↔ other = .success items rest) ∧
        (outcome.isError = true → ∃ t message message', outcome = .error t message ∧
          other = .error t message' ∧
          message'.escalated = message.escalated ∧
          (message'.text = message.text ∨ StandsStill item between final t ∧
            message = .ofText Parser.zeroWidthItem ∧
            message' = .ofText Parser.zeroWidthRepetition)) ∧
        (outcome.isFailure = true →
          (∃ t, Run.value? (item s final) = some (.failure t) ∧ outcome = .failure t ∧
            other = .failure t) ∨
          ∃ t middle, Trails item between final t middle ∧ outcome = .failure middle ∧
          other = .failure t))
      ((Grammar.separated p separator).parse rules fuel s session)
      ((p.listed separator).parse rules fuel s session) := by
  cases fuel with
  | zero => exact .halted ..
  | succ fuel =>
    have hp : ∀ t, Run.Replays (p.parse rules (fuel + 1) t : Run τ σ ε (Outcome σ α)) :=
      parse_replays (fuel + 1) p
    have hseparator :
        ∀ t, Run.Replays (separator.parse rules (fuel + 1) t : Run τ σ ε (Outcome σ β)) :=
      parse_replays (fuel + 1) separator
    have htogether := separated_together hp hseparator fuel s session
    refine htogether.imp ?_
    intro outcome final other listing
    refine ⟨listing, ?_⟩
    cases listing with
    | failed hitem =>
      refine ⟨⟨rfl, rfl, rfl⟩, by simp, nofun, fun _ => Or.inl ⟨_, hitem, rfl, rfl⟩⟩
    | broken hitem =>
      exact ⟨⟨rfl, rfl, rfl⟩, by simp, fun _ => ⟨_, _, _, rfl, rfl, rfl, Or.inl rfl⟩, nofun⟩
    | begun _ rounds =>
      exact ⟨rounds.sameKind, rounds.success_iff, rounds.error, fun h => Or.inr (rounds.failure h)⟩

/-- A list that ends with a separator: the one fails at the end of the input, the other where the
separator is. -/
theorem separated_listed_trailing :
    let item : Grammar Char (fun _ => Empty) Unit Char := .symbol 'a'
    let comma : Grammar Char (fun _ => Empty) Unit Char := .symbol ','
    let opened : Stream Char × Session (Queue Char) Char Unit :=
      Session.ofWindow (.ofSource ⟨['a', ',', 'a', ',']⟩) .start
    ∃ final after t,
      (Grammar.separated item comma).parse Rules.none 4 opened.1 opened.2 =
        .ok (.failure ⟨4, none, ⟨1, 5, 4⟩⟩) final ∧
      (item.listed comma).parse Rules.none 4 opened.1 opened.2 = .ok (.failure t) after ∧
      t.node = 3 ∧
      Trails (item.parse Rules.none 4) (comma.parse Rules.none 4) final t ⟨4, none, ⟨1, 5, 4⟩⟩ := by
  intro item comma opened
  have htogether := separated_listed Rules.none 4 item comma opened.1 opened.2
  obtain ⟨final, hlist⟩ : ∃ final, (Grammar.separated item comma).parse Rules.none 4
      opened.1 opened.2 =
      .ok (.failure ⟨4, none, ⟨1, 5, 4⟩⟩) final :=
    Run.value?_eq_some (by decide +kernel)
  obtain ⟨after, hlisted⟩ : ∃ after, (item.listed comma).parse Rules.none 4 opened.1 opened.2 =
      .ok (.failure ⟨3, some ',', ⟨1, 4, 3⟩⟩) after :=
    Run.value?_eq_some (by decide +kernel)
  rw [hlist, hlisted] at htogether
  cases htogether with
  | ended related =>
    obtain ⟨-, -, -, -, hfailure⟩ := related
    rcases hfailure rfl with ⟨t, -, hfirst, hsame⟩ | ⟨t, middle, htrails, hafter, hbefore⟩
    · cases hfirst
      cases hsame
    · cases hafter
      cases hbefore
      exact ⟨final, after, _, hlist, hlisted, rfl, htrails⟩

end Rewind
