import Rewind.Proofs.Sequencing

/-!
# Counts that the input cannot reach

A count is the number of times that a grammar is applied unless it gives up before (`GivesUp`). Then
the rounds that are left do not matter (`Passes.exactlyFrom`), and neither does the count. The one
thing that a count decides by itself is whether there is storage for so many values. It is reserved
before the first round, so that a count for which there is none stops the parse at once, however
soon the grammar would give up.
-/
namespace Rewind

variable {τ σ ε α : Type} {ν : Type → Type} [Source τ σ] [Symbol σ]

/-- Applied over and over, the grammar succeeds `k` times and then gives up. A failure is reported
where the grammar was tried, an error as it is. -/
def GivesUp (rules : Rules σ ν ε) (fuel : Nat) (p : Grammar σ ν ε α) (k : Nat) (s : Stream σ)
    (session : Session τ σ ε) (reply : Outcome σ (List α)) (final : Session τ σ ε) : Prop :=
  ∃ values t middle, Passes rules fuel (List.replicate k p) s session values t middle ∧
    ((∃ u, p.parse rules fuel t middle = .ok (.failure u) final ∧ reply = .failure t) ∨
      ∃ u message, p.parse rules fuel t middle = .ok (.error u message) final ∧
      reply = .error u message)

/-- Applied over and over, the grammar succeeds some times and then meets the fault. -/
def Faults (rules : Rules σ ν ε) (fuel : Nat) (p : Grammar σ ν ε α) (s : Stream σ)
    (session : Session τ σ ε) (fault : Fault) : Prop :=
  ∃ k values t middle final, Passes rules fuel (List.replicate k p) s session values t middle ∧
    p.parse rules fuel t middle = .error (.fault fault) final

variable {rules : Rules σ ν ε} {fuel k : Nat} {p : Grammar σ ν ε α}
  {parts more : List (Grammar σ ν ε α)}
  {s t u : Stream σ} {session middle final : Session τ σ ε} {values rest : List α} {fault : Fault}

theorem Passes.append (first : Passes rules fuel parts s session values t middle)
    (second : Passes rules fuel more t middle rest u final) :
    Passes rules fuel (parts ++ more) s session (values ++ rest) u final := by
  induction first with
  | nil => exact second
  | cons hp _ ih => exact .cons hp (ih second)

/-- Rounds that have succeeded leave the rounds after them. -/
theorem Passes.exactlyFrom
    (passes : Passes rules fuel (List.replicate k p) s session values t middle) (count : Nat)
    (before : List α) :
    Parser.exactlyFrom (p.parse rules fuel) (k + count) before s session =
      Parser.exactlyFrom (p.parse rules fuel) count (values.reverse ++ before) t middle := by
  induction k generalizing s session values before with
  | zero =>
    cases passes
    simp
  | succ k ih =>
    cases passes with
    | cons hp hrest =>
      rw [Nat.succ_add, Parser.exactlyFrom, bind_of_ok hp]
      simpa using ih hrest _

/-- One round more than there were successes is the last. -/
theorem GivesUp.exactlyFrom {reply : Outcome σ (List α)}
    (givesUp : GivesUp rules fuel p k s session reply final) {count : Nat} (lt : k < count) :
    Parser.exactlyFrom (p.parse rules fuel) count [] s session = .ok reply final := by
  obtain ⟨values, t, middle, passes, hends⟩ := givesUp
  obtain ⟨later, rfl⟩ : ∃ later, count = k + (later + 1) := ⟨count - k - 1, by omega⟩
  rw [passes.exactlyFrom, Parser.exactlyFrom]
  rcases hends with ⟨u, hfailed, rfl⟩ | ⟨u, message, herror, rfl⟩
  · rw [bind_of_ok hfailed]
    rfl
  · rw [bind_of_ok herror]
    rfl

theorem GivesUp.exactly [Stored α] {reply : Outcome σ (List α)}
    (givesUp : GivesUp rules fuel p k s session reply final) {count : Nat} (lt : k < count)
    (storage : HasStorage α count) :
    Parser.exactly (p.parse rules fuel) count s session = .ok reply final := by
  rw [Parser.exactly_of_storage storage]
  exact givesUp.exactlyFrom lt

theorem GivesUp.atLeast [Stored α] {reply : Outcome σ (List α)}
    (givesUp : GivesUp rules fuel p k s session reply final) {count : Nat} (lt : k < count)
    (storage : HasStorage α count) (rounds : Nat) :
    Parser.atLeast rounds (p.parse rules fuel) count s session = .ok reply final := by
  rw [Parser.atLeast, bind_of_ok (givesUp.exactly lt storage)]
  obtain ⟨values, t, middle, -, hends⟩ := givesUp
  rcases hends with ⟨u, -, rfl⟩ | ⟨u, message, -, rfl⟩ <;> rfl

/-! ## Faults -/

theorem Faults.later {value : α} (hp : p.parse rules fuel s session = .ok (.success value t) middle)
    (faults : Faults rules fuel p t middle fault) : Faults rules fuel p s session fault := by
  obtain ⟨k, values, u, last, final, passes, hfault⟩ := faults
  exact ⟨k + 1, value :: values, u, last, final, .cons hp passes, hfault⟩

theorem Faults.after (passes : Passes rules fuel (List.replicate k p) s session values t middle)
    (faults : Faults rules fuel p t middle fault) : Faults rules fuel p s session fault := by
  obtain ⟨later, rest, u, last, final, hlater, hfault⟩ := faults
  refine ⟨k + later, values ++ rest, u, last, final, ?_, hfault⟩
  rw [← List.replicate_append_replicate]
  exact passes.append hlater

/-- The rounds meet no fault but that of a round. -/
theorem exactlyFrom_faults (count : Nat) {before : List α}
    (halted : Parser.exactlyFrom (p.parse rules fuel) count before s session =
      .error (.fault fault) final) :
    Faults rules fuel p s session fault := by
  induction count generalizing s session before with
  | zero => cases halted
  | succ count ih =>
    rw [Parser.exactlyFrom] at halted
    cases hp : p.parse rules fuel s session with
    | error reason middle =>
      rw [bind_of_error hp] at halted
      cases halted
      exact ⟨0, [], s, session, _, .nil, hp⟩
    | ok reply middle =>
      rw [bind_of_ok hp] at halted
      cases reply with
      | success value next => exact .later hp (ih halted)
      | failure next => cases halted
      | error next message => cases halted

theorem manyFrom_faults (rounds : Nat) {before : List α}
    (halted : Parser.manyFrom (p.parse rules fuel) rounds before s session =
      .error (.fault fault) final) :
    Faults rules fuel p s session fault := by
  induction rounds generalizing s session before with
  | zero => cases halted
  | succ rounds ih =>
    rw [Parser.manyFrom] at halted
    cases hp : p.parse rules fuel s session with
    | error reason middle =>
      rw [bind_of_error hp] at halted
      cases halted
      exact ⟨0, [], s, session, _, .nil, hp⟩
    | ok reply middle =>
      rw [bind_of_ok hp] at halted
      cases reply with
      | success value next =>
        dsimp only at halted
        split at halted
        · cases halted
        · exact .later hp (ih halted)
      | failure next => cases halted
      | error next message => cases halted

/-- Where all rounds succeed, the stream that they leave is the one that so many
applications lead to. -/
theorem exactlyFrom_passes (count : Nat) {before all : List α}
    (ended : Parser.exactlyFrom (p.parse rules fuel) count before s session =
      .ok (.success all t) final) :
    ∃ values, Passes rules fuel (List.replicate count p) s session values t final := by
  induction count generalizing s session before with
  | zero =>
    cases ended
    exact ⟨[], .nil⟩
  | succ count ih =>
    rw [Parser.exactlyFrom] at ended
    obtain ⟨reply, middle, hp, hrest⟩ := bind_eq_ok.mp ended
    cases reply with
    | success value next =>
      obtain ⟨values, passes⟩ := ih hrest
      exact ⟨value :: values, .cons hp passes⟩
    | failure next => cases hrest
    | error next message => cases hrest

theorem exactly_faults [Stored α] {count : Nat} (storage : HasStorage α count)
    (halted : Parser.exactly (p.parse rules fuel) count s session = .error (.fault fault) final) :
    Faults rules fuel p s session fault := by
  rw [Parser.exactly_of_storage storage] at halted
  exact exactlyFrom_faults count halted

/-- The least number of rounds and those after it are rounds from one stream on. -/
theorem atLeast_faults [Stored α] {count rounds : Nat} (storage : HasStorage α count)
    (halted : Parser.atLeast rounds (p.parse rules fuel) count s session =
      .error (.fault fault) final) :
    Faults rules fuel p s session fault := by
  rw [Parser.atLeast] at halted
  cases hfirst : Parser.exactly (p.parse rules fuel) count s session with
  | error reason middle =>
    rw [bind_of_error hfirst] at halted
    cases halted
    exact exactly_faults storage hfirst
  | ok reply middle =>
    rw [bind_of_ok hfirst] at halted
    cases reply with
    | success all next =>
      rw [Parser.exactly_of_storage storage] at hfirst
      obtain ⟨values, passes⟩ := exactlyFrom_passes count hfirst
      exact .after passes (manyFrom_faults rounds halted)
    | failure next => cases halted
    | error next message => cases halted

/-- For counts that there is storage for, a count that is not reached does not matter: where a
grammar gives up before the lesser of two counts, repetition ends with the same reply and in the
same session whichever of them it is given, with the failure where the grammar was tried or with its
error, and such a repetition meets no fault but one that the grammar meets when it is applied over
and over. A count that takes more bytes than can be reserved stops the parse before the grammar is
tried at all. -/
theorem unreached_count [Stored α] (rules : Rules σ ν ε) (fuel : Nat) (p : Grammar σ ν ε α)
    (s : Stream σ) (session : Session τ σ ε) (m : Nat) :
    (m * Stored.width α < storageLimit →
      (∀ n k reply final, n ≤ m → k < n → GivesUp rules (fuel + 1) p k s session reply final →
        (Grammar.exactly p m).parse rules (fuel + 1) s session = .ok reply final ∧
        (Grammar.exactly p n).parse rules (fuel + 1) s session = .ok reply final ∧
        (Grammar.atLeast p m).parse rules (fuel + 1) s session = .ok reply final ∧
        (Grammar.atLeast p n).parse rules (fuel + 1) s session = .ok reply final) ∧
      ∀ fault final,
        (Grammar.exactly p m).parse rules (fuel + 1) s session = .error (.fault fault) final ∨
          (Grammar.atLeast p m).parse rules (fuel + 1) s session = .error (.fault fault) final →
        Faults rules (fuel + 1) p s session fault) ∧
    (storageLimit ≤ m * Stored.width α →
      (Grammar.exactly p m).parse rules (fuel + 1) s session =
        .error (.fault .capacityOverflow) session ∧
      (Grammar.atLeast p m).parse rules (fuel + 1) s session =
        .error (.fault .capacityOverflow) session) := by
  constructor
  · intro (storage : HasStorage α m)
    constructor
    · intro n k reply final le lt givesUp
      have hn : HasStorage α n := storage.mono le
      have hm : k < m := Nat.lt_of_lt_of_le lt le
      exact ⟨givesUp.exactly hm storage, givesUp.exactly lt hn, givesUp.atLeast hm storage fuel,
        givesUp.atLeast lt hn fuel⟩
    · rintro fault final (halted | halted)
      · exact exactly_faults storage halted
      · exact atLeast_faults storage halted
  · intro full
    have hfull : ¬ HasStorage α m := Nat.not_lt.mpr full
    exact ⟨Grammar.exactly_parse_of_full rules fuel hfull p s session,
      Grammar.atLeast_parse_of_full rules fuel hfull p s session⟩

/-- One letter that is there, then another: two repetitions and five fail at the other. -/
theorem unreached_count_two :
    let p : Grammar Char (fun _ => Empty) Unit Char := .symbol 'a'
    let window : Window (Queue Char) Char := .ofSource ⟨['a', 'b']⟩
    let s : Stream Char := (Chain.ofWindow window .start).1
    let session : Session (Queue Char) Char Unit := (Visit.ofWindow window .start).session
    let t : Stream Char := ⟨1, some 'b', ⟨1, 2, 1⟩⟩
    ∃ final, GivesUp Rules.none 3 p 1 s session (.failure t) final ∧
      (Grammar.exactly p 2).parse Rules.none 3 s session = .ok (.failure t) final ∧
      (Grammar.exactly p 5).parse Rules.none 3 s session = .ok (.failure t) final ∧
      (Grammar.atLeast p 2).parse Rules.none 3 s session = .ok (.failure t) final ∧
      (Grammar.atLeast p 5).parse Rules.none 3 s session = .ok (.failure t) final := by
  intro p window s session t
  obtain ⟨middle, hfirst⟩ :
      ∃ middle, p.parse Rules.none 3 s session = .ok (.success 'a' t) middle :=
    Run.value?_eq_some (by decide +kernel)
  have hsecond : p.parse Rules.none 3 t middle = .ok (.failure t) middle := rfl
  have givesUp : GivesUp Rules.none 3 p 1 s session (.failure t) middle :=
    ⟨['a'], t, middle, .cons hfirst .nil, Or.inl ⟨t, hsecond, rfl⟩⟩
  obtain ⟨hunreached, -⟩ := (unreached_count Rules.none 2 p s session 5).1 (by decide)
  obtain ⟨hmore, htwo, hleastMore, hleast⟩ :=
    hunreached 2 1 _ _ (by decide) (by decide) givesUp
  exact ⟨middle, givesUp, htwo, hmore, hleast, hleastMore⟩

/-- The letter is not there, which one repetition reports. So many that there is no storage for the
letters stop the parse, although none would have been found. Where the letters are not kept, as many
are no more than one. -/
theorem unreached_count_storage :
    let p : Grammar Char (fun _ => Empty) Unit Char := .symbol 'a'
    let window : Window (Queue Char) Char := .ofSource ⟨['b']⟩
    let s : Stream Char := (Chain.ofWindow window .start).1
    let session : Session (Queue Char) Char Unit := (Visit.ofWindow window .start).session
    let many : Nat := 1 <<< 63
    many < wordLimit ∧ GivesUp Rules.none 3 p 0 s session (.failure s) session ∧
      (Grammar.exactly p 1).parse Rules.none 3 s session = .ok (.failure s) session ∧
      (Grammar.exactly p many).parse Rules.none 3 s session =
        .error (.fault .capacityOverflow) session ∧
      (Grammar.atLeast p 1).parse Rules.none 3 s session = .ok (.failure s) session ∧
      (Grammar.atLeast p many).parse Rules.none 3 s session =
        .error (.fault .capacityOverflow) session ∧
      (Grammar.exactly (.ignore p) many).parse Rules.none 3 s session =
        .ok (.failure s) session := by
  intro p window s session many
  have givesUp : GivesUp Rules.none 3 p 0 s session (.failure s) session :=
    ⟨[], s, session, .nil, Or.inl ⟨s, rfl, rfl⟩⟩
  have hignored : GivesUp Rules.none 3 (.ignore p) 0 s session (.failure s) session :=
    ⟨[], s, session, .nil, Or.inl ⟨s, rfl, rfl⟩⟩
  have hone : (0 : Nat) < 1 := Nat.one_pos
  have hfull : ¬ HasStorage Char many := by decide
  have hunits : HasStorage Unit many := by decide
  exact ⟨by decide, givesUp, givesUp.exactly hone HasStorage.one,
    Grammar.exactly_parse_of_full Rules.none 2 hfull p s session,
    givesUp.atLeast hone HasStorage.one 2,
    Grammar.atLeast_parse_of_full Rules.none 2 hfull p s session,
    hignored.exactly (by decide) hunits⟩

end Rewind
