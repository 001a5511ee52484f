import Rewind.Proofs.Finality
import Rewind.Proofs.Listing

/-!
# Alternatives

A choice is the alternatives joined in order by `orElse`, whichever way they are grouped, with a
failure at the end. So it tries them one after another on the stream that it was given: those that
fail, and then one that does not (`Refuses`, `choice_cases`). What comes after that one is not
tried, and nothing depends on it.

The main theorem is `choice_algebra`.
-/
namespace Rewind

variable {τ σ ε α : Type} {ν : Type → Type}

namespace Parser

/-! ## Equations -/

theorem orElse_assoc (p q r : Parser τ σ ε α) : orElse (orElse p q) r = orElse p (orElse q r) := by
  funext s
  rw [orElse, orElse, bind_assoc]
  refine Plan.bind_outcome_congr (fun _ _ => rfl) (fun _ => rfl) (fun _ _ => rfl)

theorem orElse_choice (p : Parser τ σ ε α) (ps : List (Parser τ σ ε α)) :
    choice (p :: ps) = orElse p (choice ps) :=
  funext fun _ => Plan.bind_outcome_congr (fun _ _ => rfl) (fun _ => rfl) (fun _ _ => rfl)

theorem choice_eq_foldr (ps : List (Parser τ σ ε α)) : choice ps = ps.foldr orElse fail := by
  induction ps with
  | nil => rfl
  | cons p rest ih => rw [orElse_choice, ih, List.foldr_cons]

theorem choice_eq_foldl (p : Parser τ σ ε α) (ps : List (Parser τ σ ε α)) :
    choice (p :: ps) = orElse (ps.foldl orElse p) fail := by
  induction ps generalizing p with
  | nil => rfl
  | cons q rest ih =>
    rw [orElse_choice, orElse_choice, ← orElse_assoc, ← orElse_choice, ih, List.foldl_cons]

theorem choice_append (ps qs : List (Parser τ σ ε α)) :
    choice (ps ++ qs) = orElse (choice ps) (choice qs) := by
  induction ps with
  | nil => rfl
  | cons p rest ih => rw [List.cons_append, orElse_choice, orElse_choice, ih, orElse_assoc]

theorem optional_eq_orElse (p : Parser τ σ ε α) :
    optional p = orElse (map some p) (succeed none) := by
  funext s
  rw [orElse, map, bind_assoc]
  exact Plan.bind_outcome_congr (fun _ _ => rfl) (fun _ => rfl) (fun _ _ => rfl)

end Parser

variable [Source τ σ] [Symbol σ]

namespace Grammar

variable (rules : Rules σ ν ε) (fuel : Nat)

theorem choice_parse (parts : List (Grammar σ ν ε α)) :
    ((choice parts).parse rules (fuel + 1) : Parser τ σ ε α) =
      Parser.choice (parts.map fun p => p.parse rules (fuel + 1)) :=
  congrArg Parser.choice (List.ofFn_getElem_eq_map parts fun p =>
    (p.parse rules (fuel + 1) : Parser τ σ ε α))

omit [Source τ σ] in
theorem choice_plan (parts : List (Grammar σ ν ε α)) (s : Stream σ) :
    (choice parts).plan rules fuel s = Plan.choice s parts :=
  congrArg (Plan.choice s) List.ofFn_getElem

theorem foldr_orElse_parse (parts : List (Grammar σ ν ε α)) :
    ((parts.foldr orElse fail : Grammar σ ν ε α).parse rules (fuel + 1) : Parser τ σ ε α) =
      (parts.map fun p => p.parse rules (fuel + 1)).foldr Parser.orElse Parser.fail := by
  induction parts with
  | nil => rfl
  | cons p rest ih => exact congrArg (Parser.orElse (p.parse rules (fuel + 1))) ih

theorem foldl_orElse_parse (parts : List (Grammar σ ν ε α)) (p : Grammar σ ν ε α) :
    ((parts.foldl orElse p).parse rules (fuel + 1) : Parser τ σ ε α) =
      (parts.map fun q => q.parse rules (fuel + 1)).foldl Parser.orElse
        (p.parse rules (fuel + 1)) := by
  induction parts generalizing p with
  | nil => rfl
  | cons q rest ih => exact ih (.orElse p q)

theorem choice_foldr_parse (parts : List (Grammar σ ν ε α)) :
    ((choice parts).parse rules fuel : Parser τ σ ε α) =
      (parts.foldr orElse fail).parse rules fuel := by
  refine parse_congr (fun fuel => ?_) fuel
  rw [choice_parse, foldr_orElse_parse, Parser.choice_eq_foldr]

theorem choice_foldl_parse (p : Grammar σ ν ε α) (rest : List (Grammar σ ν ε α)) :
    ((choice (p :: rest)).parse rules fuel : Parser τ σ ε α) =
      (orElse (rest.foldl orElse p) fail).parse rules fuel := by
  refine parse_congr (fun fuel => ?_) fuel
  rw [choice_parse, List.map_cons, Parser.choice_eq_foldl, ← foldl_orElse_parse]
  rfl

theorem choice_append_parse (parts others : List (Grammar σ ν ε α)) :
    ((choice (parts ++ others)).parse rules fuel : Parser τ σ ε α) =
      (orElse (choice parts) (choice others)).parse rules fuel := by
  refine parse_congr (fun fuel => ?_) fuel
  rw [choice_parse, List.map_append, Parser.choice_append, ← choice_parse, ← choice_parse]
  rfl

end Grammar

/-! ## The first that does not fail -/

/-- The grammars fail on `s`, one after another. -/
inductive Refuses (rules : Rules σ ν ε) (fuel : Nat) (s : Stream σ) :
    List (Grammar σ ν ε α) → Session τ σ ε →
    Session τ σ ε → Prop
  | nil {session : Session τ σ ε} : Refuses rules fuel s [] session session
  | cons {p : Grammar σ ν ε α} {rest : List (Grammar σ ν ε α)} {t : Stream σ}
    {session middle final : Session τ σ ε} :
    p.parse rules fuel s session = .ok (.failure t) middle →
    Refuses rules fuel s rest middle final →
    Refuses rules fuel s (p :: rest) session final

variable {rules : Rules σ ν ε} {fuel : Nat} {s : Stream σ} {p : Grammar σ ν ε α}
  {before parts others : List (Grammar σ ν ε α)} {session middle final later : Session τ σ ε}
    {reply : Outcome σ α}

theorem Refuses.grows (refuses : Refuses rules fuel s parts session final) :
    session.chain.Grows final.chain := by
  induction refuses with
  | nil => exact fun _ _ knows => knows
  | cons hp _ ih => exact ((parse_replays fuel _ s).grows hp).trans ih

/-- What has failed fails again. -/
theorem Refuses.again (refuses : Refuses rules fuel s parts session final)
    (grows : final.chain.Grows later.chain) :
    ∀ q ∈ parts, ∃ t, Run.value? (q.parse rules fuel s later) = some (.failure t) := by
  induction refuses with
  | nil => simp
  | cons hp hrest ih =>
    intro q hq
    rcases List.mem_cons.mp hq with rfl | hq
    · exact ⟨_, (parse_replays fuel q s).value?_eq hp (hrest.grows.trans grows)⟩
    · exact ih grows q hq

/-- The alternatives that fail make no difference to those after them. -/
theorem Refuses.choice (refuses : Refuses rules fuel s before session middle)
    (rest : List (Grammar σ ν ε α)) :
    Parser.choice ((before ++ rest).map fun q => q.parse rules fuel) s session =
      Parser.choice (rest.map fun q => q.parse rules fuel) s middle := by
  induction refuses with
  | nil => rfl
  | cons hp _ ih =>
    rw [List.cons_append, List.map_cons, Parser.choice, bind_of_ok hp]
    exact ih

/-- An alternative that does not fail answers for the choice. -/
theorem choice_settled (answered : p.parse rules fuel s middle = .ok reply final)
    (settled : reply.isFailure = false) (rest : List (Grammar σ ν ε α)) :
    Parser.choice ((p :: rest).map fun q => q.parse rules fuel) s middle = .ok reply final := by
  rw [List.map_cons, Parser.choice, bind_of_ok answered]
  cases reply with
  | success value t => rfl
  | failure t => cases settled
  | error t message => rfl

/-- Either all alternatives fail, and the choice fails where it was tried, or the first that does
not fail answers. -/
theorem choice_cases
    (ended : Parser.choice (parts.map fun q => q.parse rules fuel) s session = .ok reply final) :
    Refuses rules fuel s parts session final ∧ reply = .failure s ∨
      ∃ before p after middle, parts = before ++ p :: after ∧
      Refuses rules fuel s before session middle ∧
        p.parse rules fuel s middle = .ok reply final ∧ reply.isFailure = false := by
  induction parts generalizing session with
  | nil =>
    cases ended
    exact Or.inl ⟨.nil, rfl⟩
  | cons p rest ih =>
    rw [List.map_cons, Parser.choice] at ended
    obtain ⟨outcome, middle, hp, hnext⟩ := bind_eq_ok.mp ended
    cases outcome with
    | success value t =>
      cases hnext
      exact Or.inr ⟨[], p, rest, session, rfl, .nil, hp, rfl⟩
    | failure t =>
      rcases ih hnext with ⟨hrest, rfl⟩ | ⟨before, q, after, last, rfl, hbefore, hq, hsettled⟩
      · exact Or.inl ⟨.cons hp hrest, rfl⟩
      · exact Or.inr ⟨p :: before, q, after, last, rfl, .cons hp hbefore, hq, hsettled⟩
    | error t message =>
      cases hnext
      exact Or.inr ⟨[], p, rest, session, rfl, .nil, hp, rfl⟩

/-- A choice tries the alternatives that fail, and one more. -/
theorem Completes.choice_length {rounds : Nat} {after : List (Grammar σ ν ε α)}
    {outcome : Outcome σ α} {last : Session τ σ ε} {traces : List (Trace σ)}
    (refuses : Refuses rules (rounds + 1) s before session middle)
    (answered : p.parse rules (rounds + 1) s middle = .ok reply final)
    (settled : reply.isFailure = false)
    (completes : Completes rules rounds (Plan.choice s (before ++ p :: after)) session outcome
      last traces) :
    traces.length = before.length + 1 := by
  induction refuses generalizing traces with
  | nil =>
    cases completes with
    | invoke hinside hnext =>
      have hparse := Grammar.parse_eq_ok_iff.mpr ⟨_, hinside⟩
      rw [answered] at hparse
      cases hparse
      cases reply with
      | success value t =>
        cases hnext
        rfl
      | failure t => cases settled
      | error t message =>
        cases hnext
        rfl
  | cons hp _ ih =>
    cases completes with
    | invoke hinside hnext =>
      have hparse := Grammar.parse_eq_ok_iff.mpr ⟨_, hinside⟩
      rw [hp] at hparse
      cases hparse
      rw [List.length_cons, List.length_cons, ih answered hnext]

/-- At each fuel and on every stream, a choice is the same function as its alternatives joined by
`orElse`, from the right or from the left, with a failure at the end; two choices joined are the
choice of both lists; `orElse` may be grouped either way; and an optional grammar is its value, or
none. Where a choice comes to an end, it does not fail exactly if an alternative does not fail on
its stream. It answers then as the first of these does; those before that one are tried and fail,
those after it are not tried, and whatever stood in their place would make no difference. -/
theorem choice_algebra (rules : Rules σ ν ε) (fuel : Nat) :
    (∀ parts : List (Grammar σ ν ε α),
      ((Grammar.choice parts).parse rules fuel : Parser τ σ ε α) =
        (parts.foldr Grammar.orElse Grammar.fail).parse rules fuel) ∧
    (∀ (p : Grammar σ ν ε α) (rest : List (Grammar σ ν ε α)),
      ((Grammar.choice (p :: rest)).parse rules fuel : Parser τ σ ε α) =
        (Grammar.orElse (rest.foldl .orElse p) .fail).parse rules fuel) ∧
    (∀ parts others : List (Grammar σ ν ε α),
      ((Grammar.choice (parts ++ others)).parse rules fuel : Parser τ σ ε α) =
        (Grammar.orElse (.choice parts) (.choice others)).parse rules fuel) ∧
    (∀ p q r : Grammar σ ν ε α,
      ((Grammar.orElse (.orElse p q) r).parse rules fuel : Parser τ σ ε α) =
        (Grammar.orElse p (.orElse q r)).parse rules fuel) ∧
    (∀ p : Grammar σ ν ε α,
      ((Grammar.optional p).parse rules fuel : Parser τ σ ε (Option α)) =
        (Grammar.orElse (.map some p) (.succeed none)).parse rules fuel) ∧
    ∀ (parts : List (Grammar σ ν ε α)) (s : Stream σ) (session final : Session τ σ ε)
      (reply : Outcome σ α),
      (Grammar.choice parts).parse rules fuel s session = .ok reply final →
      (∀ later : Session τ σ ε, final.chain.Grows later.chain →
        (reply.isFailure = false ↔
          ∃ p ∈ parts, ∃ other, Run.value? (p.parse rules fuel s later) = some other ∧
          other.isFailure = false)) ∧
      (reply.isFailure = true → reply = .failure s) ∧
      (reply.isFailure = false → ∃ before p after middle, parts = before ++ p :: after ∧
        Refuses rules fuel s before session middle ∧ p.parse rules fuel s middle = .ok reply final ∧
        (∀ later : Session τ σ ε, final.chain.Grows later.chain →
          (∀ q ∈ before, ∃ t, Run.value? (q.parse rules fuel s later) = some (.failure t)) ∧
          Run.value? (p.parse rules fuel s later) = some reply) ∧
        (∀ others, (Grammar.choice (before ++ p :: others)).parse rules fuel s session =
          .ok reply final) ∧
        ∀ tree, (Grammar.choice parts).Traced rules fuel s session reply final tree →
          ∃ inside, tree = .invocation .plain inside reply.erase ∧
          inside.length = before.length + 1) := by
  refine ⟨?_, ?_, ?_, ?_, ?_, ?_⟩
  · exact Grammar.choice_foldr_parse rules fuel
  · exact Grammar.choice_foldl_parse rules fuel
  · exact Grammar.choice_append_parse rules fuel
  · intro p q r
    refine Grammar.parse_congr (fun _ => ?_) fuel
    exact Parser.orElse_assoc _ _ _
  · intro p
    refine Grammar.parse_congr (fun _ => ?_) fuel
    exact Parser.optional_eq_orElse _
  · intro parts s session final reply ended
    obtain ⟨fuel, rfl⟩ : ∃ less, fuel = less + 1 := by
      cases fuel with
      | zero => cases ended
      | succ fuel => exact ⟨fuel, rfl⟩
    rw [Grammar.choice_parse] at ended
    rcases choice_cases ended with
      ⟨hall, rfl⟩ | ⟨before, p, after, middle, rfl, hbefore, hp, hsettled⟩
    · refine ⟨fun later grows => ⟨nofun, ?_⟩, fun _ => rfl, nofun⟩
      rintro ⟨q, hq, other, hvalue, hother⟩
      obtain ⟨t, hfails⟩ := hall.again grows q hq
      cases hvalue.symm.trans hfails
      cases hother
    · have hreplays : Run.Replays (p.parse rules (fuel + 1) s : Run τ σ ε (Outcome σ α)) :=
        parse_replays (fuel + 1) p s
      refine ⟨?_, ?_, fun _ => ⟨before, p, after, middle, rfl, hbefore, hp, ?_, ?_, ?_⟩⟩
      · exact fun later grows =>
          iff_of_true hsettled ⟨p, by simp, reply, hreplays.value?_eq hp grows, hsettled⟩
      · intro hfailure
        rw [hsettled] at hfailure
        cases hfailure
      · exact fun later grows =>
          ⟨hbefore.again ((hreplays.grows hp).trans grows), hreplays.value?_eq hp grows⟩
      · intro others
        rw [Grammar.choice_parse, hbefore.choice, choice_settled hp hsettled]
      · rintro tree ⟨less, inside, hfuel, completes, rfl⟩
        cases hfuel
        rw [Grammar.choice_plan] at completes
        exact ⟨inside, rfl, completes.choice_length hbefore hp hsettled⟩

/-- The first alternative fails after a symbol, the second ends the choice with an error, and the
third would match. -/
theorem choice_algebra_error :
    let p : Grammar Char (fun _ => Empty) Unit Char := .keepRight (.symbol 'a') (.symbol 'c')
    let q : Grammar Char (fun _ => Empty) Unit Char := .keepRight (.symbol 'a') (.error "stop")
    let opened : Stream Char × Session (Queue Char) Char Unit :=
      Session.ofWindow (.ofSource ⟨['a', 'b']⟩) .start
    ∃ reply final before r after middle,
      (Grammar.choice [p, q, .any]).parse Rules.none 3 opened.1 opened.2 = .ok reply final ∧
      reply.rest.node = 1 ∧ reply.message? = some (.ofText "stop") ∧
      [p, q, .any] = before ++ r :: after ∧
      Refuses Rules.none 3 opened.1 before opened.2 middle ∧
      r.parse Rules.none 3 opened.1 middle = .ok reply final ∧
      Run.value? (r.parse Rules.none 3 opened.1 final) = some reply := by
  intro p q opened
  obtain ⟨-, -, -, -, -, hchoice⟩ :=
    @choice_algebra (Queue Char) Char Unit Char (fun _ => Empty) _ _ Rules.none 3
  obtain ⟨final, ended⟩ : ∃ final, (Grammar.choice [p, q, .any]).parse Rules.none 3
      opened.1 opened.2 =
      .ok (.error ⟨1, some 'b', ⟨1, 2, 1⟩⟩ (.ofText "stop")) final :=
    Run.value?_eq_some (by decide +kernel)
  obtain ⟨-, -, hsettled⟩ := hchoice [p, q, .any] opened.1 opened.2 final _ ended
  obtain ⟨before, r, after, middle, hsplit, hbefore, hr, hlater, -⟩ := hsettled rfl
  exact ⟨_, final, before, r, after, middle, ended, rfl, rfl, hsplit, hbefore, hr,
    (hlater final fun _ _ knows => knows).2⟩

end Rewind
