import Rewind.Proofs.Derivation
import Rewind.Proofs.Ending

/-!
# Acceptance

A parse with a parsing expression does what the derivations say. What its parts answer is related to
their derivations (`Grammar.Answers`), a plan gives an answer that is related in the same way if its
parts do (`plan_gives`), and so does the whole parse. Since a parse without names ends, and a
derivation has one result at most, the parse succeeds or fails exactly if there is a derivation that
says so (`parse_iff_derives`).
-/
namespace Rewind

variable {τ σ ε α β : Type} {ν : Type → Type}

/-- The parsing expressions: symbols and runs of them, sequences, ordered choices, lookahead and
repetitions, and what becomes of their values. -/
def Grammar.Expression : Grammar σ ν ε α → Prop
  | .any | .satisfy _ | .symbol _ | .literal _ | .endOfInput | .succeed _ | .fail => True
  | .orElse .. | .choiceOf .. | .optional _ | .lookAhead _ | .notAhead _ | .filter .. | .map ..
  | .ignore _ => True
  | .pair .. | .keepLeft .. | .keepRight .. | .between .. | .sequenceOf .. => True
  | @Grammar.exactly .. | .many _ | @Grammar.atLeast .. => True
  | _ => False

theorem Grammar.Expression.nameless {g : Grammar σ ν ε α} (expression : g.Expression) :
    g.Nameless := by
  cases g with
  | rule | lazy | scripted => exact False.elim expression
  | _ => trivial

/-! ## The symbols from a node on -/

namespace Input

/-- The symbols from a stream on. -/
def suffix (input : Input σ) (s : Stream σ) : List σ := input.symbols.drop s.node

variable [Symbol σ] {input : Input σ} {s t : Stream σ} {a : σ}

theorem Has.suffix_none (hs : input.Has s) (h : s.current = none) : input.suffix s = [] := by
  rw [hs.current_eq] at h
  exact List.drop_eq_nil_iff.mpr (List.getElem?_eq_none_iff.mp h)

theorem Has.suffix_some (hs : input.Has s) (h : s.current = some a) :
    input.suffix s = a :: input.symbols.drop (s.node + 1) := by
  rw [hs.current_eq] at h
  obtain ⟨hlt, rfl⟩ := List.getElem?_eq_some_iff.mp h
  exact List.drop_eq_getElem_cons hlt

theorem Has.suffix_next (hs : input.Has s) (h : s.current = some a) (found : input.next s = .ok t) :
    input.suffix s = a :: input.suffix t := by
  rw [hs.suffix_some h, suffix, (next_some h found).1]

end Input

/-! ## Answers -/

variable [Symbol σ]

/-- The outcome agrees with the derivations of the grammar on the symbols from the stream on. The
only error is that of a repetition that goes nowhere. -/
def Grammar.Answers (input : Input σ) (g : Grammar σ ν ε α) (s : Stream σ) : Outcome σ α → Prop
  | .success value t => input.Has t ∧ Derives g (input.suffix s) (some (value, input.suffix t))
  | .failure _ => Derives g (input.suffix s) none
  | .error _ message => message = .ofText Parser.zeroWidthRepetition

section

variable {input : Input σ} {p : Grammar σ ν ε σ} {s t : Stream σ} {a : σ} {accepts : σ → Bool}

theorem Grammar.answers_end (derives : ∀ y, Derives p y (takeOne accepts y)) (hs : input.Has s)
    (h : s.current = none) (t : Stream σ) : p.Answers input s (.failure t) := by
  have hp := derives (input.suffix s)
  rw [hs.suffix_none h] at hp
  rwa [Grammar.Answers, hs.suffix_none h]

theorem Grammar.answers_rejected (derives : ∀ y, Derives p y (takeOne accepts y)) (hs : input.Has s)
    (h : s.current = some a) (rejected : accepts a = false) (t : Stream σ) :
    p.Answers input s (.failure t) := by
  have hp := derives (input.suffix s)
  rw [hs.suffix_some h, takeOne, rejected] at hp
  rwa [Grammar.Answers, hs.suffix_some h]

theorem Grammar.answers_accepted (derives : ∀ y, Derives p y (takeOne accepts y)) (hs : input.Has s)
    (h : s.current = some a) (accepted : accepts a = true) (found : input.next s = .ok t) :
    p.Answers input s (.success a t) := by
  have hp := derives (input.suffix s)
  rw [hs.suffix_next h found, takeOne, accepted] at hp
  rw [Grammar.Answers, hs.suffix_next h found]
  exact ⟨hs.next found, hp⟩

end

/-- If the parts answer as they ought to, the plan gives an answer that satisfies `Q`, or none. -/
def Plan.Gives (rules : Rules σ ν ε) (input : Input σ) (Q : Outcome σ α → Prop) :
    Plan σ ν ε α → Prop
  | .done _ outcome => Q outcome
  | .halt _ => True
  | .consume s next => ∀ t, input.next s = .ok t → (next t).Gives rules input Q
  | .emit _ next => next.Gives rules input Q
  | .call _ next => next.Gives rules input Q
  | .invoke p s next => p.Throughout rules Grammar.Expression ∧ input.Has s ∧
    ∀ reply, p.Answers input s reply → (next reply).Gives rules input Q
  | .follow _ _ => False

namespace Plan

variable {rules : Rules σ ν ε} {input : Input σ} {Q : Outcome σ α → Prop} {s start : Stream σ}

/-- A plan that is carried out on the list gives such an answer. -/
theorem Gives.read {inner : {β : Type} → Grammar σ ν ε β → Stream σ → Except Halt (Outcome σ β)}
    (answers : ∀ {β : Type} (p : Grammar σ ν ε β) (t : Stream σ) (reply : Outcome σ β),
      p.Throughout rules Grammar.Expression → input.Has t → inner p t = .ok reply →
      p.Answers input t reply)
    {p : Plan σ ν ε α} (gives : p.Gives rules input Q) {outcome : Outcome σ α}
    (h : p.read input inner = .ok outcome) : Q outcome := by
  induction p with
  | done notice reply =>
    cases h
    exact gives
  | halt reason => cases h
  | consume s next ih =>
    rw [Plan.read] at h
    cases hnext : input.next s with
    | ok t =>
      rw [hnext] at h
      exact ih t (gives t hnext) h
    | error fault =>
      rw [hnext] at h
      cases h
  | emit event next ih => exact ih gives h
  | call hook next ih => exact ih gives h
  | invoke p s next ih =>
    rw [Plan.read] at h
    obtain ⟨expression, hs, hkeeps⟩ := gives
    cases hinner : inner p s with
    | ok reply =>
      rw [hinner] at h
      exact ih reply (hkeeps reply (answers p s reply expression hs hinner)) h
    | error reason =>
      rw [hinner] at h
      cases h
  | follow g s => exact gives.elim

/-- A part is tried, and the error of a repetition passed on. -/
theorem gives_invoke {p : Grammar σ ν ε β} {next : Outcome σ β → Plan σ ν ε α}
    (expression : p.Throughout rules Grammar.Expression) (hs : input.Has s)
    (success : ∀ value t, input.Has t → Derives p (input.suffix s) (some (value, input.suffix t)) →
      (next (.success value t)).Gives rules input Q)
    (failure : Derives p (input.suffix s) none → ∀ t, (next (.failure t)).Gives rules input Q)
    (error : ∀ t, (next (.error t (.ofText Parser.zeroWidthRepetition))).Gives rules input Q) :
    (Plan.invoke p s next).Gives rules input Q := by
  refine ⟨expression, hs, fun reply answers => ?_⟩
  cases reply with
  | success value t => exact success value t answers.1 answers.2
  | failure t => exact failure answers t
  | error t message =>
    rw [show message = .ofText Parser.zeroWidthRepetition from answers]
    exact error t

theorem Gives.imp {R : Outcome σ α → Prop} (h : ∀ outcome, Q outcome → R outcome) {p : Plan σ ν ε α}
    (gives : p.Gives rules input Q) : p.Gives rules input R := by
  induction p with
  | done notice outcome => exact h outcome gives
  | halt reason => trivial
  | consume s next ih => exact fun t found => ih t (gives t found)
  | emit event next ih => exact ih gives
  | call hook next ih => exact ih gives
  | invoke p s next ih =>
    exact ⟨gives.1, gives.2.1, fun reply answers => ih reply (gives.2.2 reply answers)⟩
  | follow g s => exact gives.elim

theorem gives_literal {expected before left : List σ} (hs : input.Has s)
    (hexpected : expected = before ++ left)
    (hbefore : input.suffix start = before ++ input.suffix s) :
    (literal (ν := ν) (ε := ε) expected start left s).Gives rules input
      ((Grammar.literal (ν := ν) (ε := ε) expected).Answers input start) := by
  induction left generalizing before s with
  | nil =>
    refine ⟨hs, ?_⟩
    have hrun : takeRun expected (input.suffix start) = some (expected, input.suffix s) := by
      rw [hexpected, hbefore, takeRun_append]
      simp
    rw [← hrun]
    exact .literal
  | cons a rest ih =>
    rw [literal]
    split
    -- One more symbol moves from the run that is left to the run before it.
    · rename_i hcurrent
      intro t found
      have hpassed : input.suffix start = (before ++ [a]) ++ input.suffix t := by
        simp [hbefore, hs.suffix_next hcurrent found]
      exact ih (hs.next found) (by simp [hexpected]) hpassed
    · rename_i hcurrent
      have hrun : takeRun expected (input.suffix start) = none := by
        rw [hexpected, hbefore, takeRun_append, if_neg]
        intro hprefix
        cases hfirst : s.current with
        | none => simp [hs.suffix_none hfirst] at hprefix
        | some b =>
          rw [hs.suffix_some hfirst, List.cons_prefix_cons] at hprefix
          exact hcurrent (by rw [hfirst, hprefix.1])
      change Derives _ _ none
      rw [← hrun]
      exact .literal

theorem gives_choice {count : Nat} {parts : Fin count → Grammar σ ν ε α}
    (expressions : ∀ i, (parts i).Throughout rules Grammar.Expression) (hs : input.Has s) :
    (choice s (List.ofFn parts)).Gives rules input
      ((Grammar.choiceOf count parts).Answers input s) := by
  induction count with
  | zero => exact Derives.choiceNone
  | succ count ih =>
    rw [List.ofFn_succ]
    refine gives_invoke (expressions 0) hs (fun value t ht hp => ⟨ht, .choiceFirst hp⟩)
      (fun hp _ => ?_) fun _ => rfl
    refine (ih fun i => expressions i.succ).imp fun outcome answers => ?_
    cases outcome with
    | success value t => exact ⟨answers.1, .choiceLater hp answers.2⟩
    | failure t => exact .choiceLater hp answers
    | error t message => exact answers

theorem gives_sequence {count : Nat} {parts : Fin count → Grammar σ ν ε β}
    {Q : Outcome σ (List β) → Prop}
    (expressions : ∀ i, (parts i).Throughout rules Grammar.Expression) {values : List β}
    (hs : input.Has s)
    (success : ∀ more t, input.Has t → Derives (.sequenceOf count parts) (input.suffix s)
      (some (more, input.suffix t)) → Q (.success (values.reverse ++ more) t))
    (failure : Derives (.sequenceOf count parts) (input.suffix s) none → ∀ t, Q (.failure t))
    (error : ∀ t, Q (.error t (.ofText Parser.zeroWidthRepetition))) :
    (sequence values (List.ofFn parts) s).Gives rules input Q := by
  induction count generalizing values s with
  | zero =>
    have hdone := success [] s hs .sequenceNil
    rwa [List.append_nil] at hdone
  | succ count ih =>
    rw [List.ofFn_succ]
    refine gives_invoke (expressions 0) hs (fun value t ht hp => ?_)
      (fun hp _ => failure (.sequenceNone hp) _) error
    refine ih (fun i => expressions i.succ) ht (fun more u hu hrest => ?_) (fun hrest => ?_)
    · have hmore := success (value :: more) u hu (.sequenceCons hp hrest)
      rwa [List.reverse_cons, List.append_assoc]
    · exact failure (.sequenceCons hp hrest)

theorem gives_exactly [Stored β] {p : Grammar σ ν ε β} {Q : Outcome σ (List β) → Prop}
    {finish : List β → Stream σ → Plan σ ν ε (List β)}
    (expression : p.Throughout rules Grammar.Expression) {count : Nat} {values : List β}
    (hs : input.Has s)
    (success : ∀ more t, input.Has t →
      Derives (.exactly p count) (input.suffix s) (some (more, input.suffix t)) →
      (finish (more.reverse ++ values) t).Gives rules input Q)
    (failure : Derives (.exactly p count) (input.suffix s) none → ∀ t, Q (.failure t))
    (error : ∀ t, Q (.error t (.ofText Parser.zeroWidthRepetition))) :
    (exactly p finish count values s).Gives rules input Q := by
  induction count generalizing values s with
  | zero => exact success [] s hs .exactlyNil
  | succ count ih =>
    refine gives_invoke expression hs (fun value t ht hp => ?_)
      (fun hp _ => failure (.exactlyNone hp) _) error
    refine ih ht (fun more u hu hrest => ?_) (fun hrest => ?_)
    · have hmore := success (value :: more) u hu (.exactlyCons hp hrest)
      rwa [List.reverse_cons, List.append_assoc] at hmore
    · exact failure (.exactlyCons hp hrest)

theorem gives_many {p : Grammar σ ν ε β} {Q : Outcome σ (List β) → Prop}
    (expression : p.Throughout rules Grammar.Expression) {rounds : Nat} {values : List β}
    (hs : input.Has s)
    (success : ∀ more t, input.Has t →
      Derives (.many p) (input.suffix s) (some (more, input.suffix t)) →
      Q (.success (values.reverse ++ more) t))
    (error : ∀ t, Q (.error t (.ofText Parser.zeroWidthRepetition))) :
    (many p rounds values s).Gives rules input Q := by
  induction rounds generalizing values s with
  | zero => trivial
  | succ rounds ih =>
    refine gives_invoke expression hs (fun value t ht hp => ?_) (fun hp _ => ?_) error
    · dsimp only
      split
      · exact error s
      · refine ih ht fun more u hu hrest => ?_
        have hmore := success (value :: more) u hu (.manyMore hp hrest)
        rwa [List.reverse_cons, List.append_assoc]
    · have hdone := success [] s hs (.manyStop hp)
      rwa [List.append_nil] at hdone

end Plan

namespace Grammar

variable {rules : Rules σ ν ε} {input : Input σ}

open Plan in
theorem plan_gives (rounds : Nat) {g : Grammar σ ν ε α} {s : Stream σ}
    (expression : g.Throughout rules Expression) (hs : input.Has s) :
    (g.plan rules rounds s).Gives rules input (g.Answers input s) := by
  have parts := expression.parts
  cases g with
  | any =>
    rw [plan]
    cases hcurrent : s.current with
    | none => exact answers_end (fun _ => .any) hs hcurrent s
    | some a => exact fun t found => answers_accepted (fun _ => .any) hs hcurrent rfl found
  | satisfy accepts =>
    rw [plan]
    cases hcurrent : s.current with
    | none => exact answers_end (fun _ => .satisfy) hs hcurrent s
    | some a =>
      dsimp only [Gives]
      cases haccepts : accepts a with
      | true => exact fun t found => answers_accepted (fun _ => .satisfy) hs hcurrent haccepts found
      | false => exact answers_rejected (fun _ => .satisfy) hs hcurrent haccepts s
  | symbol expected =>
    rw [plan]
    cases hcurrent : s.current with
    | none => exact answers_end (fun _ => .symbol) hs hcurrent s
    | some a =>
      dsimp only
      split
      · rename_i heq
        exact fun t found =>
          answers_accepted (fun _ => .symbol) hs hcurrent (decide_eq_true heq) found
      · rename_i hne
        exact answers_rejected (fun _ => .symbol) hs hcurrent (decide_eq_false hne) s
  | literal expected =>
    have hall : expected = [] ++ expected := rfl
    exact gives_literal hs hall rfl
  | endOfInput =>
    have hend : Derives (endOfInput : Grammar σ ν ε Unit) (input.suffix s) _ := .endOfInput
    cases hcurrent : s.current with
    | none =>
      rw [if_pos (hs.suffix_none hcurrent)] at hend
      rw [plan, Stream.isEnd, hcurrent]
      exact ⟨hs, hend⟩
    | some a =>
      rw [if_neg (by simp [hs.suffix_some hcurrent])] at hend
      rw [plan, Stream.isEnd, hcurrent]
      exact hend
  | succeed value => exact ⟨hs, .succeed⟩
  | fail => exact Derives.fail
  | orElse p q =>
    refine gives_invoke parts.1 hs (fun value t ht hp => ⟨ht, .orElseFirst hp⟩)
      (fun hp _ => ?_) fun _ => rfl
    exact gives_invoke parts.2 hs (fun value t ht hq => ⟨ht, .orElseSecond hp hq⟩)
      (fun hq _ => .orElseSecond hp hq) fun _ => rfl
  | choiceOf count ps => exact gives_choice parts hs
  | optional p =>
    exact gives_invoke (p := p) parts hs (fun value t ht hp => ⟨ht, .optional hp⟩)
      (fun hp _ => ⟨hs, .optional hp⟩) fun _ => rfl
  | lookAhead p =>
    exact gives_invoke (p := p) parts hs (fun value t ht hp => ⟨hs, .lookAhead hp⟩)
      (fun hp _ => .lookAhead hp) fun _ => rfl
  | notAhead p =>
    exact gives_invoke (p := p) parts hs (fun value t ht hp => .notAhead hp)
      (fun hp _ => ⟨hs, .notAhead hp⟩) fun _ => rfl
  | filter accepts p =>
    refine gives_invoke (p := p) parts hs (fun value t ht hp => ?_)
      (fun hp _ => .filter hp) fun _ => rfl
    have hfilter : Derives (.filter accepts p) (input.suffix s) _ := .filter hp
    rw [Option.filter_some] at hfilter
    dsimp only [onSuccess, Gives, reply]
    split
    · rename_i accepted
      rw [if_pos accepted] at hfilter
      exact ⟨ht, hfilter⟩
    · rename_i rejected
      rwa [if_neg rejected] at hfilter
  | map f p =>
    exact gives_invoke (p := p) parts hs (fun value t ht hp => ⟨ht, .map hp⟩)
      (fun hp _ => .map hp) fun _ => rfl
  | ignore p =>
    exact gives_invoke (p := p) parts hs (fun value t ht hp => ⟨ht, .ignore hp⟩)
      (fun hp _ => .ignore hp) fun _ => rfl
  | pair p q =>
    refine gives_invoke parts.1 hs (fun a t ht hp => ?_) (fun hp _ => .pairNone hp) fun _ => rfl
    exact gives_invoke parts.2 ht (fun b u hu hq => ⟨hu, .pair hp hq⟩)
      (fun hq _ => .pair hp hq) fun _ => rfl
  | keepLeft p q =>
    refine gives_invoke parts.1 hs (fun a t ht hp => ?_) (fun hp _ => .keepLeftNone hp) fun _ => rfl
    exact gives_invoke parts.2 ht (fun b u hu hq => ⟨hu, .keepLeft hp hq⟩)
      (fun hq _ => .keepLeft hp hq) fun _ => rfl
  | keepRight p q =>
    refine gives_invoke parts.1 hs (fun a t ht hp => ?_) (fun hp _ => .keepRightNone hp) fun _ =>
      rfl
    exact gives_invoke parts.2 ht (fun b u hu hq => ⟨hu, .keepRight hp hq⟩)
      (fun hq _ => .keepRight hp hq) fun _ => rfl
  | between opening p closing =>
    refine gives_invoke parts.1 hs (fun a t ht ho => ?_) (fun ho _ => .betweenNone ho) fun _ => rfl
    refine gives_invoke parts.2.1 ht (fun b u hu hp => ?_)
      (fun hp _ => .betweenOpened ho hp) fun _ => rfl
    exact gives_invoke parts.2.2 hu (fun c v hv hc => ⟨hv, .between ho hp hc⟩)
      (fun hc _ => .between ho hp hc) fun _ => rfl
  | sequenceOf count ps =>
    exact gives_sequence parts hs (fun _ _ ht h => ⟨ht, h⟩) (fun h _ => h) fun _ => rfl
  | exactly p count =>
    rw [plan]
    split
    · refine gives_exactly parts hs (fun more t ht h => ⟨ht, ?_⟩) (fun h _ => h) fun _ => rfl
      simpa using h
    · trivial
  | many p => exact gives_many parts hs (fun _ _ ht h => ⟨ht, h⟩) fun _ => rfl
  | atLeast p count =>
    rw [plan]
    split
    · refine gives_exactly (p := p) parts hs (fun values t ht h => ?_)
        (fun h _ => .atLeastNone h) fun _ => rfl
      refine gives_many parts ht (fun more u hu hmore => ⟨hu, ?_⟩) fun _ => rfl
      simpa [convert] using Derives.atLeast h hmore
    · trivial
  | rule | lazy | scripted | error | cut | bind | separated | label | commit | attempt | boundary
  | spanned | inspect =>
    exact False.elim expression.self

/-- What an expression means on the list agrees with its derivations. -/
theorem read_answers {depth : Nat} {g : Grammar σ ν ε α} {s : Stream σ} {outcome : Outcome σ α}
    (expression : g.Throughout rules Expression) (hs : input.Has s)
    (h : g.read rules input depth s = .ok outcome) : g.Answers input s outcome := by
  induction depth generalizing α s with
  | zero => cases h
  | succ depth ih =>
    exact (plan_gives depth expression hs).read (fun p t reply hp ht hread => ih hp ht hread) h

end Grammar

omit [Symbol σ] in
/-- Of what is left of a list one can tell how much has gone. -/
theorem drop_injective {x : List σ} {i k : Nat} (hi : i ≤ x.length) (hk : k ≤ x.length)
    (h : x.drop i = x.drop k) :
    i = k := by
  have hlength := congrArg List.length h
  rw [List.length_drop, List.length_drop] at hlength
  omega

namespace Grammar.Answers

variable {input : Input σ} {g : Grammar σ ν ε α} {s : Stream σ} {outcome : Outcome σ α}

theorem success_iff (answers : g.Answers input s outcome) (le : s.node ≤ outcome.rest.node)
    (settled : ∀ t message, outcome ≠ .error t message) (value : α) {k : Nat}
    (hk : k ≤ input.symbols.length) :
    (∃ t, input.place k = .ok t ∧ outcome = .success value t) ↔
      s.node ≤ k ∧ Derives g (input.symbols.drop s.node) (some (value, input.symbols.drop k)) := by
  constructor
  · rintro ⟨t, hplace, rfl⟩
    have hnode : t.node = k := by
      have := (Input.place_spec hplace).1
      omega
    rw [← hnode]
    exact ⟨le, answers.2⟩
  · rintro ⟨-, hderives⟩
    cases outcome with
    | success other t =>
      have hsame := Prod.mk.inj (Option.some.inj (answers.2.unique hderives))
      rw [drop_injective hk answers.1.node_le hsame.2, hsame.1]
      exact ⟨t, answers.1, rfl⟩
    | failure t => cases Derives.unique answers hderives
    | error t message => exact absurd rfl (settled t message)

theorem failure_iff (answers : g.Answers input s outcome)
    (settled : ∀ t message, outcome ≠ .error t message) :
    (∃ t, outcome = .failure t) ↔ Derives g (input.symbols.drop s.node) none := by
  constructor
  · rintro ⟨t, rfl⟩
    exact answers
  · intro hderives
    cases outcome with
    | success value t => cases answers.2.unique hderives
    | failure t => exact ⟨t, rfl⟩
    | error t message => exact absurd rfl (settled t message)

end Grammar.Answers

/-- Whatever was done before, a parse with a parsing expression at a stream of a list, given fuel
enough, does what the derivations say, unless it meets a fault or a repetition that goes nowhere: it
succeeds with a value and leaves the node at an offset exactly if the expression yields that value
from the symbols between the two offsets, it fails exactly if the expression does, and it never ends
with an error. -/
theorem parse_iff_derives [Source τ σ] {source : τ} {capacity : Nat} {window : Window τ σ}
    (input : Input σ) (honest : Honest source input.symbols)
    (opened : Window.withCapacity source capacity = .ok window) (history : List (Nat × Action σ ε))
    (scriptless : ∀ step ∈ history, step.2.Scriptless) {s : Stream σ}
    (held : s ∈ ((Visit.ofWindow window input.start).actAll history).held) {rules : Rules σ ν ε}
    {g : Grammar σ ν ε α} (expression : g.Throughout rules Grammar.Expression) {fuel : Nat}
    (enough : input.symbols.length + 2 ≤ fuel)
    (faultless : ∀ fault final,
      g.parse rules fuel s ((Visit.ofWindow window input.start).actAll history).session ≠
        .error (.fault fault) final)
    (moving : ∀ t final,
      g.parse rules fuel s ((Visit.ofWindow window input.start).actAll history).session ≠
        .ok (.error t (.ofText Parser.zeroWidthRepetition)) final) :
    let result := g.parse rules fuel s ((Visit.ofWindow window input.start).actAll history).session
    (∀ value, ∀ k ≤ input.symbols.length,
      (∃ t final, input.place k = .ok t ∧ result = .ok (.success value t) final) ↔
        s.node ≤ k ∧ Derives g (input.symbols.drop s.node) (some (value, input.symbols.drop k))) ∧
    ((∃ t final, result = .ok (.failure t) final) ↔ Derives g (input.symbols.drop s.node) none) ∧
    ∀ t message final, result ≠ .ok (.error t message) final := by
  intro result
  have hsound := Visit.sound_history honest opened history scriptless
  have hs : input.Has s := hsound.has_held s held
  have nameless : g.Throughout rules Grammar.Nameless := expression.imp fun _ h => h.nameless
  obtain ⟨rounds, rfl⟩ : ∃ less, fuel = less + 1 := ⟨fuel - 1, by omega⟩
  have hrounds : input.symbols.length < rounds := by omega
  have hends := Grammar.parse_ends serves_honest hrounds nameless s _ hs hsound.reaches
  obtain ⟨outcome, final, hresult⟩ := hends.exists_ok faultless
  have hscriptless := nameless.imp fun _ h => h.scriptless
  obtain ⟨last, reaches⟩ := hsound.reaches
  obtain ⟨-, depth, hread⟩ := parse_reads serves_honest hscriptless hs reaches hresult
  obtain ⟨⟨-, le⟩, -⟩ := parse_forward serves_honest hscriptless hs hsound.reaches hresult
  have answers := Grammar.read_answers expression hs hread
  have settled : ∀ t message, outcome ≠ .error t message := by
    rintro t message rfl
    rw [show message = .ofText Parser.zeroWidthRepetition from answers] at hresult
    exact moving t final hresult
  have hsame : ∀ other, (∃ final, result = .ok other final) ↔ outcome = other := by
    intro other
    constructor
    · rintro ⟨after, hother⟩
      cases hresult.symm.trans hother
      rfl
    · rintro rfl
      exact ⟨final, hresult⟩
  refine ⟨fun value k hk => ?_, ?_, ?_⟩
  · simp only [exists_and_left, hsame]
    exact answers.success_iff le settled value hk
  · simp only [hsame]
    exact answers.failure_iff settled
  · intro t message after hother
    cases hresult.symm.trans hother
    exact settled t message rfl

/-- A run of one symbol that another does not begin, from the second of three symbols on: the parse
finds it, and there is a derivation of it. -/
theorem parse_iff_derives_run :
    let input : Input Char := ⟨['a', 'a', 'b'], .start⟩
    let window : Window (Pieces Char) Char := ⟨⟨[['a'], ['a', 'b']]⟩, #[], 0, 1, false, #[]⟩
    let g : Grammar Char (fun _ => Empty) Unit (List Char) :=
      .keepRight (.notAhead (.symbol 'b')) (.many (.symbol 'a'))
    let s : Stream Char := ⟨1, some 'a', ⟨1, 2, 1⟩⟩
    let rest : Stream Char := ⟨2, some 'b', ⟨1, 3, 2⟩⟩
    (∃ final, g.parse Rules.none 5 s
      ((Visit.ofWindow window input.start).actAll [(0, .consume)]).session =
        .ok (.success ['a'] rest) final) ∧
      Derives g ['a', 'b'] (some (['a'], ['b'])) := by
  intro input window g s rest
  have expression : g.Throughout Rules.none Grammar.Expression :=
    .intro trivial ⟨.intro trivial (.intro trivial trivial trivial) trivial,
      .intro trivial (.intro trivial trivial trivial) trivial⟩ trivial
  have honest : Honest (Pieces.mk [['a'], ['a', 'b']]) input.symbols := honest_pieces (by decide)
  have opened : Window.withCapacity (Pieces.mk [['a'], ['a', 'b']]) 0 = .ok window := rfl
  have scriptless : ∀ step ∈ [((0, .consume) : Nat × Action Char Unit)], step.2.Scriptless := by
    simp [Action.Scriptless]
  have held : s ∈ ((Visit.ofWindow window input.start).actAll
      [((0, .consume) : Nat × Action Char Unit)]).held := by decide +kernel
  obtain ⟨final, ended⟩ : ∃ final, g.parse Rules.none 5 s
      ((Visit.ofWindow window input.start).actAll [(0, .consume)]).session =
        .ok (.success ['a'] rest) final :=
    Run.value?_eq_some (by decide +kernel)
  obtain ⟨success, -⟩ := parse_iff_derives input honest opened _ scriptless held expression
    (Nat.le_refl 5) (by rw [ended]; rintro _ _ ⟨⟩) (by rw [ended]; rintro _ _ ⟨⟩)
  exact ⟨⟨final, ended⟩, ((success ['a'] 2 (by decide)).mp ⟨rest, final, rfl, ended⟩).2⟩

end Rewind
