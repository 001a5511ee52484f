import Rewind.Proofs.Agreement

/-!
# Inputs that start elsewhere

An input may start at any position. Where it starts shows in the positions of its nodes and nowhere
else: a grammar that makes no spans does the same to it wherever it starts, as long as no coordinate
leaves the word.

`Plan.Relocates` relates what a grammar plans at a node and at the same node of the input that
starts elsewhere. `Parallel` relates the sessions of the two runs. The main theorem is
`parse_relocate`.
-/
namespace Rewind

variable {τ υ σ ε α β : Type} {ν : Type → Type}

/-- The position that a position becomes when its input starts at `origin`. Columns move along on
the first line only. -/
def Position.relocate (p origin : Position) : Position :=
  ⟨p.line + (origin.line - 1), if p.line = 1 then p.column + (origin.column - 1)
    else p.column, p.index + origin.index⟩

def Stream.relocate (s : Stream σ) (origin : Position) : Stream σ :=
  { s with position := s.position.relocate origin }

def Outcome.relocate (outcome : Outcome σ α) (origin : Position) : Outcome σ α :=
  match outcome with
  | .success value rest => .success value (rest.relocate origin)
  | .failure rest => .failure (rest.relocate origin)
  | .error rest message => .error (rest.relocate origin) message

/-- Spans are made of positions, and scripts may look at them. -/
def Grammar.Placeless : {α : Type} → Grammar σ ν ε α → Prop
  | _, .spanned _ => False
  | _, .scripted _ => False
  | _, _ => True

/-! ## Nodes -/

section Nodes

variable {origin : Position}

theorem Position.start_relocate (line : 1 ≤ origin.line) (column : 1 ≤ origin.column) :
    start.relocate origin = origin := by
  obtain ⟨l, c, i⟩ := origin
  have hline : 1 + (l - 1) = l := Nat.add_sub_cancel' line
  have hcolumn : 1 + (c - 1) = c := Nat.add_sub_cancel' column
  simp [relocate, start, hline, hcolumn]

theorem Stream.relocate_index_eq (s t : Stream σ) :
    (s.relocate origin).position.index = (t.relocate origin).position.index ↔
    s.position.index = t.position.index :=
  Nat.add_right_cancel_iff

variable [Symbol σ]

/-- Where a step leads to in the input that starts elsewhere it leads to here: no coordinate is
greater here. -/
theorem Stream.Step.target_relocate {p : Position} (hp : 1 ≤ p.line) {a : σ} {following : Option σ}
    {there : Position} (h : (Step.mk a (p.relocate origin)).target following = .ok there) :
    ∃ here, (Step.mk a p).target following = .ok here ∧ there = here.relocate origin ∧
    1 ≤ here.line := by
  have hends : (Step.mk a (p.relocate origin)).endsLine following =
      (Step.mk a p).endsLine following := rfl
  rw [target, hends] at h
  rw [target]
  by_cases ends : (Step.mk a p).endsLine following = true
  · rw [if_pos ends, Position.nextLine] at h
    rw [if_pos ends, Position.nextLine]
    dsimp only
    split at h
    · rename_i fits
      dsimp only [Position.relocate] at fits
      cases h
      refine ⟨_, if_pos ⟨by omega, by omega⟩, ?_, Nat.le_add_left 1 p.line⟩
      have hlater : p.line + 1 ≠ 1 := by omega
      simp only [Position.relocate, if_neg hlater, Position.mk.injEq, true_and]
      omega
    · cases h
  · rw [if_neg ends, Position.nextColumn] at h
    rw [if_neg ends, Position.nextColumn]
    dsimp only
    split at h
    · rename_i fits
      dsimp only [Position.relocate] at fits
      cases h
      have hcolumn : p.column ≤ if p.line = 1 then p.column + (origin.column - 1)
          else p.column := by
        split
        · omega
        · exact Nat.le_refl _
      refine ⟨_, if_pos ⟨by omega, by omega⟩, ?_, hp⟩
      simp only [Position.relocate, Position.mk.injEq, true_and]
      refine ⟨?_, by omega⟩
      split
      · omega
      · rfl
    · cases h

namespace Input

variable {symbols : List σ}

theorem next_relocate {s : Stream σ} (hs : 1 ≤ s.position.line) {there : Stream σ}
    (h : (Input.mk symbols origin).next (s.relocate origin) = .ok there) :
    ∃ here, (Input.mk symbols .start).next s = .ok here ∧ there = here.relocate origin ∧
    1 ≤ here.position.line := by
  cases hcurrent : s.current with
  | none =>
    rw [next_end (by exact hcurrent)] at h
    cases h
    exact ⟨s, next_end hcurrent, rfl, hs⟩
  | some a =>
    have hthere : (s.relocate origin).current = some a := hcurrent
    rw [next, hthere] at h
    rw [next, hcurrent]
    dsimp only [Stream.relocate] at h ⊢
    cases htarget : (Stream.Step.mk a (s.position.relocate origin)).target symbols[s.node + 1]? with
    | error fault =>
      rw [htarget] at h
      cases h
    | ok position =>
      rw [htarget] at h
      cases h
      obtain ⟨here, hhere, rfl, hline⟩ := Stream.Step.target_relocate hs htarget
      rw [hhere]
      exact ⟨_, rfl, rfl, hline⟩

/-- The nodes of an input that starts elsewhere are those of the input, relocated. -/
theorem place_relocate (line : 1 ≤ origin.line) (column : 1 ≤ origin.column) {i : Nat}
    {there : Stream σ} (h : (Input.mk symbols origin).place i = .ok there) :
    ∃ here, (Input.mk symbols .start).place i = .ok here ∧ there = here.relocate origin ∧
    1 ≤ here.position.line := by
  induction i generalizing there with
  | zero =>
    cases h
    refine ⟨_, rfl, ?_, Nat.le_refl 1⟩
    rw [first, first, Stream.relocate, Position.start_relocate line column]
  | succ i ih =>
    cases hbefore : (Input.mk symbols origin).place i with
    | error fault =>
      rw [place, hbefore] at h
      cases h
    | ok before =>
      obtain ⟨here, hplace, rfl, hline⟩ := ih hbefore
      rw [place_succ hbefore] at h
      rw [place_succ hplace]
      exact next_relocate hline h

end Input
end Nodes

/-! ## Plans -/

namespace Plan

/-- The second plan does what the first does, on relocated streams. -/
inductive Relocates (origin : Position) : Plan σ ν ε α → Plan σ ν ε α → Prop
  | done (notice notice' : Option Notice) (outcome : Outcome σ α) :
    Relocates origin (.done notice outcome) (.done notice' (outcome.relocate origin))
  | halt (reason : Halt) : Relocates origin (.halt reason) (.halt reason)
  | consume {s : Stream σ} {next other : Stream σ → Plan σ ν ε α} :
    (∀ rest, Relocates origin (next rest) (other (rest.relocate origin))) →
    Relocates origin (.consume s next) (.consume (s.relocate origin) other)
  | emit {event : ε} {next other : Plan σ ν ε α} :
    Relocates origin next other → Relocates origin (.emit event next) (.emit event other)
  | call {hook : Hook} {next other : Plan σ ν ε α} :
    Relocates origin next other → Relocates origin (.call hook next) (.call hook other)
  | invoke {β : Type} {g : Grammar σ ν ε β} {s : Stream σ}
    {next other : Outcome σ β → Plan σ ν ε α} :
    (∀ reply, Relocates origin (next reply) (other (reply.relocate origin))) →
    Relocates origin (.invoke g s next) (.invoke g (s.relocate origin) other)
  | follow (g : Grammar σ ν ε α) (s : Stream σ) : Relocates origin (.follow g s)
    (.follow g (s.relocate origin))

variable {origin : Position}

theorem relocates_success (value : α) (rest : Stream σ) :
    Relocates origin (reply (ν := ν) (ε := ε) (.success value rest))
      (reply (.success value (rest.relocate origin))) :=
  .done none none (.success value rest)

theorem relocates_failure (rest : Stream σ) :
    Relocates origin (reply (ν := ν) (ε := ε) (α := α) (.failure rest))
      (reply (.failure (rest.relocate origin))) :=
  .done none none (.failure rest)

theorem relocates_error (rest : Stream σ) (message : Message) (notice notice' : Option Notice) :
    Relocates origin (.done (ν := ν) (ε := ε) (α := α) notice (.error rest message))
      (.done notice' (.error (rest.relocate origin) message)) :=
  .done notice notice' (.error rest message)

/-- A part is tried, and its errors are those of the whole. -/
theorem relocates_invoke {g : Grammar σ ν ε β} {s : Stream σ}
    {next other : Outcome σ β → Plan σ ν ε α}
    (success : ∀ value rest, Relocates origin (next (.success value rest))
      (other (.success value (rest.relocate origin))))
    (failure : ∀ rest, Relocates origin (next (.failure rest))
      (other (.failure (rest.relocate origin))))
    (error : ∀ rest message, next (.error rest message) = reply (.error rest message) ∧
      other (.error rest message) = reply (.error rest message)) :
    Relocates origin (.invoke g s next) (.invoke g (s.relocate origin) other) := by
  refine .invoke ?_
  intro outcome
  cases outcome with
  | success value rest => exact success value rest
  | failure rest => exact failure rest
  | error rest message =>
    dsimp only [Outcome.relocate]
    rw [(error rest message).1, (error (rest.relocate origin) message).2]
    exact relocates_error rest message none none

theorem relocates_onSuccess {g : Grammar σ ν ε β} {s : Stream σ}
    {next other : β → Stream σ → Plan σ ν ε α}
    (h : ∀ value rest, Relocates origin (next value rest) (other value (rest.relocate origin))) :
    Relocates origin (.invoke g s (onSuccess next))
      (.invoke g (s.relocate origin) (onSuccess other)) :=
  relocates_invoke h relocates_failure fun _ _ => ⟨rfl, rfl⟩

theorem relocates_onFailure {g : Grammar σ ν ε α} {s : Stream σ} {otherwise other : Plan σ ν ε α}
    (h : Relocates origin otherwise other) :
    Relocates origin (.invoke g s (onFailure otherwise))
      (.invoke g (s.relocate origin) (onFailure other)) :=
  relocates_invoke relocates_success (fun _ => h) fun _ _ => ⟨rfl, rfl⟩

theorem relocates_last (g : Grammar σ ν ε α) (s : Stream σ) :
    Relocates origin (.invoke g s reply) (.invoke g (s.relocate origin) reply) :=
  relocates_invoke relocates_success relocates_failure fun _ _ => ⟨rfl, rfl⟩

theorem relocates_emitAll {next other : Plan σ ν ε α} (h : Relocates origin next other)
    (events : List ε) :
    Relocates origin (emitAll next events) (emitAll other events) := by
  induction events with
  | nil => exact h
  | cons event rest ih => exact .emit ih

theorem relocates_literal [DecidableEq σ] (expected : List σ) (start : Stream σ) (left : List σ)
    (s : Stream σ) :
    Relocates origin (literal (ν := ν) (ε := ε) expected start left s)
      (literal expected (start.relocate origin) left (s.relocate origin)) := by
  induction left generalizing s with
  | nil => exact relocates_success expected s
  | cons a rest ih =>
    have hcurrent : (s.relocate origin).current = s.current := rfl
    rw [literal, literal, hcurrent]
    split
    · exact .consume ih
    · exact relocates_failure start

theorem relocates_choice (s : Stream σ) (parts : List (Grammar σ ν ε α)) :
    Relocates origin (choice s parts) (choice (s.relocate origin) parts) := by
  induction parts with
  | nil => exact relocates_failure s
  | cons p rest ih => exact relocates_onFailure ih

theorem relocates_sequence (values : List α) (parts : List (Grammar σ ν ε α)) (s : Stream σ) :
    Relocates origin (sequence values parts s) (sequence values parts (s.relocate origin)) := by
  induction parts generalizing values s with
  | nil => exact relocates_success values.reverse s
  | cons p rest ih =>
    exact relocates_invoke (fun value next => ih (value :: values) next)
      (fun _ => relocates_failure s) fun _ _ => ⟨rfl, rfl⟩

theorem relocates_exactly (p : Grammar σ ν ε α) {finish : List α → Stream σ → Plan σ ν ε (List α)}
    (h : ∀ values rest, Relocates origin (finish values rest)
      (finish values (rest.relocate origin)))
    (count : Nat) (values : List α) (s : Stream σ) :
    Relocates origin (exactly p finish count values s)
      (exactly p finish count values (s.relocate origin)) := by
  induction count generalizing values s with
  | zero => exact h values s
  | succ count ih =>
    exact relocates_invoke (fun value next => ih (value :: values) next)
      (fun _ => relocates_failure s) fun _ _ => ⟨rfl, rfl⟩

/-- Whether a round has moved is told by indices, which all move by the same number. -/
theorem relocates_moved {s next : Stream σ} (message : Message) (notice notice' : Option Notice)
    {later other : Plan σ ν ε α} (h : Relocates origin later other) :
    Relocates origin
      (if next.position.index = s.position.index then .done notice (.error s message) else later)
      (if (next.relocate origin).position.index = (s.relocate origin).position.index then
        .done notice' (.error (s.relocate origin) message) else other) := by
  have hmoved : (next.relocate origin).position.index = (s.relocate origin).position.index ↔
      next.position.index = s.position.index :=
    next.relocate_index_eq s
  by_cases hstill : next.position.index = s.position.index
  · rw [if_pos hstill, if_pos (hmoved.mpr hstill)]
    exact relocates_error s message notice notice'
  · rw [if_neg hstill, if_neg (mt hmoved.mp hstill)]
    exact h

theorem relocates_many (p : Grammar σ ν ε α) (rounds : Nat) (values : List α) (s : Stream σ) :
    Relocates origin (many p rounds values s) (many p rounds values (s.relocate origin)) := by
  induction rounds generalizing values s with
  | zero => exact .halt _
  | succ rounds ih =>
    refine relocates_invoke (fun value next => ?_) (fun _ => relocates_success values.reverse s)
      fun _ _ => ⟨rfl, rfl⟩
    exact relocates_moved _ _ _ (ih (value :: values) next)

theorem relocates_separated (p : Grammar σ ν ε α) (separator : Grammar σ ν ε β) (rounds : Nat)
    (values : List α) (s : Stream σ) :
    Relocates origin (separated p separator rounds values s)
      (separated p separator rounds values (s.relocate origin)) := by
  induction rounds generalizing values s with
  | zero => exact .halt _
  | succ rounds ih =>
    refine relocates_invoke (fun _ middle => ?_) (fun _ => relocates_success values.reverse s)
      fun _ _ => ⟨rfl, rfl⟩
    refine relocates_invoke (fun value next => ?_) (fun _ => relocates_failure middle) fun _ _ =>
      ⟨rfl, rfl⟩
    exact relocates_moved _ _ _ (ih (value :: values) next)

theorem relocates_soften (outcome : Outcome σ α) :
    Relocates origin (soften (ν := ν) (ε := ε) outcome) (soften (outcome.relocate origin)) := by
  cases outcome with
  | success value rest => exact relocates_success value rest
  | failure rest => exact relocates_failure rest
  | error rest message =>
    rw [Outcome.relocate, soften, soften]
    split
    · exact relocates_error rest message.softened _ _
    · exact relocates_error rest message none none

end Plan

open Plan in
theorem Grammar.plan_relocates [Symbol σ] (rules : Rules σ ν ε) (rounds : Nat) {g : Grammar σ ν ε α}
    (placeless : g.Placeless) (s : Stream σ) (origin : Position) :
    (g.plan rules rounds s).Relocates origin (g.plan rules rounds (s.relocate origin)) := by
  have hcurrent : (s.relocate origin).current = s.current := rfl
  cases g with
  | any =>
    rw [plan, plan, hcurrent]
    cases s.current with
    | none => exact relocates_failure s
    | some a => exact .consume fun rest => relocates_success a rest
  | satisfy accepts =>
    rw [plan, plan, hcurrent]
    cases s.current with
    | none => exact relocates_failure s
    | some a =>
      refine .call ?_
      split
      · exact .consume fun rest => relocates_success a rest
      · exact relocates_failure s
  | symbol expected =>
    rw [plan, plan, hcurrent]
    cases s.current with
    | none => exact relocates_failure s
    | some a =>
      dsimp only
      split
      · exact .consume fun rest => relocates_success a rest
      · exact relocates_failure s
  | literal expected => exact relocates_literal expected s expected s
  | endOfInput =>
    have hend : (s.relocate origin).isEnd = s.isEnd := rfl
    rw [plan, plan, hend]
    split
    · exact relocates_success () s
    · exact relocates_failure s
  | succeed value => exact relocates_success value s
  | fail => exact relocates_failure s
  | error text => exact relocates_error s _ none none
  | cut text => exact relocates_error s _ none none
  | orElse p q => exact relocates_onFailure (relocates_last q s)
  | choiceOf count parts => exact relocates_choice s (List.ofFn parts)
  | optional p =>
    exact relocates_invoke (fun value rest => relocates_success (some value) rest)
      (fun _ => relocates_success none s) fun _ _ => ⟨rfl, rfl⟩
  | lookAhead p =>
    exact relocates_invoke (fun value _ => relocates_success value s) (fun _ => relocates_failure s)
      fun _ _ => ⟨rfl, rfl⟩
  | notAhead p =>
    exact relocates_invoke (fun _ _ => relocates_failure s) (fun _ => relocates_success () s)
      fun _ _ => ⟨rfl, rfl⟩
  | filter accepts p =>
    refine relocates_onSuccess fun value rest => .call ?_
    split
    · exact relocates_success value rest
    · exact relocates_failure s
  | map f p => exact relocates_onSuccess fun value rest => .call (relocates_success (f value) rest)
  | ignore p => exact relocates_onSuccess fun _ rest => relocates_success () rest
  | bind p next =>
    exact relocates_onSuccess fun value rest => .call (relocates_last (next value) rest)
  | pair p q =>
    refine relocates_onSuccess fun first _ => ?_
    exact relocates_onSuccess fun second rest => relocates_success (first, second) rest
  | keepLeft p q =>
    exact relocates_onSuccess fun first _ => relocates_onSuccess fun _ rest =>
      relocates_success first rest
  | keepRight p q => exact relocates_onSuccess fun _ rest => relocates_last q rest
  | between opening p closing =>
    refine relocates_onSuccess fun _ _ => relocates_onSuccess fun value _ => ?_
    exact relocates_onSuccess fun _ rest => relocates_success value rest
  | sequenceOf count parts => exact relocates_sequence [] (List.ofFn parts) s
  | exactly p count =>
    rw [plan, plan]
    split
    · exact relocates_exactly p (fun values rest => relocates_success values.reverse rest) count []
        s
    · exact .halt _
  | many p => exact relocates_many p rounds [] s
  | atLeast p count =>
    rw [plan, plan]
    split
    · exact relocates_exactly p (relocates_many p rounds) count [] s
    · exact .halt _
  | separated p separator =>
    exact relocates_onSuccess fun value rest => relocates_separated p separator rounds [value] rest
  | label text p => exact relocates_onFailure (relocates_error s _ none none)
  | commit text p => exact relocates_onFailure (relocates_error s _ none none)
  | attempt p =>
    refine .invoke fun reply => ?_
    cases reply with
    | success value rest => exact relocates_success value rest
    | failure rest => exact relocates_failure rest
    | error rest message =>
      dsimp only [Outcome.relocate]
      split
      · exact relocates_error rest message none none
      · exact relocates_failure s
  | boundary p => exact .invoke relocates_soften
  | spanned p => exact placeless.elim
  | inspect observe p =>
    refine relocates_onSuccess fun value rest => .call ?_
    cases observe value with
    | ok event => exact .emit (relocates_success value rest)
    | error fault => exact .halt _
  | rule name =>
    rw [plan, plan]
    cases rules.slot name with
    | undefined => exact relocates_error s _ _ _
    | dropped => exact relocates_error s _ _ _
    | defined definition => exact .follow definition s
  | lazy name => exact .call (relocates_emitAll (.follow _ s) _)
  | scripted script => exact placeless.elim

/-! ## Runs -/

theorem Stream.cell_ne_spent (s : Stream σ) : s.cell ≠ .spent := by
  intro spent
  rw [Stream.cell] at spent
  cases hcurrent : s.current with
  | none =>
    rw [hcurrent] at spent
    cases spent
  | some a =>
    rw [hcurrent] at spent
    cases spent

/-- Up to its last node nothing keeps a chain from answering, as long as no thunk has
met a fault. -/
theorem Chain.Reaches.getD_ne_spent [Symbol σ] {left : τ → List σ → Prop} {input : Input σ}
    {c : Chain τ σ} {last : Stream σ} (h : c.Reaches left input last)
    (fresh : c.successors[last.node]? = some last.cell) {i : Nat} (le : i ≤ last.node) :
    c.successors.getD i .spent ≠ .spent := by
  rw [Array.getD_eq_getD_getElem?]
  rcases Nat.lt_or_eq_of_le le with hlt | rfl
  · obtain ⟨t, -, hcell⟩ := h.behind i hlt
    rw [hcell]
    rintro ⟨⟩
  · rw [fresh, Option.getD_some]
    exact last.cell_ne_spent

section Runs

variable [Symbol σ] (left : τ → List σ → Prop) (kept : υ → List σ → Prop) (symbols : List σ)
  (origin : Position)

/-- A session over the input and one over the input that starts elsewhere have found the same nodes
and have seen the same events. No coordinate has left the word in the second. -/
structure Parallel (last : Stream σ) (session : Session τ σ ε) (other : Session υ σ ε) : Prop where
  reaches : session.chain.Reaches left ⟨symbols, .start⟩ last
  reaches_other : other.chain.Reaches kept ⟨symbols, origin⟩ (last.relocate origin)
  fresh : other.chain.successors[last.node]? = some (last.relocate origin).cell
  events_eq : other.events = session.events

/-- The second run ends where the first does, or both halt for one reason, or a coordinate leaves
the word in the second. -/
inductive Carried {γ δ : Type} (f : γ → δ) :
    EStateM.Result Halt (Session τ σ ε) γ → EStateM.Result Halt (Session υ σ ε) δ → Prop
  | ended {a : γ} {last : Stream σ} {final : Session τ σ ε} {after : Session υ σ ε} :
    Parallel left kept symbols origin last final after → Carried f (.ok a final) (.ok (f a) after)
  | halted (reason : Halt) (final : Session τ σ ε) (after : Session υ σ ε) :
    Carried f (.error reason final) (.error reason after)
  | overflown (run : EStateM.Result Halt (Session τ σ ε) γ) (after : Session υ σ ε) :
    Carried f run (.error (.fault .addOverflow) after)

/-- From parallel sessions the runs come to parallel sessions. -/
def Carries {γ δ : Type} (f : γ → δ) (x : Run τ σ ε γ) (y : Run υ σ ε δ) : Prop :=
  ∀ (last : Stream σ) (session : Session τ σ ε) (other : Session υ σ ε),
    Parallel left kept symbols origin last session other →
    Carried left kept symbols origin f (x session) (y other)

variable {left kept symbols origin}

theorem Parallel.noted {last : Stream σ} {session : Session τ σ ε} {other : Session υ σ ε}
    (h : Parallel left kept symbols origin last session other) (notice notice' : Option Notice) :
    Parallel left kept symbols origin last (session.noted notice) (other.noted notice') := by
  refine ⟨noted_reaches h.reaches notice, noted_reaches h.reaches_other notice', ?_, ?_⟩
  · cases notice' <;> exact h.fresh
  · cases notice <;> cases notice' <;> exact h.events_eq

theorem Carries.bind {γ γ' δ δ' : Type} {f : γ → γ'} {f' : δ → δ'} {x : Run τ σ ε γ}
    {y : Run υ σ ε γ'} {later : γ → Run τ σ ε δ} {later' : γ' → Run υ σ ε δ'}
    (h : Carries left kept symbols origin f x y)
    (hlater : ∀ a, Carries left kept symbols origin f' (later a) (later' (f a))) :
    Carries left kept symbols origin f' (x >>= later) (y >>= later') := by
  intro last session other parallel
  have hfirst := h last session other parallel
  generalize hx : x session = run at hfirst
  generalize hy : y other = run' at hfirst
  cases hfirst with
  | ended parallel =>
    rw [bind_of_ok hx, bind_of_ok hy]
    exact hlater _ _ _ _ parallel
  | halted reason final after =>
    rw [bind_of_error hx, bind_of_error hy]
    exact .halted reason final after
  | overflown run after =>
    rw [bind_of_error hy]
    exact .overflown _ after

variable [Source τ σ] [Source υ σ]

/-- What the second run finds the first finds too; where the second finds nothing a coordinate has
left the word, or there is nothing to be found in either. -/
theorem consume_carries (serves : Serves left) (serves_other : Serves kept) (line : 1 ≤ origin.line)
    (column : 1 ≤ origin.column) (s : Stream σ) :
    Carries (ε := ε) left kept symbols origin (Stream.relocate · origin) (Run.consume s)
      (Run.consume (s.relocate origin)) := by
  intro last session other parallel
  cases hthere : other.chain.consume (s.relocate origin) with
  | mk answer found =>
    cases answer with
    | error fault =>
      rw [Run.consume_error hthere]
      rcases Chain.consume_fault hthere with rfl | ⟨rfl, hspent⟩
      · exact .overflown _ _
      · have hbeyond : last.node < s.node := by
          apply Nat.lt_of_not_le
          intro le
          exact parallel.reaches_other.getD_ne_spent parallel.fresh le hspent
        have hsize := parallel.reaches.size_eq
        have hnone : session.chain.successors.getD s.node .spent = .spent := by
          rw [Array.getD_eq_getD_getElem?, Array.getElem?_eq_none (by omega)]
          rfl
        rw [Run.consume_error (Chain.consume_of_spent hnone)]
        exact .halted _ _ _
    | ok there =>
      have hle : s.node ≤ last.node := parallel.reaches_other.node_le hthere
      rcases Chain.consume_cases serves_other parallel.reaches_other (s.relocate origin) with
        ⟨u, hfound, hplace, hknown⟩ | ⟨u, new, hfound, hplace, -, hnode, hreaches, -⟩ | ⟨fault,
          broken, hbroken, -⟩
      · cases hthere.symm.trans hfound
        obtain ⟨here, hhere, rfl, -⟩ := Input.place_relocate line column hplace
        have hbehind : here.node ≤ last.node := hknown
        rcases Chain.consume_found serves parallel.reaches hle
          hhere with ⟨hconsume, -⟩ | ⟨new, -, -, hnode, -⟩
        · rw [Run.consume_ok hthere, Run.consume_ok hconsume]
          exact .ended parallel
        · omega
      · cases hthere.symm.trans hfound
        obtain ⟨here, hhere, rfl, -⟩ := Input.place_relocate line column hplace
        have hahead : here.node = last.node + 1 := hnode
        rcases Chain.consume_found serves parallel.reaches hle hhere with
          ⟨-, hbehind⟩ | ⟨new, hconsume, -, -, hnow⟩
        · omega
        · rw [Run.consume_ok hthere, Run.consume_ok hconsume]
          refine .ended
            (show Parallel left kept symbols origin here _ _ from
              ⟨hnow, hreaches, ?_, parallel.events_eq⟩)
          rcases Chain.consume_new hthere with rfl | hfresh
          · have hsame := hreaches.size_eq.symm.trans parallel.reaches_other.size_eq
            dsimp only [Stream.relocate] at hsame
            omega
          · exact hfresh
      · cases hthere.symm.trans hbroken

variable {rules : Rules σ ν ε}

/-- Plans that are related are carried out in parallel, given that the grammars they use are. -/
theorem Plan.Relocates.carries (serves : Serves left) (serves_other : Serves kept)
    (line : 1 ≤ origin.line) (column : 1 ≤ origin.column) {fuel : Nat} {p q : Plan σ ν ε α}
    (relocates : p.Relocates origin q) {answer : Stream σ → Message → Plan σ ν ε α}
    (lawful : p.Lawful
      (fun g => ∀ s, Carries left kept symbols origin (Outcome.relocate · origin)
        (g.parse rules (fuel + 1) s) (g.parse rules (fuel + 1) (s.relocate origin)))
      (fun g => ∀ s, Carries left kept symbols origin (Outcome.relocate · origin)
        (g.parse rules fuel s) (g.parse rules fuel (s.relocate origin)))
      (fun _ => True) answer) :
    Carries left kept symbols origin (Outcome.relocate · origin)
      (p.run (fun g => g.parse rules (fuel + 1)) (fun g => g.parse rules fuel))
      (q.run (fun g => g.parse rules (fuel + 1)) (fun g => g.parse rules fuel)) := by
  induction relocates with
  | done notice notice' outcome =>
    intro last session other parallel
    have hended := Carried.ended (f := (Outcome.relocate · origin)) (a := outcome)
      (parallel.noted notice notice')
    cases notice <;> cases notice' <;> exact hended
  | halt reason => exact fun _ session other _ => .halted reason session other
  | consume _ ih =>
    exact (consume_carries serves serves_other line column _).bind fun rest =>
      ih rest (lawful.2 rest trivial)
  | emit _ ih =>
    rename_i event _ _ _
    intro last session other parallel
    refine ih lawful last (session.emitted event) (other.emitted event) ?_
    exact ⟨parallel.reaches, parallel.reaches_other, parallel.fresh, congrArg (·.push event)
      parallel.events_eq⟩
  | call _ ih => exact ih lawful
  | invoke _ ih => exact (lawful.1 _).bind fun reply => ih reply (lawful.2.2.2 reply trivial)
  | follow g s => exact lawful.1 s

theorem parse_carries (serves : Serves left) (serves_other : Serves kept) (line : 1 ≤ origin.line)
    (column : 1 ≤ origin.column) (fuel : Nat) {g : Grammar σ ν ε α}
    (placeless : g.Throughout rules Grammar.Placeless) (s : Stream σ) :
    Carries left kept symbols origin (Outcome.relocate · origin) (g.parse rules fuel s)
      (g.parse rules fuel (s.relocate origin)) := by
  induction fuel generalizing α s with
  | zero => exact fun _ session other _ => .halted .outOfFuel session other
  | succ fuel ih =>
    refine Grammar.Throughout.induction (motive := fun g => ∀ s, Carries left kept symbols origin
      (Outcome.relocate · origin) (g.parse rules (fuel + 1) s)
        (g.parse rules (fuel + 1) (s.relocate origin)))
      ?_ placeless s
    intro β g throughout parts s
    rw [Grammar.parse_eq_run, Grammar.parse_eq_run]
    have lawful :=
      Grammar.plan_lawful rules fuel (V := fun _ => True) (s := s) trivial
        (Or.inr fun _ => trivial) parts
        (throughout.definitions.imp fun _ hdefinition => ih hdefinition)
    exact (Grammar.plan_relocates rules fuel throughout.self s origin).carries serves serves_other
      line column lawful

/-- The two inputs are opened in parallel. -/
theorem parallel_ofWindow (serves : Serves left) (serves_other : Serves kept)
    (line : 1 ≤ origin.line) (column : 1 ≤ origin.column) {window : Window τ σ}
    {reader : Window υ σ} (holds : window.Holds left symbols)
    (holds_other : reader.Holds kept symbols) {s t : Stream σ} {session : Session τ σ ε}
    {other : Session υ σ ε} (here : Session.ofWindow window .start = (s, session))
    (there : Session.ofWindow reader origin = (t, other)) :
    t = s.relocate origin ∧ Parallel left kept symbols origin s session other := by
  have hs : (Chain.ofWindow window .start).1 = s := congrArg Prod.fst here
  have ht : (Chain.ofWindow reader origin).1 = t := congrArg Prod.fst there
  have hsession : Session.mk (ε := ε) (Chain.ofWindow window .start).2 #[] = session :=
    congrArg Prod.snd here
  have hother : Session.mk (ε := ε) (Chain.ofWindow reader origin).2 #[] = other :=
    congrArg Prod.snd there
  have hopened : window.Holds left (Input.mk symbols .start).symbols := holds
  have hopened_other : reader.Holds kept (Input.mk symbols origin).symbols := holds_other
  obtain ⟨hfirst, hreaches, -⟩ := Chain.reaches_ofWindow serves hopened
  obtain ⟨hbegun, hreaches_other, -⟩ := Chain.reaches_ofWindow serves_other hopened_other
  have hmoved : t = s.relocate origin := by
    rw [← ht, hbegun, ← hs, hfirst, Input.first, Input.first, Stream.relocate,
      Position.start_relocate line column]
  have hfresh : (Chain.ofWindow reader origin).2.successors[0]? =
      some (Chain.ofWindow reader origin).1.cell := by
    rw [Chain.ofWindow, Chain.extend_eq]
    rfl
  rw [← hfirst, hs] at hreaches
  rw [← hbegun, ht, hmoved] at hreaches_other
  have hnode : s.node = 0 := by
    rw [← hs, hfirst]
    rfl
  rw [ht, hmoved, ← hnode] at hfresh
  rw [← hsession, ← hother]
  exact ⟨hmoved, hreaches, hreaches_other, hfresh, rfl⟩

end Runs

/-- A grammar without spans does the same to an input wherever it starts, whatever the sources and
the room in the windows: unless a coordinate leaves the word, both runs end, in one outcome but for
the positions, or both halt for one reason. The positions are those of the input, with the origin's
index added, the lines before the origin, and on the first line the columns before it. -/
theorem parse_relocate [Source τ σ] [Source υ σ] [Symbol σ] {symbols : List σ} {origin : Position}
    (line : 1 ≤ origin.line) (column : 1 ≤ origin.column) {source : τ} {capacity : Nat}
    {window : Window τ σ} (honest : Honest source symbols)
    (opened : Window.withCapacity source capacity = .ok window) {script : υ} {room : Nat}
    {reader : Window υ σ} (truthful : Honest script symbols)
    (started : Window.withCapacity script room = .ok reader) {s t : Stream σ}
    {session : Session τ σ ε} {other : Session υ σ ε}
    (here : Session.ofWindow window .start = (s, session))
    (there : Session.ofWindow reader origin = (t, other)) {rules : Rules σ ν ε}
    {g : Grammar σ ν ε α} (placeless : g.Throughout rules Grammar.Placeless) (fuel : Nat)
    (fits : ∀ halted, g.parse rules fuel t other ≠ .error (.fault .addOverflow) halted) :
    (∃ outcome final after, g.parse rules fuel s session = .ok outcome final ∧
      g.parse rules fuel t other = .ok (outcome.relocate origin) after ∧
      after.events = final.events) ∨
    ∃ reason final after, g.parse rules fuel s session = .error reason final ∧
      g.parse rules fuel t other = .error reason after := by
  have serves_script : Serves (Honest : υ → List σ → Prop) := serves_honest
  have hholds : window.Holds Honest symbols := Window.holds_withCapacity opened honest
  have hstarted : reader.Holds Honest symbols := Window.holds_withCapacity started truthful
  obtain ⟨rfl, parallel⟩ :=
    parallel_ofWindow serves_honest serves_script line column hholds hstarted here there
  have hcarried :=
    parse_carries serves_honest serves_script line column fuel placeless s s session other parallel
  generalize g.parse rules fuel s session = run at hcarried ⊢
  generalize g.parse rules fuel (s.relocate origin) other = run' at hcarried fits ⊢
  cases hcarried with
  | ended parallel => exact Or.inl ⟨_, _, _, rfl, rfl, parallel.events_eq⟩
  | halted reason final after => exact Or.inr ⟨reason, final, after, rfl, rfl⟩
  | overflown run after => exact (fits after rfl).elim

/-- Two lines, opened at the start and within the third line of something longer: the end is on the
second line, so that only its line and its index differ. -/
theorem parse_relocate_lines :
    let window : Window (Queue Char) Char := ⟨⟨['a', '\n', 'b']⟩, #[], 0, 8, false, #[]⟩
    let reader : Window (Pieces Char) Char := ⟨⟨[['a'], ['\n', 'b']]⟩, #[], 0, 1, false, #[]⟩
    let here : Stream Char × Session (Queue Char) Char Unit := Session.ofWindow window .start
    let there : Stream Char × Session (Pieces Char) Char Unit := Session.ofWindow reader ⟨3, 7, 5⟩
    let g : Grammar Char (fun _ => Empty) Unit (List Char) := .many .any
    (∃ final, g.parse Rules.none 5 here.1 here.2 =
      .ok (.success ['a', '\n', 'b'] ⟨3, none, ⟨2, 2, 3⟩⟩) final) ∧
      ∃ after, g.parse Rules.none 5 there.1 there.2 =
        .ok (.success ['a', '\n', 'b'] ⟨3, none, ⟨4, 2, 8⟩⟩) after := by
  intro window reader here there g
  have honest : Honest (Queue.mk ['a', '\n', 'b']) ['a', '\n', 'b'] := honest_queue _
  have opened : Window.withCapacity (Queue.mk ['a', '\n', 'b']) 8 = .ok window := rfl
  have truthful : Honest (Pieces.mk [['a'], ['\n', 'b']]) ['a', '\n', 'b'] :=
    honest_pieces (by decide)
  have started : Window.withCapacity (Pieces.mk [['a'], ['\n', 'b']]) 0 = .ok reader := rfl
  have placeless : g.Throughout Rules.none Grammar.Placeless := by
    have hany : (Grammar.any (ν := fun _ => Empty) (ε := Unit)).Throughout Rules.none
        Grammar.Placeless :=
      .intro (σ := Char) trivial trivial trivial
    exact .intro trivial hany trivial
  obtain ⟨final, ended⟩ : ∃ final, g.parse Rules.none 5 here.1 here.2 =
      .ok (.success ['a', '\n', 'b'] ⟨3, none, ⟨2, 2, 3⟩⟩) final :=
    Run.value?_eq_some (by decide +kernel)
  obtain ⟨reply, hreply⟩ := Option.isSome_iff_exists.mp
    (show (Run.value? (g.parse Rules.none 5 there.1 there.2)).isSome = true by decide +kernel)
  obtain ⟨after, elsewhere⟩ := Run.value?_eq_some hreply
  have fits : ∀ halted, g.parse Rules.none 5 there.1 there.2 ≠
      .error (.fault .addOverflow) halted := by
    intro halted overflown
    cases elsewhere.symm.trans overflown
  refine ⟨⟨final, ended⟩, ?_⟩
  rcases parse_relocate (by decide) (by decide) honest opened truthful started rfl rfl
    placeless 5 fits with
    ⟨outcome, first, second, hhere, hthere, -⟩ | ⟨reason, first, second, hhere, -⟩
  · cases ended.symm.trans hhere
    exact ⟨second, hthere⟩
  · cases ended.symm.trans hhere

end Rewind
