import Rewind.Grammar

/-!
# Parsing expressions

The meaning of grammars as parsing expressions: a derivation ends with a value and the symbols that
are left, or with a failure. Choices are ordered, repetitions are greedy, and lookahead consumes
nothing. Nothing is said of errors: a repetition whose item succeeds without consuming has no
derivation. A grammar derives one result at most (`Derives.unique`).
-/
namespace Rewind

variable {σ ε α β : Type} {ν : Type → Type}

/-- One symbol that is accepted. -/
def takeOne (accepts : σ → Bool) : List σ → Option (σ × List σ)
  | [] => none
  | a :: rest => if accepts a then some (a, rest) else none

/-- A run of symbols. -/
def takeRun [DecidableEq σ] (expected y : List σ) : Option (List σ × List σ) :=
  if expected <+: y then some (expected, y.drop expected.length) else none

/-- What the rest of a run does decides about the run. -/
theorem takeRun_append [DecidableEq σ] (before left y : List σ) :
    takeRun (before ++ left) (before ++ y) =
      if left <+: y then some (before ++ left, y.drop left.length) else none := by
  simp [takeRun, List.drop_length_add_append]

/-- The value of a success is converted. -/
def convert (f : α → β) (r : Option (α × List σ)) : Option (β × List σ) := r.map (Prod.map f id)

/-- The grammar, tried on a list of symbols, yields a value and leaves the rest of the
list, or fails. -/
inductive Derives [Symbol σ] : {α : Type} → Grammar σ ν ε α → List σ → Option (α × List σ) → Prop
  | any {y : List σ} : Derives .any y (takeOne (fun _ => true) y)
  | satisfy {accepts : σ → Bool} {y : List σ} : Derives (.satisfy accepts) y (takeOne accepts y)
  | symbol {expected : σ} {y : List σ} :
    Derives (.symbol expected) y (takeOne (fun a => a = expected) y)
  | literal {expected y : List σ} : Derives (.literal expected) y (takeRun expected y)
  | endOfInput {y : List σ} : Derives .endOfInput y (if y = [] then some ((), y) else none)
  | succeed {α : Type} {value : α} {y : List σ} : Derives (.succeed value) y (some (value, y))
  | fail {α : Type} {y : List σ} : Derives (.fail : Grammar σ ν ε α) y none
  | orElseFirst {α : Type} {p q : Grammar σ ν ε α} {y : List σ} {r : α × List σ} :
    Derives p y (some r) → Derives (.orElse p q) y (some r)
  | orElseSecond {α : Type} {p q : Grammar σ ν ε α} {y : List σ} {r : Option (α × List σ)} :
    Derives p y none → Derives q y r → Derives (.orElse p q) y r
  | choiceNone {α : Type} {parts : Fin 0 → Grammar σ ν ε α} {y : List σ} :
    Derives (.choiceOf 0 parts) y none
  | choiceFirst {α : Type} {count : Nat} {parts : Fin (count + 1) → Grammar σ ν ε α} {y : List σ}
    {r : α × List σ} :
    Derives (parts 0) y (some r) → Derives (.choiceOf (count + 1) parts) y (some r)
  | choiceLater {α : Type} {count : Nat} {parts : Fin (count + 1) → Grammar σ ν ε α} {y : List σ}
    {r : Option (α × List σ)} :
    Derives (parts 0) y none → Derives (.choiceOf count fun i => parts i.succ) y r →
    Derives (.choiceOf (count + 1) parts) y r
  | optional {α : Type} {p : Grammar σ ν ε α} {y : List σ} {r : Option (α × List σ)} :
    Derives p y r → Derives (.optional p) y (some ((convert some r).getD (none, y)))
  | lookAhead {α : Type} {p : Grammar σ ν ε α} {y : List σ} {r : Option (α × List σ)} :
    Derives p y r → Derives (.lookAhead p) y (r.map fun success => (success.1, y))
  | notAhead {α : Type} {p : Grammar σ ν ε α} {y : List σ} {r : Option (α × List σ)} :
    Derives p y r → Derives (.notAhead p) y (if r.isSome then none else some ((), y))
  | filter {α : Type} {accepts : α → Bool} {p : Grammar σ ν ε α} {y : List σ}
    {r : Option (α × List σ)} :
    Derives p y r → Derives (.filter accepts p) y (r.filter fun success => accepts success.1)
  | map {α β : Type} {f : α → β} {p : Grammar σ ν ε α} {y : List σ} {r : Option (α × List σ)} :
    Derives p y r → Derives (.map f p) y (convert f r)
  | ignore {α : Type} {p : Grammar σ ν ε α} {y : List σ} {r : Option (α × List σ)} :
    Derives p y r → Derives (.ignore p) y (convert (fun _ => ()) r)
  | pairNone {α β : Type} {p : Grammar σ ν ε α} {q : Grammar σ ν ε β} {y : List σ} :
    Derives p y none → Derives (.pair p q) y none
  | pair {α β : Type} {p : Grammar σ ν ε α} {q : Grammar σ ν ε β} {y z : List σ} {a : α}
    {r : Option (β × List σ)} :
    Derives p y (some (a, z)) → Derives q z r → Derives (.pair p q) y (convert (fun b => (a, b)) r)
  | keepLeftNone {α β : Type} {p : Grammar σ ν ε α} {q : Grammar σ ν ε β} {y : List σ} :
    Derives p y none → Derives (.keepLeft p q) y none
  | keepLeft {α β : Type} {p : Grammar σ ν ε α} {q : Grammar σ ν ε β} {y z : List σ} {a : α}
    {r : Option (β × List σ)} :
    Derives p y (some (a, z)) → Derives q z r → Derives (.keepLeft p q) y (convert (fun _ => a) r)
  | keepRightNone {α β : Type} {p : Grammar σ ν ε α} {q : Grammar σ ν ε β} {y : List σ} :
    Derives p y none → Derives (.keepRight p q) y none
  | keepRight {α β : Type} {p : Grammar σ ν ε α} {q : Grammar σ ν ε β} {y z : List σ} {a : α}
    {r : Option (β × List σ)} :
    Derives p y (some (a, z)) → Derives q z r → Derives (.keepRight p q) y r
  | betweenNone {α β γ : Type} {opening : Grammar σ ν ε α} {p : Grammar σ ν ε β}
    {closing : Grammar σ ν ε γ}
    {y : List σ} : Derives opening y none → Derives (.between opening p closing) y none
  | betweenOpened {α β γ : Type} {opening : Grammar σ ν ε α} {p : Grammar σ ν ε β}
    {closing : Grammar σ ν ε γ} {y z : List σ} {a : α} :
    Derives opening y (some (a, z)) → Derives p z none → Derives (.between opening p closing) y none
  | between {α β γ : Type} {opening : Grammar σ ν ε α} {p : Grammar σ ν ε β}
    {closing : Grammar σ ν ε γ} {y z w : List σ} {a : α} {b : β} {r : Option (γ × List σ)} :
    Derives opening y (some (a, z)) → Derives p z (some (b, w)) → Derives closing w r →
    Derives (.between opening p closing) y (convert (fun _ => b) r)
  | sequenceNil {α : Type} {parts : Fin 0 → Grammar σ ν ε α} {y : List σ} :
    Derives (.sequenceOf 0 parts) y (some ([], y))
  | sequenceNone {α : Type} {count : Nat} {parts : Fin (count + 1) → Grammar σ ν ε α} {y : List σ} :
    Derives (parts 0) y none → Derives (.sequenceOf (count + 1) parts) y none
  | sequenceCons {α : Type} {count : Nat} {parts : Fin (count + 1) → Grammar σ ν ε α}
    {y z : List σ} {a : α} {r : Option (List α × List σ)} :
    Derives (parts 0) y (some (a, z)) → Derives (.sequenceOf count fun i => parts i.succ) z r →
    Derives (.sequenceOf (count + 1) parts) y (convert (List.cons a) r)
  | exactlyNil {α : Type} [Stored α] {p : Grammar σ ν ε α} {y : List σ} :
    Derives (.exactly p 0) y (some ([], y))
  | exactlyNone {α : Type} [Stored α] {p : Grammar σ ν ε α} {count : Nat} {y : List σ} :
    Derives p y none → Derives (.exactly p (count + 1)) y none
  | exactlyCons {α : Type} [Stored α] {p : Grammar σ ν ε α} {count : Nat} {y z : List σ} {a : α}
    {r : Option (List α × List σ)} :
    Derives p y (some (a, z)) → Derives (.exactly p count) z r →
    Derives (.exactly p (count + 1)) y (convert (List.cons a) r)
  | manyStop {α : Type} {p : Grammar σ ν ε α} {y : List σ} : Derives p y none →
    Derives (.many p) y (some ([], y))
  | manyMore {α : Type} {p : Grammar σ ν ε α} {y z : List σ} {a : α}
    {r : Option (List α × List σ)} :
    Derives p y (some (a, z)) → Derives (.many p) z r →
    Derives (.many p) y (convert (List.cons a) r)
  | atLeastNone {α : Type} [Stored α] {p : Grammar σ ν ε α} {count : Nat} {y : List σ} :
    Derives (.exactly p count) y none → Derives (.atLeast p count) y none
  | atLeast {α : Type} [Stored α] {p : Grammar σ ν ε α} {count : Nat} {y z : List σ}
    {values : List α} {r : Option (List α × List σ)} :
    Derives (.exactly p count) y (some (values, z)) → Derives (.many p) z r →
    Derives (.atLeast p count) y (convert (values ++ ·) r)

/-! ## One result at most -/

/-- The first result is a failure and so is the whole, or the whole goes on from its
value and rest. -/
def Chained (first : Option (α × List σ) → Prop) (next : α → List σ → Option (β × List σ) → Prop)
    (r : Option (β × List σ)) : Prop :=
  (first none ∧ r = none) ∨ ∃ a z, first (some (a, z)) ∧ next a z r

section

variable {first : Option (α × List σ) → Prop} {next : α → List σ → Option (β × List σ) → Prop}
  {r : Option (β × List σ)}

theorem Chained.none (h : Chained first next r) (failed : ∀ {s}, first s → s = .none) :
    r = .none := by
  rcases h with ⟨-, hr⟩ | ⟨a, z, hfirst, -⟩
  · exact hr
  · cases failed hfirst

theorem Chained.some (h : Chained first next r) {a : α} {z : List σ}
    (found : ∀ {s}, first s → s = .some (a, z)) :
    next a z r := by
  rcases h with ⟨hfirst, -⟩ | ⟨b, w, hfirst, hnext⟩
  · cases found hfirst
  · cases found hfirst
    exact hnext

end

variable [Symbol σ]

/-- What the last rule of a derivation says of the derivations before it. -/
def Derives.Last : {α : Type} → Grammar σ ν ε α → List σ → Option (α × List σ) → Prop
  | _, .any, y, r => r = takeOne (fun _ => true) y
  | _, .satisfy accepts, y, r => r = takeOne accepts y
  | _, .symbol expected, y, r => r = takeOne (fun a => a = expected) y
  | _, .literal expected, y, r => r = takeRun expected y
  | _, .endOfInput, y, r => r = if y = [] then some ((), y) else none
  | _, .succeed value, y, r => r = some (value, y)
  | _, .fail, _, r => r = none
  | _, .orElse p q, y, r =>
    (∃ s, Derives p y (some s) ∧ r = some s) ∨ Derives p y none ∧ Derives q y r
  | _, .choiceOf 0 _, _, r => r = none
  | _, .choiceOf (count + 1) parts, y, r =>
    (∃ s, Derives (parts 0) y (some s) ∧ r = some s) ∨
      Derives (parts 0) y none ∧ Derives (.choiceOf count fun i => parts i.succ) y r
  | _, .optional p, y, r => ∃ s, Derives p y s ∧ r = some ((convert some s).getD (none, y))
  | _, .lookAhead p, y, r => ∃ s, Derives p y s ∧ r = s.map fun success => (success.1, y)
  | _, .notAhead p, y, r => ∃ s, Derives p y s ∧ r = if s.isSome then none else some ((), y)
  | _, .filter accepts p, y, r => ∃ s, Derives p y s ∧ r = s.filter fun success => accepts success.1
  | _, .map f p, y, r => ∃ s, Derives p y s ∧ r = convert f s
  | _, .ignore p, y, r => ∃ s, Derives p y s ∧ r = convert (fun _ => ()) s
  | _, .pair p q, y, r =>
    Chained (Derives p y) (fun a z r => ∃ s, Derives q z s ∧ r = convert (fun b => (a, b)) s) r
  | _, .keepLeft p q, y, r =>
    Chained (Derives p y) (fun a z r => ∃ s, Derives q z s ∧ r = convert (fun _ => a) s) r
  | _, .keepRight p q, y, r => Chained (Derives p y) (fun _ z r => Derives q z r) r
  | _, .between opening p closing, y, r =>
    Chained (Derives opening y)
      (fun _ z r =>
        Chained (Derives p z)
          (fun b w r => ∃ s, Derives closing w s ∧ r = convert (fun _ => b) s) r)
      r
  | _, .sequenceOf 0 _, y, r => r = some ([], y)
  | _, .sequenceOf (count + 1) parts, y, r =>
    Chained (Derives (parts 0) y)
      (fun a z r => ∃ s, Derives (.sequenceOf count fun i => parts i.succ) z s ∧
        r = convert (List.cons a) s) r
  | _, @Grammar.exactly _ _ _ _ _ _ 0, y, r => r = some ([], y)
  | _, @Grammar.exactly _ _ _ _ _ p (count + 1), y, r =>
    Chained (Derives p y)
      (fun a z r => ∃ s, Derives (.exactly p count) z s ∧ r = convert (List.cons a) s) r
  | _, .many p, y, r =>
    (Derives p y none ∧ r = some ([], y)) ∨
      ∃ a z, Derives p y (some (a, z)) ∧ ∃ s, Derives (.many p) z s ∧ r = convert (List.cons a) s
  | _, @Grammar.atLeast _ _ _ _ _ p count, y, r =>
    Chained (Derives (.exactly p count) y)
      (fun values z r => ∃ s, Derives (.many p) z s ∧ r = convert (values ++ ·) s) r
  | _, _, _, _ => False

theorem Derives.last {g : Grammar σ ν ε α} {y : List σ} {r : Option (α × List σ)}
    (h : Derives g y r) : Last g y r := by
  cases h with
  | any | satisfy | symbol | literal | endOfInput | succeed | fail | choiceNone | sequenceNil
  | exactlyNil => rfl
  | orElseFirst h | choiceFirst h => exact Or.inl ⟨_, h, rfl⟩
  | orElseSecond hp hq | choiceLater hp hq => exact Or.inr ⟨hp, hq⟩
  | optional h | lookAhead h | notAhead h | filter h | map h | ignore h => exact ⟨_, h, rfl⟩
  | pairNone h | keepLeftNone h | keepRightNone h | betweenNone h | sequenceNone h | exactlyNone h
  | atLeastNone h =>
    exact Or.inl ⟨h, rfl⟩
  | pair hp hq | keepLeft hp hq | sequenceCons hp hq | exactlyCons hp hq | atLeast hp hq
  | manyMore hp hq =>
    exact Or.inr ⟨_, _, hp, _, hq, rfl⟩
  | keepRight hp hq => exact Or.inr ⟨_, _, hp, hq⟩
  | betweenOpened ho hp => exact Or.inr ⟨_, _, ho, Or.inl ⟨hp, rfl⟩⟩
  | between ho hp hc => exact Or.inr ⟨_, _, ho, Or.inr ⟨_, _, hp, _, hc, rfl⟩⟩
  | manyStop h => exact Or.inl ⟨h, rfl⟩

/-- A grammar derives one result at most. -/
theorem Derives.unique {g : Grammar σ ν ε α} {y : List σ} {r other : Option (α × List σ)}
    (h : Derives g y r) (hother : Derives g y other) : other = r := by
  -- The last rule of the other derivation is read off the grammar, since its type may be that of
  -- several rules.
  induction h with
  | any | satisfy | symbol | literal | endOfInput | succeed | fail | choiceNone | sequenceNil
  | exactlyNil =>
    exact hother.last
  | orElseFirst _ ih | choiceFirst _ ih =>
    rcases hother.last with ⟨s, hs, rfl⟩ | ⟨hnone, -⟩
    · exact ih hs
    · cases ih hnone
  | orElseSecond _ _ ihp ihq | choiceLater _ _ ihp ihq =>
    rcases hother.last with ⟨s, hs, -⟩ | ⟨-, hnext⟩
    · cases ihp hs
    · exact ihq hnext
  | optional _ ih | lookAhead _ ih | notAhead _ ih | filter _ ih | map _ ih | ignore _ ih =>
    obtain ⟨s, hs, rfl⟩ := hother.last
    rw [ih hs]
  | pairNone _ ih | keepLeftNone _ ih | keepRightNone _ ih | betweenNone _ ih | sequenceNone _ ih
  | exactlyNone _ ih
  | atLeastNone _ ih =>
    have hlast := hother.last
    dsimp only [Last] at hlast
    exact hlast.none ih
  | pair _ _ ihp ihq | keepLeft _ _ ihp ihq | sequenceCons _ _ ihp ihq | exactlyCons _ _ ihp ihq
  | atLeast _ _ ihp ihq =>
    have hlast := hother.last
    dsimp only [Last] at hlast
    obtain ⟨s, hs, rfl⟩ := hlast.some ihp
    rw [ihq hs]
  | keepRight _ _ ihp ihq => exact ihq (hother.last.some ihp)
  | betweenOpened _ _ iho ihp => exact (hother.last.some iho).none ihp
  | between _ _ _ iho ihp ihc =>
    obtain ⟨s, hs, rfl⟩ := (hother.last.some iho).some ihp
    rw [ihc hs]
  | manyStop _ ih =>
    rcases hother.last with ⟨-, hr⟩ | ⟨a, z, hp, -⟩
    · exact hr
    · cases ih hp
  | manyMore _ _ ihp ihq =>
    rcases hother.last with ⟨hnone, -⟩ | ⟨a, z, hp, s, hs, rfl⟩
    · cases ihp hnone
    · cases ihp hp
      rw [ihq hs]

end Rewind
