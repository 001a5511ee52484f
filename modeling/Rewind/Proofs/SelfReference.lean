import Mathlib.Tactic.TFAE
import Rewind.Proofs.Invocation
import Rewind.Proofs.Ownership

/-!
# Grammars that refer to themselves

A grammar can refer to itself in two ways. It can be declared first, be given a handle for what has
been declared, and be defined by what it makes of it. Or it can be built again wherever it meets
itself. Both are written here as a body with a name for itself in it (`Opened.self`), which is then
filled with the one reference or the other.

Filling replaces names, and to parse what has been filled is to parse the body with other parsers
for its names (`parseWith_subst`). So the two have the same runs for each fuel (`parse_fill`), those
that never end included. The main theorem is `recursive_iff_lazy`. It starts from what a workspace
holds, in which the declared parser lasts as long as it is owned.
-/
namespace Rewind

variable {τ σ ε α β : Type} {ν μ : Type → Type}

/-! ## Names -/

namespace Grammar

/-- Other grammars in place of the names of a grammar. -/
def subst (rule lazy : {α : Type} → ν α → Grammar σ μ ε α) :
    {α : Type} → Grammar σ ν ε α → Grammar σ μ ε α
  | _, .any => .any
  | _, .satisfy accepts => .satisfy accepts
  | _, .symbol expected => .symbol expected
  | _, .literal expected => .literal expected
  | _, .endOfInput => .endOfInput
  | _, .succeed value => .succeed value
  | _, .fail => .fail
  | _, .error text => .error text
  | _, .cut text => .cut text
  | _, .orElse p q => .orElse (p.subst rule lazy) (q.subst rule lazy)
  | _, .choiceOf count parts => .choiceOf count fun i => (parts i).subst rule lazy
  | _, .optional p => .optional (p.subst rule lazy)
  | _, .lookAhead p => .lookAhead (p.subst rule lazy)
  | _, .notAhead p => .notAhead (p.subst rule lazy)
  | _, .filter accepts p => .filter accepts (p.subst rule lazy)
  | _, .map f p => .map f (p.subst rule lazy)
  | _, .ignore p => .ignore (p.subst rule lazy)
  | _, .bind p next => .bind (p.subst rule lazy) fun value => (next value).subst rule lazy
  | _, .pair p q => .pair (p.subst rule lazy) (q.subst rule lazy)
  | _, .keepLeft p q => .keepLeft (p.subst rule lazy) (q.subst rule lazy)
  | _, .keepRight p q => .keepRight (p.subst rule lazy) (q.subst rule lazy)
  | _, .between opening p closing =>
    .between (opening.subst rule lazy) (p.subst rule lazy) (closing.subst rule lazy)
  | _, .sequenceOf count parts => .sequenceOf count fun i => (parts i).subst rule lazy
  | _, @exactly _ _ _ _ _ p count => .exactly (p.subst rule lazy) count
  | _, .many p => .many (p.subst rule lazy)
  | _, @atLeast _ _ _ _ _ p count => .atLeast (p.subst rule lazy) count
  | _, .separated p separator => .separated (p.subst rule lazy) (separator.subst rule lazy)
  | _, .label text p => .label text (p.subst rule lazy)
  | _, .commit text p => .commit text (p.subst rule lazy)
  | _, .attempt p => .attempt (p.subst rule lazy)
  | _, .boundary p => .boundary (p.subst rule lazy)
  | _, .spanned p => .spanned (p.subst rule lazy)
  | _, .inspect observe p => .inspect observe (p.subst rule lazy)
  | _, .rule name => rule name
  | _, .lazy name => lazy name
  | _, .scripted script => .scripted script

variable [Source τ σ] [Symbol σ]

/-- To parse a grammar with other grammars for its names is to parse it with their parsers. -/
theorem parseWith_subst (fuel : Nat) (rule lazy : {α : Type} → μ α → Parser τ σ ε α)
    (onRule onLazy : {α : Type} → ν α → Grammar σ μ ε α) (g : Grammar σ ν ε α) :
    parseWith fuel rule lazy (g.subst onRule onLazy) = parseWith fuel
      (fun name => parseWith fuel rule lazy (onRule name))
      (fun name => parseWith fuel rule lazy (onLazy name)) g := by
  induction g with
  | any | satisfy | symbol | literal | endOfInput | succeed | fail | error | cut | rule | lazy
  | scripted => rfl
  | orElse p q hp hq => exact congrArg₂ Parser.orElse hp hq
  | choiceOf count parts hparts =>
    exact congrArg (fun ps => Parser.choice (List.ofFn ps)) (funext hparts)
  | optional p hp => exact congrArg Parser.optional hp
  | lookAhead p hp => exact congrArg Parser.lookAhead hp
  | notAhead p hp => exact congrArg Parser.notAhead hp
  | filter accepts p hp => exact congrArg (Parser.filter accepts) hp
  | map f p hp => exact congrArg (Parser.map f) hp
  | ignore p hp => exact congrArg Parser.ignore hp
  | bind p next hp hnext => exact congrArg₂ Parser.bind hp (funext hnext)
  | pair p q hp hq => exact congrArg₂ Parser.pair hp hq
  | keepLeft p q hp hq => exact congrArg₂ Parser.keepLeft hp hq
  | keepRight p q hp hq => exact congrArg₂ Parser.keepRight hp hq
  | between opening p closing hopening hp hclosing =>
    change Parser.between (parseWith fuel rule lazy (opening.subst onRule onLazy)) _ _ = _
    rw [hopening, hp, hclosing]
    rfl
  | sequenceOf count parts hparts =>
    exact congrArg (fun ps => Parser.sequence (List.ofFn ps)) (funext hparts)
  | exactly p count hp => exact congrArg (Parser.exactly · count) hp
  | many p hp => exact congrArg (Parser.many fuel) hp
  | atLeast p count hp => exact congrArg (Parser.atLeast fuel · count) hp
  | separated p separator hp hseparator => exact congrArg₂ (Parser.separated fuel) hp hseparator
  | label text p hp => exact congrArg (Parser.label text) hp
  | commit text p hp => exact congrArg (Parser.commit text) hp
  | attempt p hp => exact congrArg Parser.attempt hp
  | boundary p hp => exact congrArg Parser.boundary hp
  | spanned p hp => exact congrArg Parser.spanned hp
  | inspect observe p hp => exact congrArg (Parser.inspect observe) hp

/-- The parser of a rule in a table. -/
theorem parse_rule (rules : Rules σ ν ε) (fuel : Nat) {α : Type} (name : ν α) :
    ((rule name : Grammar σ ν ε α).parse rules (fuel + 1) : Parser τ σ ε α) =
      match rules.slot name with
      | .undefined => Parser.undefinedRule
      | .dropped => Parser.droppedRule
      | .defined definition => parse rules fuel definition :=
  rfl

theorem parse_lazy (rules : Rules σ ν ε) (fuel : Nat) {α : Type} (name : ν α) (s : Stream σ) :
    ((Grammar.lazy name : Grammar σ ν ε α).parse rules (fuel + 1) s : Run τ σ ε (Outcome σ α)) = (do
      emitAll (rules.build name).events
      parse rules fuel (rules.build name).grammar s) :=
  rfl

end Grammar

/-! ## Bodies -/

/-- The names of a body that yields values of type `β`: one for itself, and others. -/
inductive Opened (ν : Type → Type) (β α : Type) : Type where
  | itself (yields : β = α)
  | other (name : ν α)

/-- One thing for the body itself, and another for each of the other names. -/
def Opened.elim {motive : Type → Type*} (self : motive β) (other : {α : Type} → ν α → motive α) :
    {α : Type} → Opened ν β α → motive α
  | _, .itself rfl => self
  | _, .other name => other name

namespace Grammar

/-- A handle for the body, once it has been declared. -/
def handle : Grammar σ (Opened ν β) ε β := .rule (.itself rfl)

/-- The body, built again. -/
def rebuilt : Grammar σ (Opened ν β) ε β := .lazy (.itself rfl)

/-- A grammar in place of each reference to the body. -/
def fill (g : Grammar σ (Opened ν β) ε α) (self : Grammar σ (Opened ν β) ε β) :
    Grammar σ (Opened ν β) ε α :=
  g.subst (Opened.elim self fun name => .rule (.other name)) (Opened.elim self fun name =>
    .lazy (.other name))

end Grammar

def Slot.map {γ : Type*} {δ : Type*} (f : γ → δ) : Slot γ → Slot δ
  | .undefined => .undefined
  | .defined definition => .defined (f definition)
  | .dropped => .dropped

def Product.fill (product : Product σ (Opened ν β) ε α) (self : Grammar σ (Opened ν β) ε β) :
    Product σ (Opened ν β) ε α :=
  ⟨product.events, product.grammar.fill self⟩

namespace Rules

/-- The body has been declared, and a slot holds it. What other names stand for may
refer to it too. -/
def tie (rules : Rules σ (Opened ν β) ε) (state : Slot (Grammar σ (Opened ν β) ε β)) :
    Rules σ (Opened ν β) ε where
  slot := Opened.elim (motive := fun α => Slot (Grammar σ (Opened ν β) ε α))
    (state.map (·.fill .handle))
    fun name => (rules.slot (.other name)).map (·.fill .handle)
  build name := (rules.build name).fill .handle

/-- The body is built again wherever something refers to it. -/
def loop (rules : Rules σ (Opened ν β) ε) (body : Grammar σ (Opened ν β) ε β) :
    Rules σ (Opened ν β) ε where
  slot name := (rules.slot name).map (·.fill .rebuilt)
  build := Opened.elim (motive := fun α => Product σ (Opened ν β) ε α) ⟨[], body.fill .rebuilt⟩
    fun name => (rules.build (.other name)).fill .rebuilt

end Rules

/-! ## Runs -/

section Runs

variable [Source τ σ] [Symbol σ] (rules : Rules σ (Opened ν β) ε)
  (body : Grammar σ (Opened ν β) ε β)

/-- A handle parses as the definition. -/
theorem parse_handle (fuel : Nat) (s : Stream σ) :
    (Grammar.handle.parse (rules.tie (.defined body)) (fuel + 1) s : Run τ σ ε (Outcome σ β)) =
      (body.fill .handle).parse (rules.tie (.defined body)) fuel s :=
  rfl

theorem parse_rebuilt (fuel : Nat) (s : Stream σ) :
    (Grammar.rebuilt.parse (rules.loop body) (fuel + 1) s : Run τ σ ε (Outcome σ β)) =
      (body.fill .rebuilt).parse (rules.loop body) fuel s :=
  rfl

/-- Whatever refers to the body does the same either way, with each fuel. -/
theorem parse_fill (fuel : Nat) (g : Grammar σ (Opened ν β) ε α) :
    ((g.fill .handle).parse (rules.tie (.defined body)) fuel : Parser τ σ ε α) =
      (g.fill .rebuilt).parse (rules.loop body) fuel := by
  induction fuel generalizing α g with
  | zero => rfl
  | succ fuel ih =>
    -- Only the parsers of the names differ in how they are come by, and all of these have less
    -- fuel.
    change Grammar.parseWith fuel _ _ (g.subst _ _) = Grammar.parseWith fuel _ _ (g.subst _ _)
    rw [Grammar.parseWith_subst, Grammar.parseWith_subst]
    congr 1
    · funext α name
      cases name with
      | itself yields =>
        cases yields
        exact ih body
      | other name =>
        change (Grammar.rule (.other name)).parse (rules.tie (.defined body)) (fuel + 1) =
          (Grammar.rule (.other name)).parse (rules.loop body) (fuel + 1)
        have htied : (rules.tie (.defined body)).slot (.other name) =
            (rules.slot (.other name)).map (·.fill .handle) := rfl
        have hlooped : (rules.loop body).slot (.other name) =
            (rules.slot (.other name)).map (·.fill .rebuilt) := rfl
        rw [Grammar.parse_rule, Grammar.parse_rule, htied, hlooped]
        cases rules.slot (.other name) with
        | undefined => rfl
        | dropped => rfl
        | defined definition => exact ih definition
    · funext α name
      cases name with
      | itself yields =>
        cases yields
        exact ih body
      | other name =>
        funext s
        change (Grammar.lazy (.other name)).parse (rules.tie (.defined body)) (fuel + 1) s =
          (Grammar.lazy (.other name)).parse (rules.loop body) (fuel + 1) s
        have htied : (rules.tie (.defined body)).build (.other name) =
            (rules.build (.other name)).fill .handle := rfl
        have hlooped : (rules.loop body).build (.other name) =
            (rules.build (.other name)).fill .rebuilt := rfl
        rw [Grammar.parse_lazy, Grammar.parse_lazy, htied, hlooped, Product.fill, Product.fill, ih]

variable {rules body}

/-- What parses as another grammar does with less fuel comes to the same ends. -/
theorem ends_iff_of_succ {table : Rules σ ν ε} {g h : Grammar σ ν ε α} {s : Stream σ}
    (step : ∀ fuel, (g.parse table (fuel + 1) s : Run τ σ ε (Outcome σ α)) = h.parse table fuel s)
    (session final : Session τ σ ε) (outcome : Outcome σ α) :
    (∃ fuel, g.parse table fuel s session = .ok outcome final) ↔
      ∃ fuel, h.parse table fuel s session = .ok outcome final := by
  constructor
  · rintro ⟨fuel, ended⟩
    cases fuel with
    | zero => cases ended
    | succ fuel =>
      rw [step] at ended
      exact ⟨fuel, ended⟩
  · rintro ⟨fuel, ended⟩
    refine ⟨fuel + 1, ?_⟩
    rw [step]
    exact ended

/-- A body is declared and defined, and then whatever else is done, as long as it is still owned: a
name that holds it, be it an owner or a handle, ends exactly where the body does that is built again
wherever it meets itself, and so does what the body makes of either. -/
theorem recursive_iff_lazy {κ γ : Type} [DecidableEq κ] (w : Workspace κ γ) (name : κ)
    (definition : γ) (mentioned : List κ) (changes : List (Change κ γ)) {now : Workspace κ γ}
    (reached : (w.recursive name definition mentioned).applyAll changes = now)
    (owned : now.isOwned w.declarations.length = true) {mention : κ} {holding : Holding}
    (found : now.find? mention = some holding) (refers : holding.slot = w.declarations.length)
    (written : γ → Grammar σ (Opened ν β) ε β) (rules : Rules σ (Opened ν β) ε) (s : Stream σ)
    (session final : Session τ σ ε) (outcome : Outcome σ β) :
    [∃ fuel, Grammar.handle.parse (rules.tie ((now.stateOf mention).map written)) fuel s session =
      .ok outcome final,
      ∃ fuel, ((written definition).fill .handle).parse
        (rules.tie ((now.stateOf mention).map written)) fuel s session =
        .ok outcome final,
      ∃ fuel, Grammar.rebuilt.parse (rules.loop (written definition)) fuel s session =
        .ok outcome final,
      ∃ fuel, ((written definition).fill .rebuilt).parse (rules.loop (written definition))
        fuel s session =
        .ok outcome final].TFAE := by
  have hstate : now.stateOf mention = .defined definition := by
    rw [Workspace.stateOf, found]
    dsimp only
    rw [refers]
    rw [← reached] at owned ⊢
    exact Workspace.applyAll_keeps (w.recursive_slot name definition mentioned) owned
  rw [hstate, Slot.map]
  tfae_have 1 ↔ 2 :=
    ends_iff_of_succ (parse_handle rules (written definition) · s) session final outcome
  tfae_have 3 ↔ 4 :=
    ends_iff_of_succ (parse_rebuilt rules (written definition) · s) session final outcome
  tfae_have 2 ↔ 4 := exists_congr fun fuel => by rw [parse_fill]
  tfae_finish

end Runs

/-- Brackets around brackets. -/
def nested : Grammar Char (Opened (fun _ => Empty) Nat) Unit Nat :=
  .orElse (.map (· + 1) (.between (.symbol '[') .handle (.symbol ']')))
    (.map (fun _ => 0) (.symbol 'x'))

/-- The parser is declared and copied, and the first owner is dropped. A handle of the copy finds
what is built again and again. -/
theorem recursive_iff_lazy_nested :
    let opened : Stream Char × Session (Queue Char) Char Unit :=
      Session.ofWindow (.ofSource ⟨['[', '[', 'x', ']', ']']⟩) .start
    let first : Workspace Char Unit := Workspace.empty.recursive 'p' () []
    let now := first.applyAll [.clone 'p' 'q', .handle 'q' 'h', .drop 'p']
    let tied := Rules.none.tie ((now.stateOf 'h').map fun _ => nested)
    let reply : Outcome Char Nat := .success 2 ⟨5, none, ⟨1, 6, 5⟩⟩
    now.find? 'p' = none ∧ now.find? 'h' = some (.handle 0) ∧
      ∃ final, Grammar.handle.parse tied 4 opened.1 opened.2 = .ok reply final ∧
        ∃ fuel, Grammar.rebuilt.parse (Rules.none.loop nested) fuel opened.1 opened.2 =
          .ok reply final := by
  intro opened first now tied reply
  have found : now.find? 'h' = some (.handle 0) := by decide +kernel
  have owned : now.isOwned 0 = true :=
    Workspace.owned_of_find? (show now.find? 'q' = some (.owner 0) by decide +kernel) rfl
  obtain ⟨final, ended⟩ : ∃ final, Grammar.handle.parse tied 4 opened.1 opened.2 =
      .ok reply final :=
    Run.value?_eq_some (by decide +kernel)
  have hall := recursive_iff_lazy Workspace.empty 'p' () [] _ rfl owned found rfl
    (fun _ => nested) Rules.none opened.1 opened.2 final reply
  have hboth := hall.out 0 2
  exact ⟨by decide +kernel, found, final, ended, hboth.mp ⟨4, ended⟩⟩

end Rewind
