import Rewind.Proofs.Exhaustion
import Rewind.Proofs.Places

/-!
# Matching at a place

Where the positions of an input fit into words, what a run finds at a place is settled by the
symbols from that place on, and so is how far it looks (`Run.Finds`). A run of expected symbols goes
as far as it agrees with these, whether it is there in whole or not (`matchAll_finds`). Where only
the answer matters and not how far it was looked for, there is `Run.Comes`. Its rules follow the
constructs of a grammar, and what a grammar comes to is put together from what its parts come to.
-/
namespace Rewind

variable {τ σ ε α β γ : Type} [Source τ σ] [Symbol σ]

/-- The number of symbols at the beginning that two lists have in common. -/
def agreement : List σ → List σ → Nat
  | a :: x, b :: y => if a = b then agreement x y + 1 else 0
  | _, _ => 0

omit [Source τ σ] in
/-- Two lists agree as far as the one, up to there, is the beginning of the other. -/
theorem le_agreement_iff {expected y : List σ} {k : Nat} :
    k ≤ agreement expected y ↔ k ≤ expected.length ∧ expected.take k <+: y := by
  induction expected generalizing y k with
  | nil => simp [agreement]
  | cons a expected ih =>
    cases k with
    | zero => simp
    | succ k =>
      cases y with
      | nil => simp [agreement]
      | cons b y =>
        by_cases hab : a = b
        · simp [agreement, hab, ih]
        · simp [agreement, hab]

omit [Source τ σ] in
theorem agreement_eq_length_iff {expected y : List σ} :
    agreement expected y = expected.length ↔ expected <+: y := by
  have hle := (le_agreement_iff (y := y).mp (Nat.le_refl (agreement expected y))).1
  have hwhole : expected.length ≤ agreement expected y ↔ _ := le_agreement_iff
  simp only [Nat.le_refl, List.take_length, true_and] at hwhole
  rw [← hwhole]
  omega

omit [Source τ σ] in
theorem agreement_of_head_ne {a : σ} (expected : List σ) {y : List σ} (h : y.head? ≠ some a) :
    ¬ a :: expected <+: y ∧ agreement (a :: expected) y = 0 := by
  cases y with
  | nil => simp [agreement]
  | cons b y =>
    have hne : a ≠ b := by
      rintro rfl
      exact h rfl
    simp [agreement, hne]

/-- From a chain that reaches to a place, the run finds the value, and the chain reaches as far as
is told then, or as far as before. -/
def Run.Finds (left : τ → List σ → Prop) (input : Input σ) (start : Nat) (x : Run τ σ ε α) (a : α)
    (far : Nat) : Prop :=
  ∀ (session : Session τ σ ε) (last : Stream σ), session.chain.Reaches left input last →
  start ≤ last.node →
    ∃ final now, x session = .ok a final ∧ final.chain.Reaches left input now ∧
    now.node = max last.node far

/-- The run finds the outcome, and reaches the stream that it leaves. -/
def Run.Comes (left : τ → List σ → Prop) (input : Input σ) (start : Nat)
    (x : Run τ σ ε (Outcome σ α)) (outcome : Outcome σ α) : Prop :=
  ∃ far, outcome.rest.node ≤ max start far ∧ Run.Finds left input start x outcome far

variable {left : τ → List σ → Prop} {input : Input σ} {start : Nat}

section

omit [Source τ σ]

/-! ## How far a run looks -/

theorem finds_pure (a : α) {far : Nat} (le : far ≤ start) :
    Run.Finds left input start (pure a : Run τ σ ε α) a far := by
  intro session last reaches hstart
  exact ⟨session, last, rfl, reaches, by omega⟩

/-- What comes second may start wherever the first has looked. -/
theorem Run.Finds.bind {x : Run τ σ ε α} {f : α → Run τ σ ε β} {a : α} {b : β}
    {far further middle : Nat} (first : Run.Finds left input start x a far)
    (second : Run.Finds left input middle (f a) b further) (le : middle ≤ max start far) :
    Run.Finds left input start (x >>= f) b (max far further) := by
  intro session last reaches hstart
  obtain ⟨between, now, hfirst, hreaches, hnow⟩ := first session last reaches hstart
  obtain ⟨final, after, hsecond, hfinal, hafter⟩ := second between now hreaches (by omega)
  exact ⟨final, after, (bind_of_ok hfirst f).trans hsecond, hfinal, by omega⟩

/-- An answer that is made of what was found takes no further look. -/
theorem Run.Finds.answer {x : Run τ σ ε α} {f : α → Run τ σ ε β} {a : α} {b : β} {far : Nat}
    (first : Run.Finds left input start x a far) (h : f a = pure b) :
    Run.Finds left input start (x >>= f) b far := by
  intro session last reaches hstart
  obtain ⟨final, now, hfirst, hnow⟩ := first session last reaches hstart
  refine ⟨final, now, ?_, hnow⟩
  rw [bind_of_ok hfirst, h]
  rfl

/-! ## What the constructs of a grammar come to -/

theorem comes_pure {outcome : Outcome σ α} (le : outcome.rest.node ≤ start) :
    Run.Comes left input start (pure outcome : Run τ σ ε (Outcome σ α)) outcome :=
  ⟨start, by omega, finds_pure outcome (Nat.le_refl start)⟩

/-- What comes second may start at the stream that the first leaves. -/
theorem Run.Comes.bind {x : Run τ σ ε (Outcome σ α)} {f : Outcome σ α → Run τ σ ε (Outcome σ β)}
    {first : Outcome σ α} {second : Outcome σ β} {middle : Nat}
    (hx : Run.Comes left input start x first) (hf : Run.Comes left input middle (f first) second)
    (le : middle ≤ max start first.rest.node) :
    Run.Comes left input start (x >>= f) second := by
  obtain ⟨far, hfar, hx⟩ := hx
  obtain ⟨further, hfurther, hf⟩ := hf
  exact ⟨max far further, by omega, hx.bind hf (by omega)⟩

variable {p : Parser τ σ ε α} {q : Parser τ σ ε β} {s t : Stream σ} {a : α} {outcome : Outcome σ α}

theorem map_comes (f : α → β) (h : Run.Comes left input s.node (p s) outcome) :
    Run.Comes left input s.node (Parser.map f p s) (outcome.map f) := by
  refine h.bind (comes_pure ?_) (Nat.le_refl _)
  cases outcome <;> exact Nat.le_max_right _ _

theorem notAhead_comes_failure (h : Run.Comes left input s.node (p s) (.success a t)) :
    Run.Comes left input s.node (Parser.notAhead p s) (.failure s) :=
  h.bind (comes_pure (Nat.le_refl s.node)) (Nat.le_max_left _ _)

theorem notAhead_comes_success (h : Run.Comes left input s.node (p s) (.failure t)) :
    Run.Comes left input s.node (Parser.notAhead p s) (.success () s) :=
  h.bind (comes_pure (Nat.le_refl s.node)) (Nat.le_max_left _ _)

theorem keepRight_comes {reply : Outcome σ β} (h : Run.Comes left input s.node (p s) (.success a t))
    (hq : Run.Comes left input t.node (q t) reply) :
    Run.Comes left input s.node (Parser.keepRight p q s) reply :=
  h.bind hq (Nat.le_max_right _ _)

theorem keepRight_comes_failure (h : Run.Comes left input s.node (p s) (.failure t)) :
    Run.Comes left input s.node (Parser.keepRight p q s) (.failure t) :=
  h.bind (comes_pure (Nat.le_refl t.node)) (Nat.le_max_right _ _)

theorem keepLeft_comes {reply : Outcome σ β} (h : Run.Comes left input s.node (p s) (.success a t))
    (hq : Run.Comes left input t.node (q t) reply) :
    Run.Comes left input s.node (Parser.keepLeft p q s) (reply.map fun _ => a) :=
  h.bind (map_comes (fun _ => a) hq) (Nat.le_max_right _ _)

theorem manyFrom_comes_stop {fuel : Nat} {values : List α}
    (h : Run.Comes left input s.node (p s) (.failure t)) :
    Run.Comes left input s.node (Parser.manyFrom p (fuel + 1) values s)
      (.success values.reverse s) :=
  h.bind (comes_pure (Nat.le_refl s.node)) (Nat.le_max_left _ _)

theorem manyFrom_comes_more {fuel : Nat} {values : List α} {reply : Outcome σ (List α)}
    (h : Run.Comes left input s.node (p s) (.success a t))
    (moved : t.position.index ≠ s.position.index)
    (hrest : Run.Comes left input t.node (Parser.manyFrom p fuel (a :: values) t) reply) :
    Run.Comes left input s.node (Parser.manyFrom p (fuel + 1) values s) reply := by
  have hround : Run.Comes left input t.node
      (if t.position.index = s.position.index then do
        Run.note (.zeroWidthRepetition s.position)
        return .error s (.ofText Parser.zeroWidthRepetition)
      else Parser.manyFrom p fuel (a :: values) t) reply := by
    rwa [if_neg moved]
  exact h.bind hround (Nat.le_max_right _ _)

end

/-! ## Symbols -/

omit [Source τ σ] in
@[simp] theorem Input.node_node (input : Input σ) (i : Nat) : (input.node i).node = i := rfl

omit [Source τ σ] in
@[simp] theorem Input.node_current (input : Input σ) (i : Nat) :
    (input.node i).current = input.symbols[i]? :=
  rfl

variable (serves : Serves left) (fits : ∀ i ≤ input.symbols.length, (input.position i).Fits)

include serves fits

theorem finds_consume {i : Nat} (lt : i < input.symbols.length) :
    Run.Finds left input i (Run.consume (input.node i) : Run τ σ ε (Stream σ)) (input.node (i + 1))
      (i + 1) := by
  intro session last reaches hstart
  have hplace : input.place (i + 1) = .ok (input.node (i + 1)) :=
    Input.place_eq lt fun k hk => fits k (Nat.le_trans hk lt)
  rcases Chain.consume_found serves reaches (s := input.node i) hstart hplace with
    ⟨hconsume, hle⟩ | ⟨found, hconsume, hlast, -, hfound⟩
  · exact ⟨_, last, Run.consume_ok hconsume, reaches, (Nat.max_eq_left hle).symm⟩
  · refine ⟨_, _, Run.consume_ok hconsume, hfound, ?_⟩
    simp only [Input.node_node] at hlast ⊢
    omega

/-- Matching goes as far as there is agreement, and finds the end of the expected symbols if
they are there. -/
theorem matchAll_finds (expected : List σ) {i : Nat} (le : i ≤ input.symbols.length) :
    Run.Finds left input i (Parser.matchAll expected (input.node i) : Run τ σ ε (Option (Stream σ)))
      (if expected <+: input.symbols.drop i then some (input.node (i + expected.length)) else none)
      (i + agreement expected (input.symbols.drop i)) := by
  induction expected generalizing i with
  | nil => simpa [Parser.matchAll, agreement] using finds_pure (some (input.node i)) (Nat.le_refl i)
  | cons a expected ih =>
    rw [Parser.matchAll, Input.node_current]
    by_cases hfirst : input.symbols[i]? = some a
    · obtain ⟨hlt, rfl⟩ := List.getElem?_eq_some_iff.mp hfirst
      have hrest := (finds_consume (τ := τ) (ε := ε) serves fits hlt).bind (ih hlt) (by omega)
      rw [if_pos hfirst, List.drop_eq_getElem_cons hlt]
      simpa only [agreement, if_true, List.cons_prefix_cons, true_and, List.length_cons,
        Nat.add_assoc, Nat.add_comm 1,
        Nat.max_eq_right (Nat.add_le_add_left (Nat.le_add_left 1 _) i)] using hrest
    · have hhead : (input.symbols.drop i).head? ≠ some a := by simpa using hfirst
      obtain ⟨hnone, hagree⟩ := agreement_of_head_ne expected hhead
      rw [if_neg hfirst, if_neg hnone, hagree]
      exact finds_pure none (Nat.le_refl i)

/-- A literal is there or it is not, and is looked for as far as there is agreement. -/
theorem literal_finds (expected : List σ) {i : Nat} (le : i ≤ input.symbols.length) :
    Run.Finds left input i (Parser.literal expected (input.node i) : Run τ σ ε (Outcome σ (List σ)))
      (if expected <+: input.symbols.drop i then .success expected
        (input.node (i + expected.length))
        else .failure (input.node i))
      (i + agreement expected (input.symbols.drop i)) := by
  refine (matchAll_finds serves fits expected le).answer ?_
  by_cases hthere : expected <+: input.symbols.drop i <;> simp [hthere]

theorem literal_comes (expected : List σ) {i : Nat} (le : i ≤ input.symbols.length) :
    Run.Comes left input i (Parser.literal expected (input.node i) : Run τ σ ε (Outcome σ (List σ)))
      (if expected <+: input.symbols.drop i then .success expected
        (input.node (i + expected.length))
        else .failure (input.node i)) := by
  refine ⟨_, ?_, literal_finds serves fits expected le⟩
  split
  · rename_i hthere
    rw [agreement_eq_length_iff.mpr hthere]
    exact Nat.le_max_right _ _
  · exact Nat.le_max_left _ _

theorem any_comes {i : Nat} (lt : i < input.symbols.length) :
    Run.Comes left input i (Parser.any (input.node i) : Run τ σ ε (Outcome σ σ))
      (.success input.symbols[i] (input.node (i + 1))) := by
  refine ⟨i + 1, Nat.le_max_right _ _, ?_⟩
  rw [Parser.any, Input.node_current, List.getElem?_eq_getElem lt]
  exact (finds_consume serves fits lt).answer rfl

omit serves fits in
theorem any_comes_end {i : Nat} (le : input.symbols.length ≤ i) :
    Run.Comes left input i (Parser.any (input.node i) : Run τ σ ε (Outcome σ σ))
      (.failure (input.node i)) := by
  rw [Parser.any, Input.node_current, List.getElem?_eq_none le]
  exact comes_pure (Nat.le_refl i)

/-! ## Nodes of a history -/

omit serves in
/-- Whatever was done before, a node of the chain is the node at its place, and the chain
reaches to it. -/
theorem Visit.node_of_history {source : τ} {capacity : Nat} {window : Window τ σ}
    (honest : Honest source input.symbols)
    (opened : Window.withCapacity source capacity = .ok window) (history : List (Nat × Action σ ε))
    {s : Stream σ}
    (node : ((ofWindow window input.start).actAll history).session.chain.Node
      (Chain.ofWindow window input.start).1 s) :
    s.node ≤ input.symbols.length ∧ input.node s.node = s ∧
      ∃ last, ((ofWindow window input.start).actAll history).session.chain.Reaches Honest
        input last ∧
        s.node ≤ last.node := by
  obtain ⟨hs, last, hreaches, hle⟩ := has_of_history honest opened history node
  have hplace := Input.place_eq hs.node_le fun k hk => fits k (Nat.le_trans hk hs.node_le)
  exact ⟨hs.node_le, Except.ok.inj (hplace.symm.trans hs), last, hreaches, hle⟩

end Rewind
