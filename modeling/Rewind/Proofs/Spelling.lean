import Rewind.Proofs.Matching
import Rewind.Proofs.Sequencing

/-!
# What literals spell

A literal is there exactly if its symbols are the beginning of what is left of the input, and it is
looked for no further than these two agree (`Grammar.Spells`). So a literal in two parts is the one
part and then the other (`append_prefix_iff`), and a literal is the list of its symbols, each
matched by itself. They succeed together and leave the same node. Where they miss, they differ in
how much they take back: a literal all of it, its parts and its symbols what came before the one
that misses. The main theorem is `literal_matches_prefix`.
-/
namespace Rewind

variable {τ σ ε α β : Type} {ν : Type → Type} [Symbol σ]

/-! ## Beginnings -/

omit [Symbol σ] in
theorem append_prefix_iff {first second y : List σ} :
    first ++ second <+: y ↔ first <+: y ∧ second <+: y.drop first.length := by
  induction first generalizing y with
  | nil => simp
  | cons a first ih =>
    cases y with
    | nil => simp
    | cons b y => simp [ih, and_assoc]

theorem agreement_append {first y : List σ} (there : first <+: y) (second : List σ) :
    agreement (first ++ second) y = first.length + agreement second (y.drop first.length) := by
  obtain ⟨rest, rfl⟩ := there
  induction first with
  | nil => simp
  | cons a first ih => simp_all [agreement]; omega

theorem agreement_append_of_not {first y : List σ} (absent : ¬ first <+: y) (second : List σ) :
    agreement (first ++ second) y = agreement first y := by
  induction first generalizing y with
  | nil => simp at absent
  | cons a first ih =>
    cases y with
    | nil => rfl
    | cons b y =>
      by_cases hab : a = b
      · simp_all [agreement]
      · simp [agreement, hab]

/-! ## Grammars that look for symbols -/

/-- Tried at any node of any input whose positions fit, whatever was done before, the grammar looks
for the expected symbols. If what is left of the input begins with them, then it succeeds with the
value at the node after them, and otherwise it fails. It finds the successors of no nodes but those
along which the two agree. -/
def Grammar.Spells (g : Grammar σ ν ε α) (expected : List σ) (value : α)
    (missed : Input σ → Stream σ → Stream σ) :
    Prop :=
  ∀ {τ : Type} [Source τ σ] {source : τ} {capacity : Nat} {window : Window τ σ} (input : Input σ),
    Honest source input.symbols → Window.withCapacity source capacity = .ok window →
    (∀ i ≤ input.symbols.length, (input.position i).Fits) →
    ∀ (history : List (Nat × Action σ ε)) (s : Stream σ),
      let session := ((Visit.ofWindow window input.start).actAll history).session
      let y := input.symbols.drop s.node
      session.chain.Node (Chain.ofWindow window input.start).1 s →
      ∀ (rules : Rules σ ν ε) (fuel : Nat), ∃ final,
        g.parse rules (fuel + 1) s session = .ok (if expected <+: y then
          .success value (input.node (s.node + expected.length))
            else .failure (missed input s)) final ∧
        ∀ k < input.symbols.length, ∀ t, final.chain.Knows (input.node k) t →
          session.chain.Knows (input.node k) t ∨ s.node ≤ k ∧ k < s.node + agreement expected y

variable [Source τ σ] {left : τ → List σ → Prop} {input : Input σ}

omit [Source τ σ] in
/-- A chain that has come to reach further has found the successors of the nodes in between. -/
theorem Chain.Reaches.knows_cases {c final : Chain τ σ} {last now : Stream σ}
    (reaches : c.Reaches left input last) (further : final.Reaches left input now) {k : Nat}
    (lt : k < input.symbols.length) {t : Stream σ} (knows : final.Knows (input.node k) t) :
    c.Knows (input.node k) t ∨ last.node ≤ k ∧ k < now.node := by
  rcases further.cell_cases knows with ⟨hbehind, u, hplace, hready⟩ | ⟨rfl, hcell⟩ | ⟨-, hspent, -⟩
  · by_cases hlast : k < last.node
    · obtain ⟨v, hv, hknown⟩ := reaches.behind k hlast
      cases hready
      cases hplace.symm.trans hv
      exact Or.inl hknown
    · exact Or.inr ⟨by omega, hbehind⟩
  -- The cell of the last node is ready only at the end of the input.
  · have hcurrent := further.has_last.current_eq
    rw [List.getElem?_eq_getElem lt] at hcurrent
    rw [Stream.cell, hcurrent] at hcell
    cases hcell
  · cases hspent

omit [Source τ σ] in
theorem spells_of_finds {g : Grammar σ ν ε α} {expected : List σ} {value : α}
    {missed : Input σ → Stream σ → Stream σ}
    (finds : ∀ {τ : Type} [Source τ σ] {left : τ → List σ → Prop} {input : Input σ}, Serves left →
      (∀ i ≤ input.symbols.length, (input.position i).Fits) →
      ∀ (rules : Rules σ ν ε) (fuel : Nat) {i : Nat}, i ≤ input.symbols.length →
      Run.Finds left input i (g.parse rules (fuel + 1) (input.node i) : Run τ σ ε (Outcome σ α))
        (if expected <+: input.symbols.drop i then .success value (input.node (i + expected.length))
          else .failure (missed input (input.node i)))
            (i + agreement expected (input.symbols.drop i))) : g.Spells expected value missed := by
  intro τ _ source capacity window input honest opened fits history s session y node rules fuel
  obtain ⟨hs, hnode, last, hreaches, hle⟩ := Visit.node_of_history fits honest opened history node
  obtain ⟨final, now, hended, hnow, hfar⟩ :=
    finds serves_honest fits rules fuel hs session last hreaches hle
  rw [hnode] at hended
  refine ⟨final, hended, ?_⟩
  intro k hk t knows
  rcases hreaches.knows_cases hnow hk knows with hknown | ⟨hlast, hbefore⟩
  · exact Or.inl hknown
  · refine Or.inr ⟨by omega, ?_⟩
    change k < s.node + agreement expected (input.symbols.drop s.node)
    omega

section

variable (serves : Serves left) (fits : ∀ i ≤ input.symbols.length, (input.position i).Fits)

include serves fits

theorem symbol_finds {i : Nat} {a : σ} (there : input.symbols[i]? = some a) :
    Run.Finds left input i (Parser.symbol a (input.node i) : Run τ σ ε (Outcome σ σ))
      (.success a (input.node (i + 1))) (i + 1) := by
  obtain ⟨hlt, -⟩ := List.getElem?_eq_some_iff.mp there
  rw [Parser.symbol, Input.node_current, there]
  simp only [if_true]
  exact (finds_consume serves fits hlt).answer rfl

omit serves fits in
theorem symbol_finds_none {i : Nat} {a : σ} (absent : input.symbols[i]? ≠ some a) :
    Run.Finds left input i (Parser.symbol a (input.node i) : Run τ σ ε (Outcome σ σ))
      (.failure (input.node i)) i := by
  have hfails : (Parser.symbol a (input.node i) : Run τ σ ε (Outcome σ σ)) =
      pure (.failure (input.node i)) := by
    rw [Parser.symbol, Input.node_current]
    cases hcurrent : input.symbols[i]? with
    | none => rfl
    | some b => simp_all
  rw [hfails]
  exact finds_pure _ (Nat.le_refl i)

/-- The symbols are matched as far as they agree with the input, and the list stops at the first
that does not. -/
theorem sequenceFrom_finds (expected values : List σ) {i : Nat} (le : i ≤ input.symbols.length) :
    Run.Finds left input i
      (Parser.sequenceFrom values (expected.map Parser.symbol) (input.node i) : Run τ σ ε
        (Outcome σ (List σ)))
      (if expected <+: input.symbols.drop i then
          .success (values.reverse ++ expected) (input.node (i + expected.length))
        else .failure (input.node (i + agreement expected (input.symbols.drop i))))
      (i + agreement expected (input.symbols.drop i)) := by
  induction expected generalizing i values with
  | nil => simpa [Parser.sequenceFrom, agreement] using finds_pure _ (Nat.le_refl i)
  | cons a expected ih =>
    by_cases hfirst : input.symbols[i]? = some a
    · have hsymbol := symbol_finds (τ := τ) (ε := ε) serves fits hfirst
      obtain ⟨hlt, rfl⟩ := List.getElem?_eq_some_iff.mp hfirst
      have hrest := ih (input.symbols[i] :: values) (i := i + 1) hlt
      have hwhole : Run.Finds left input i (Parser.sequenceFrom values
          ((input.symbols[i] :: expected).map Parser.symbol) (input.node i)) _ _ :=
        hsymbol.bind hrest (Nat.le_max_right _ _)
      rw [List.drop_eq_getElem_cons hlt]
      simpa only [agreement, if_true, List.cons_prefix_cons, true_and, List.length_cons,
        List.reverse_cons,
        List.append_assoc, List.singleton_append, Nat.add_assoc, Nat.add_comm 1, Nat.max_eq_right,
        Nat.add_le_add_iff_left, Nat.le_add_left] using hwhole
    · have hhead : (input.symbols.drop i).head? ≠ some a := by simpa using hfirst
      obtain ⟨hnone, hagree⟩ := agreement_of_head_ne expected hhead
      rw [if_neg hnone, hagree]
      exact (symbol_finds_none hfirst).answer rfl

/-- The second literal is looked for where the first leaves off. -/
theorem pair_finds (first second : List σ) {i : Nat} (le : i ≤ input.symbols.length) :
    Run.Finds left input i
      (Parser.pair (Parser.literal first) (Parser.literal second) (input.node i) :
        Run τ σ ε (Outcome σ (List σ × List σ)))
      (if first ++ second <+: input.symbols.drop i then
          .success (first, second) (input.node (i + (first ++ second).length))
        else .failure (if first <+: input.symbols.drop i then input.node (i + first.length)
          else input.node i))
      (i + agreement (first ++ second) (input.symbols.drop i)) := by
  have hfirst := literal_finds (τ := τ) (ε := ε) serves fits first le
  by_cases hthere : first <+: input.symbols.drop i
  · have hlength := hthere.length_le
    rw [List.length_drop] at hlength
    have hsecond :=
      literal_finds (τ := τ) (ε := ε) serves fits second (i := i + first.length) (by omega)
    rw [if_pos hthere, agreement_eq_length_iff.mpr hthere] at hfirst
    rw [if_pos hthere, agreement_append hthere]
    simp only [append_prefix_iff, hthere, true_and, List.drop_drop, List.length_append,
      ← Nat.add_assoc]
    have hboth : Run.Finds left input i
        (Parser.pair (Parser.literal first) (Parser.literal second) (input.node i)) _ _ :=
      hfirst.bind (hsecond.answer rfl) (Nat.le_max_right _ _)
    split <;> simp_all [Outcome.map]
  · rw [if_neg hthere] at hfirst
    rw [if_neg hthere, if_neg fun h =>
      hthere (append_prefix_iff.mp h).1, agreement_append_of_not hthere]
    exact hfirst.answer rfl

end

/-! ## Literals -/

variable (σ ε ν)

omit [Source τ σ] in
theorem literal_spells (expected : List σ) :
    (Grammar.literal expected : Grammar σ ν ε (List σ)).Spells expected expected fun _ s => s := by
  apply spells_of_finds
  intro τ _ left input serves fits rules fuel i le
  exact literal_finds serves fits expected le

theorem text_spells (expected : String) :
    (Grammar.text expected : Grammar Char ν ε String).Spells expected.toList expected
      fun _ s => s := by
  apply spells_of_finds
  intro τ _ left input serves fits rules fuel i le
  refine (literal_finds serves fits expected.toList le).answer ?_
  split <;> rfl

omit [Source τ σ] in
theorem pair_spells (first second : List σ) :
    (Grammar.pair (.literal first) (.literal second) : Grammar σ ν ε (List σ × List σ)).Spells
      (first ++ second) (first, second) fun input s =>
        if first <+: input.symbols.drop s.node then input.node (s.node + first.length) else s := by
  apply spells_of_finds
  intro τ _ left input serves fits rules fuel i le
  exact pair_finds serves fits first second le

omit [Source τ σ] in
theorem symbols_spell (expected : List σ) :
    (Grammar.sequence (expected.map .symbol) : Grammar σ ν ε (List σ)).Spells expected expected
      fun input s => input.node (s.node + agreement expected (input.symbols.drop s.node)) := by
  apply spells_of_finds
  intro τ _ left input serves fits rules fuel i le
  rw [Grammar.sequence_parse, List.map_map]
  exact sequenceFrom_finds serves fits expected [] le

omit [Source τ σ] in
/-- At any node of any input whose positions fit, whatever was done before: a literal succeeds, with
its symbols and at the node after them, exactly if what is left of the input begins with its
symbols, and fails at the node that it was tried at otherwise. So does a text, with itself as the
value. A literal in two parts is looked for as the first part and then the second, which succeed
exactly if the whole does and leave the same node. A literal is looked for as the list of its
symbols, which succeeds with the same symbols at the same node. None of them finds the successors of
other nodes than those along which the input agrees with the symbols. -/
theorem literal_matches_prefix :
    (∀ expected : List σ,
      (Grammar.literal expected : Grammar σ ν ε (List σ)).Spells expected expected fun _ s => s) ∧
    (∀ expected : String,
      (Grammar.text expected : Grammar Char ν ε String).Spells expected.toList expected
        fun _ s => s) ∧
    (∀ first second : List σ,
      (Grammar.literal (first ++ second) : Grammar σ ν ε (List σ)).Spells
        (first ++ second) (first ++ second) (fun _ s => s) ∧
      (Grammar.pair (.literal first) (.literal second) : Grammar σ ν ε (List σ × List σ)).Spells
        (first ++ second) (first, second) fun input s =>
          if first <+: input.symbols.drop s.node then input.node (s.node + first.length) else s) ∧
    ∀ expected : List σ,
      (Grammar.sequence (expected.map .symbol) : Grammar σ ν ε (List σ)).Spells expected expected
        fun input s => input.node (s.node + agreement expected (input.symbols.drop s.node)) := by
  refine ⟨literal_spells σ ε ν, text_spells ε ν, ?_, symbols_spell σ ε ν⟩
  exact fun first second => ⟨literal_spells σ ε ν (first ++ second), pair_spells σ ε ν first second⟩

/-- A text in two pieces of which nothing has been looked at. Its second letter is not the one
expected, which shows before its third has been looked for. From the second letter on the expected
ones are there, and with one more the literal runs off the end. -/
theorem literal_matches_prefix_late :
    let input : Input Char := ⟨['a', 'a', 'b'], .start⟩
    let window : Window (Pieces Char) Char := ⟨Pieces.mk [['a'], ['a', 'b']], #[], 0, 1, false, #[]⟩
    let opened : Visit (Pieces Char) Char Unit := Visit.ofWindow window input.start
    let literal : List Char → Grammar Char (fun _ => Empty) Unit (List Char) := Grammar.literal
    let symbols : List Char → Grammar Char (fun _ => Empty) Unit (List Char) := fun expected =>
      .sequence (expected.map .symbol)
    (∃ final, (literal ['a', 'b']).parse Rules.none 1 (input.node 0) opened.session =
        .ok (.failure (input.node 0)) final ∧ ∀ t, ¬ final.chain.Knows (input.node 1) t) ∧
      (∃ final, (symbols ['a', 'b']).parse Rules.none 1 (input.node 0) opened.session =
        .ok (.failure (input.node 1)) final) ∧
      (∃ final, (Grammar.text "ab" : Grammar Char (fun _ => Empty) Unit String).parse Rules.none 1
        (input.node 1) (opened.actAll [(0, .consume)]).session =
          .ok (.success "ab" (input.node 3)) final) ∧
      ∃ final, (literal ['a', 'b', 'c']).parse Rules.none 1 (input.node 1)
        (opened.actAll [(0, .consume)]).session = .ok (.failure (input.node 1)) final := by
  intro input window opened literal symbols
  have honest : Honest (Pieces.mk [['a'], ['a', 'b']]) input.symbols := honest_pieces (by decide)
  have wide : Window.withCapacity (Pieces.mk [['a'], ['a', 'b']]) 1 = .ok window := rfl
  have fits : ∀ i ≤ input.symbols.length, (input.position i).Fits := by decide +kernel
  -- The visit is written out, since finding out that it is the one opened takes the unifier long.
  have fresh :
      ((Visit.ofWindow window input.start :
          Visit (Pieces Char) Char Unit).actAll []).session.chain.Node
      (Chain.ofWindow window input.start).1 (input.node 0) := Or.inl rfl
  have second : ((Visit.ofWindow window input.start : Visit (Pieces Char) Char Unit).actAll
      [(0, .consume)]).session.chain.Node (Chain.ofWindow window input.start).1 (input.node 1) := by
    apply Visit.held_node (Chain.linked_ofWindow window input.start)
    · exact fun s hs => Or.inl (List.mem_singleton.mp hs)
    · simp [Action.Scriptless]
    · decide +kernel
  obtain ⟨hliteral, htext, -, hsymbols⟩ := literal_matches_prefix Char Unit fun _ => Empty
  refine ⟨?_, ?_, ?_, ?_⟩
  · obtain ⟨final, hended, hfound⟩ :=
      hliteral ['a', 'b'] input honest wide fits [] (input.node 0) fresh Rules.none 0
    refine ⟨final, hended, ?_⟩
    intro t knows
    rcases hfound 1 (by decide) t knows with hknown | ⟨-, hbefore⟩
    · cases hknown
    · exact absurd hbefore (by decide)
  · obtain ⟨final, hended, -⟩ :=
      hsymbols ['a', 'b'] input honest wide fits [] (input.node 0) fresh Rules.none 0
    exact ⟨final, hended⟩
  · obtain ⟨final, hended, -⟩ :=
      htext "ab" input honest wide fits [(0, .consume)] (input.node 1) second Rules.none 0
    exact ⟨final, hended⟩
  · obtain ⟨final, hended, -⟩ := hliteral ['a', 'b', 'c'] input honest wide fits [(0, .consume)]
      (input.node 1) second
      Rules.none 0
    exact ⟨final, hended⟩

end Rewind
