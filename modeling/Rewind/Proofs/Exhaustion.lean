import Rewind.Proofs.Residual

/-!
# The end of the input

The end of the input is a node like the others, and it is found when a pull brings nothing. What
such a pull says of the source holds from then on, since a source that is done stays done
(`Closes`). So once the chain has come to its end, all of the list has been handed out, all its
nodes are known, and the source is done (`end_found`).
-/
namespace Rewind

variable {τ σ ε : Type} [Source τ σ]

/-- A pull for some symbols that brings none leaves the source done, and it stays done. -/
structure Closes (done : τ → Prop) : Prop where
  ended : ∀ source max, 1 ≤ max → (Source.pull source max).symbols = [] →
  done (Source.pull source max).source
  kept : ∀ source max, done source → done (Source.pull source max).source

namespace Window

variable {done : τ → Prop} {w : Window τ σ}

/-- An exhausted window stands before a source that is done. -/
def Warrants (done : τ → Prop) (w : Window τ σ) : Prop := w.exhausted = true → done w.source

omit [Source τ σ] in
theorem warrants_withCapacity [Stored σ] {source : τ} {capacity : Nat}
    (opened : withCapacity source capacity = .ok w) : w.Warrants done := by
  obtain ⟨-, rfl⟩ := withCapacity_eq_ok.mp opened
  intro exhausted
  cases exhausted

theorem pullOnce_warrants (closes : Closes done) (h : w.Warrants done)
    (room : w.staged.size < w.capacity) :
    w.pullOnce.Warrants done := by
  have hended := closes.ended w.source (w.capacity - w.staged.size) (by omega)
  rw [pullOnce]
  dsimp only
  split
  · next hempty => exact fun _ => hended (List.isEmpty_iff.mp hempty)
  · exact fun exhausted => closes.kept _ _ (h exhausted)

theorem fill_warrants (closes : Closes done) {depth rounds : Nat} (h : w.Warrants done)
    (wide : depth ≤ w.capacity) :
    (w.fill depth rounds).Warrants done := by
  induction rounds generalizing w with
  | zero => exact h
  | succ rounds ih =>
    rw [fill]
    split
    · exact h
    · next hmore =>
      have hfew : w.staged.size < depth := by simp at hmore; omega
      apply ih (pullOnce_warrants closes h (by omega))
      rwa [pullOnce_capacity]

theorem ensure_warrants (closes : Closes done) (h : w.Warrants done) (depth : Nat) :
    (w.ensure depth).Warrants done := by
  rw [ensure]
  split
  · exact h
  · apply fill_warrants closes
    · rw [Warrants, (w.compact.widen_kept depth).1, (w.compact.widen_kept depth).2.1,
        w.compact_kept.1,
        w.compact_kept.2.1]
      exact h
    · rw [widen_capacity]
      exact Nat.le_max_right _ _

theorem look_warrants (closes : Closes done) (h : w.Warrants done) (depth : Nat) :
    (w.look depth).2.Warrants done :=
  ensure_warrants closes h depth

variable {left : τ → List σ → Prop}

omit [Source τ σ] in
/-- Where a symbol was looked for and there is none, the window is exhausted. -/
theorem Reached.exhausted (reached : w.Reached 1) (h : w.Holds left []) : w.exhausted = true := by
  rcases reached with hdone | hsome
  · exact hdone
  · obtain ⟨rest, hsplit, -, -⟩ := h.split
    have hlength := congrArg List.length hsplit
    rw [List.length_append, length_unread, List.length_nil] at hlength
    omega

end Window

namespace Chain

variable {done : τ → Prop} {c : Chain τ σ}

theorem extend_warrants (closes : Closes done) (h : c.window.Warrants done) (position : Position) :
    (c.extend position).2.window.Warrants done := by
  rw [extend_eq]
  exact Window.look_warrants closes h 1

variable [Symbol σ]

theorem advance_warrants (closes : Closes done) (h : c.window.Warrants done)
    (step : Stream.Step σ) :
    (c.advance step).2.window.Warrants done := by
  have hpassed : ((c.window.look 2).2.pass 1).Warrants done := Window.look_warrants closes h 2
  rw [advance]
  dsimp only
  split
  · exact hpassed
  · exact extend_warrants (c := ⟨(c.window.look 2).2.pass 1, c.successors⟩) closes hpassed _

theorem consume_warrants (closes : Closes done) (h : c.window.Warrants done) (s : Stream σ) :
    (c.consume s).2.window.Warrants done := by
  rw [consume]
  split
  · exact h
  · exact h
  · next step taken hdemand =>
    have hadvanced :=
      advance_warrants (c := ⟨c.window, c.successors.setIfInBounds s.node taken⟩) closes h step
    split
    · next hadvance => rwa [hadvance] at hadvanced
    · next hadvance => rwa [hadvance] at hadvanced

variable {left : τ → List σ → Prop} {input : Input σ} {last s : Stream σ}

/-- The chain reaches to a node, and if that is the end of the input then the window is
exhausted. -/
def Ended (left : τ → List σ → Prop) (input : Input σ) (c : Chain τ σ) : Prop :=
  ∃ last, c.Reaches left input last ∧ (last.current = none → c.window.exhausted = true)

omit [Source τ σ] in
/-- At the end of the input the window holds nothing. -/
theorem Reaches.holds_nil (h : c.Reaches left input last) (ends : last.current = none) :
    c.window.Holds left [] := by
  have hover : input.symbols.drop last.node = [] := by
    rw [List.drop_eq_nil_iff, ← List.getElem?_eq_none_iff, ← h.has_last.current_eq]
    exact ends
  rcases h.frontier with ⟨-, hholds⟩ | ⟨-, fault, hfault⟩
  · rwa [hover] at hholds
  · rw [Input.next_end ends] at hfault
    cases hfault

omit [Source τ σ] in
/-- A cell holds the next node, or it is that of the last node, whose thunk may have met a fault. -/
theorem Reaches.cell_cases (h : c.Reaches left input last) {i : Nat}
    {cell : Cell (Stream.Step σ) (Stream σ)} (there : c.successors[i]? = some cell) :
    (i < last.node ∧ ∃ t, input.place (i + 1) = .ok t ∧ cell = .ready t) ∨ i = last.node ∧
    cell = last.cell ∨
      i = last.node ∧ cell = .spent ∧ ∃ fault, input.next last = .error fault := by
  have hsize := h.size_eq
  obtain ⟨hlt, -⟩ := Array.getElem?_eq_some_iff.mp there
  rcases Nat.lt_or_eq_of_le (Nat.le_of_lt_succ (hsize ▸ hlt)) with hbehind | rfl
  · obtain ⟨t, hplace, hready⟩ := h.behind i hbehind
    exact Or.inl ⟨hbehind, t, hplace, Option.some.inj (there.symm.trans hready)⟩
  · rcases h.frontier with ⟨hcell, -⟩ | ⟨hspent, hfault⟩
    · exact Or.inr (Or.inl ⟨rfl, Option.some.inj (there.symm.trans hcell)⟩)
    · exact Or.inr (Or.inr ⟨rfl, Option.some.inj (there.symm.trans hspent), hfault⟩)

omit [Source τ σ] in
/-- A node of the chain is a node of the input, no further than the last. -/
theorem Reaches.of_node (h : c.Reaches left input last) (node : c.Node input.first s) :
    input.Has s ∧ s.node ≤ last.node := by
  rcases node with rfl | ⟨t, knows⟩
  · exact ⟨input.has_first, Nat.zero_le _⟩
  · rcases h.cell_cases knows with ⟨hbehind, u, hplace, hready⟩ | ⟨-, hcell⟩ | ⟨-, hspent, -⟩
    · cases hready
      obtain ⟨hnode, -, hs⟩ := Input.place_spec hplace
      exact ⟨hs, by omega⟩
    · rw [Stream.cell_ready hcell.symm]
      exact ⟨h.has_last, Nat.le_refl _⟩
    · cases hspent

theorem ended_ofWindow (serves : Serves left) {window : Window τ σ}
    (h : window.Holds left input.symbols) :
    (ofWindow window input.start).2.Ended left input := by
  obtain ⟨-, hreaches, hwindow⟩ := reaches_ofWindow serves h
  refine ⟨_, hreaches, ?_⟩
  intro ends
  apply Window.Reached.exhausted _ (hreaches.holds_nil ends)
  rw [hwindow]
  exact (Window.look_holds serves h 1).2.1

/-- Once the end has been found, moving along changes nothing. -/
theorem Reaches.consume_end (h : c.Reaches left input last) (ends : last.current = none)
    (s : Stream σ) :
    (c.consume s).2 = c := by
  cases hcell : c.successors[s.node]? with
  | none => rw [consume_of_spent (by simp [hcell])]
  | some cell =>
    rcases h.cell_cases hcell with ⟨-, t, -, rfl⟩ | ⟨-, rfl⟩ | ⟨-, -, fault, hfault⟩
    · rw [consume_of_knows hcell]
    · rw [Stream.cell, ends] at hcell
      rw [consume_of_knows hcell]
    · rw [Input.next_end ends] at hfault
      cases hfault

theorem consume_ended (serves : Serves left) (h : c.Ended left input) (s : Stream σ) :
    (c.consume s).2.Ended left input := by
  obtain ⟨last, hreaches, hexhausted⟩ := h
  by_cases ends : last.current = none
  · rw [hreaches.consume_end ends]
    exact ⟨last, hreaches, hexhausted⟩
  rcases consume_cases serves hreaches s with ⟨t, hconsume, -, -⟩ |
    ⟨t, found, hconsume, -, hlast, -, hfound, hwindow⟩ | ⟨fault, broken, hconsume, hbroken⟩
  · rw [hconsume]
    exact ⟨last, hreaches, hexhausted⟩
  · rw [hconsume]
    refine ⟨t, hfound, ?_⟩
    intro tends
    -- The node was found by a look for its symbol, and there was none.
    apply Window.Reached.exhausted _ (hfound.holds_nil tends)
    rcases hreaches.frontier with ⟨-, hholds⟩ | ⟨hspent, -⟩
    · rw [hreaches.has_last.current_eq, List.getElem?_eq_none_iff] at ends
      have hpassed := Window.look_pass_holds serves hholds (by rw [List.length_drop]; omega)
      rw [hwindow]
      exact (Window.look_holds serves hpassed 1).2.1
    -- A spent cell finds nothing.
    · rw [← hlast] at hspent
      rw [consume_of_spent (by simp [hspent])] at hconsume
      cases hconsume
  · rw [hconsume]
    exact ⟨last, hbroken, fun absent => absurd absent ends⟩

/-- The nodes up to the last are so many steps from the first. -/
theorem Reaches.consumeTimes (h : c.Reaches left input last) {i : Nat} (le : i ≤ last.node) :
    ∃ t, c.consumeTimes input.first i = (.ok t, c) ∧ input.place i = .ok t := by
  induction i with
  | zero => exact ⟨input.first, rfl, rfl⟩
  | succ i ih =>
    obtain ⟨s, hconsumed, hplace⟩ := ih (by omega)
    obtain ⟨t, hnext, hcell⟩ := h.behind i le
    have hnode : s.node = i := by
      have hs := (Input.place_spec hplace).1
      have hlast := h.has_last.node_le
      omega
    refine ⟨t, ?_, hnext⟩
    rw [Chain.consumeTimes, hconsumed]
    exact consume_of_knows (by rw [Knows, hnode]; exact hcell)

end Chain

section

variable [Symbol σ] {left : τ → List σ → Prop} {done : τ → Prop} {input : Input σ}

theorem closed_ended (serves : Serves left) :
    Run.Closed (Run.Keeps fun session : Session τ σ ε => session.chain.Ended left input) := by
  apply Run.closed_keeps
  · intro s session ended
    rw [Run.after_consume]
    exact Chain.consume_ended serves ended s
  · intro event session ended
    exact ended
  · rintro notice session ⟨last, hreaches, hexhausted⟩
    exact ⟨last, Chain.note_reaches hreaches notice, hexhausted⟩

theorem closed_warrants (closes : Closes done) :
    Run.Closed (Run.Keeps fun session : Session τ σ ε => session.chain.window.Warrants done) := by
  apply Run.closed_keeps
  · intro s session h
    rw [Run.after_consume]
    exact Chain.consume_warrants closes h s
  · intro event session h
    exact h
  · intro notice session h
    exact h

/-- Whatever was done before, a node of the chain is a node of the input, and the chain
reaches to it. -/
theorem Visit.has_of_history {source : τ} {capacity : Nat} {window : Window τ σ}
    (honest : Honest source input.symbols)
    (opened : Window.withCapacity source capacity = .ok window) (history : List (Nat × Action σ ε))
    {s : Stream σ}
    (node : ((ofWindow window input.start).actAll history).session.chain.Node
      (Chain.ofWindow window input.start).1 s) :
    input.Has s ∧
    ∃ last, ((ofWindow window input.start).actAll history).session.chain.Reaches Honest input last ∧
      s.node ≤ last.node := by
  have hholds : window.Holds Honest input.symbols := Window.holds_withCapacity opened honest
  obtain ⟨hfirst, hopening, -⟩ := Chain.reaches_ofWindow serves_honest hholds
  obtain ⟨last, hreaches⟩ :
      ∃ last, ((ofWindow window input.start).actAll history).session.chain.Reaches Honest
        input last :=
    actAll_keeps (closed_reaches serves_honest) (v := ofWindow window input.start)
      ⟨_, hopening⟩ history
  rw [hfirst] at node
  obtain ⟨hs, hle⟩ := hreaches.of_node node
  exact ⟨hs, last, hreaches, hle⟩

/-- Whatever was done before: once the end of the input has been found, the nodes spell all that the
source had, and the source is done. -/
theorem end_found (serves : Serves left) (closes : Closes done) (input : Input σ) {source : τ}
    {capacity : Nat} {window : Window τ σ} (h : left source input.symbols)
    (opened : Window.withCapacity source capacity = .ok window) (history : List (Nat × Action σ ε))
    {s : Stream σ}
    (node : ((Visit.ofWindow window input.start).actAll history).session.chain.Node
      (Chain.ofWindow window input.start).1 s) (ends : s.current = none) :
    let c := ((Visit.ofWindow window input.start : Visit τ σ ε).actAll history).session.chain
    left c.window.source [] ∧ done c.window.source ∧ ∀ i ≤ input.symbols.length,
      ∃ t, c.consumeTimes (Chain.ofWindow window input.start).1 i = (.ok t, c) ∧
      t.current = input.symbols[i]? := by
  intro c
  have hholds : window.Holds left input.symbols := Window.holds_withCapacity opened h
  have hwarrants : c.window.Warrants done :=
    Visit.actAll_keeps (closed_warrants closes) (v := Visit.ofWindow window input.start)
      (Chain.extend_warrants closes (Window.warrants_withCapacity opened) input.start) history
  obtain ⟨last, hreaches, hexhausted⟩ : c.Ended left input :=
    Visit.actAll_keeps (closed_ended serves) (v := Visit.ofWindow window input.start)
      (Chain.ended_ofWindow serves hholds) history
  rw [(Chain.reaches_ofWindow serves hholds).1] at node ⊢
  obtain ⟨hs, hle⟩ := hreaches.of_node node
  have hover : input.symbols.length ≤ s.node :=
    List.getElem?_eq_none_iff.mp (hs.current_eq.symm.trans ends)
  have hlast := hreaches.has_last.node_le
  obtain rfl : s = last := hs.eq_of_node hreaches.has_last (by omega)
  refine ⟨?_, hwarrants (hexhausted ends), ?_⟩
  · obtain ⟨rest, hsplit, hrest, -⟩ := (hreaches.holds_nil ends).split
    obtain ⟨-, rfl⟩ := List.append_eq_nil_iff.mp hsplit.symm
    exact hrest
  · intro i hi
    obtain ⟨t, hconsumed, hplace⟩ := hreaches.consumeTimes (i := i) (by omega)
    obtain ⟨hnode, hcurrent, -⟩ := Input.place_spec hplace
    refine ⟨t, hconsumed, ?_⟩
    rw [hcurrent, hnode, Nat.min_eq_left hi]

end
end Rewind
