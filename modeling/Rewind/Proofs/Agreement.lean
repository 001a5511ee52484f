import Rewind.Proofs.Evaluation

/-!
# Inputs that agree

A step along a chain is decided by the symbol that it passes and the one that it comes to. So it
makes no difference to a run what stands behind the last node that it has found, though the window
may hold much of that already: over another input that is the same up to there, the run finds the
same nodes and comes to the same end (`parse_agrees`).
-/
namespace Rewind

variable {τ υ σ ε α : Type} {ν : Type → Type} [Symbol σ]

namespace Input

/-- Up to the place, and at it, the inputs are the same. To end there is to have no symbol. -/
structure Agrees (x y : Input σ) (place : Nat) : Prop where
  start_eq : x.start = y.start
  symbol_eq : ∀ i ≤ place, y.symbols[i]? = x.symbols[i]?

variable {x y : Input σ} {place less : Nat} {s t : Stream σ}

omit [Symbol σ] in
theorem Agrees.mono (h : x.Agrees y place) (le : less ≤ place) : x.Agrees y less :=
  ⟨h.start_eq, fun i hi => h.symbol_eq i (Nat.le_trans hi le)⟩

omit [Symbol σ] in
theorem Agrees.first_eq (h : x.Agrees y place) : y.first = x.first := by
  rw [first, first, h.symbol_eq 0 (Nat.zero_le place), h.start_eq]

theorem Agrees.next_eq (h : x.Agrees y place) (found : x.next s = .ok t) (le : t.node ≤ place) :
    y.next s = .ok t := by
  cases hcurrent : s.current with
  | none =>
    rw [next_end hcurrent] at found ⊢
    exact found
  | some symbol =>
    have hnode := (next_some hcurrent found).1
    rw [next, hcurrent] at found ⊢
    rw [h.symbol_eq (s.node + 1) (by omega)]
    exact found

/-- Where the inputs agree they have the same nodes. -/
theorem Agrees.place_eq (h : x.Agrees y place) {i : Nat} (found : x.place i = .ok s)
    (le : s.node ≤ place) :
    y.place i = .ok s := by
  induction i generalizing s with
  | zero =>
    cases found
    rw [Input.place, h.first_eq]
  | succ i ih =>
    cases hbefore : x.place i with
    | error fault =>
      rw [Input.place, hbefore] at found
      cases found
    | ok before =>
      have hbehind : before.node ≤ s.node := by
        have := (place_spec hbefore).1
        have := (place_spec found).1
        omega
      rw [place_succ hbefore] at found
      rw [place_succ (ih hbefore (by omega))]
      exact h.next_eq found le

end Input

/-- Nothing is found from beyond the last node. -/
theorem Chain.Reaches.node_le [Source τ σ] {left : τ → List σ → Prop} {input : Input σ}
    {c found : Chain τ σ} {last s t : Stream σ} (h : c.Reaches left input last)
    (hconsume : c.consume s = (.ok t, found)) :
    s.node ≤ last.node := by
  apply Nat.le_of_not_lt
  intro hgt
  have hsize := h.size_eq
  have hspent : c.successors.getD s.node .spent = .spent := by
    rw [Array.getD_eq_getD_getElem?, Array.getElem?_eq_none (by omega)]
    rfl
  rw [consume_of_spent hspent] at hconsume
  cases hconsume

section

variable [Source τ σ] [Source υ σ] {left : τ → List σ → Prop} {kept : υ → List σ → Prop}
  {x y : Input σ} {rules : Rules σ ν ε}

/-- Two sessions, each over its own input, have found the same nodes and have seen the
same events. -/
structure Abreast (left : τ → List σ → Prop) (kept : υ → List σ → Prop) (x y : Input σ)
    (last : Stream σ) (session : Session τ σ ε) (other : Session υ σ ε) : Prop where
  reaches : session.chain.Reaches left x last
  reaches_other : other.chain.Reaches kept y last
  events_eq : other.events = session.events

/-- What finds a node in the first session finds it in the other too, if the inputs agree there. -/
theorem consume_agrees (serves : Serves left) (serves_other : Serves kept)
    {session middle : Session τ σ ε} {last s t : Stream σ}
    (reaches : session.chain.Reaches left x last)
    (hconsume : Run.consume s session = .ok t middle) :
    ∃ now, middle.chain.Reaches left x now ∧ last.node ≤ now.node ∧
      ∀ other : Session υ σ ε, x.Agrees y now.node → Abreast left kept x y last session other →
        ∃ after, Run.consume s other = .ok t after ∧ Abreast left kept x y now middle after := by
  have hle := reaches.node_le (Run.consume_eq_ok hconsume)
  rcases Chain.consume_cases serves reaches s with ⟨u, hfound, hplace, hknown⟩ |
    ⟨u, found, hfound, hplace, hlast, hnode, hnow, -⟩ | ⟨fault, broken, hbroken, -⟩
  -- A node that was found before the other session knows too.
  · rw [Run.consume_ok hfound] at hconsume
    cases hconsume
    refine ⟨last, reaches, Nat.le_refl _, ?_⟩
    intro other agrees abreast
    rcases Chain.consume_found serves_other abreast.reaches_other hle
        (agrees.place_eq hplace hknown) with
      ⟨hother, -⟩ | ⟨-, -, -, hnew, -⟩
    · exact ⟨_, Run.consume_ok hother, reaches, abreast.reaches_other, abreast.events_eq⟩
    · omega
  · rw [Run.consume_ok hfound] at hconsume
    cases hconsume
    refine ⟨t, hnow, by omega, ?_⟩
    intro other agrees abreast
    rcases Chain.consume_found serves_other abreast.reaches_other hle
        (agrees.place_eq hplace (Nat.le_refl _)) with
      ⟨-, hold⟩ | ⟨after, hother, -, -, hafter⟩
    · omega
    · exact ⟨_, Run.consume_ok hother, hnow, hafter, abreast.events_eq⟩
  · rw [Run.consume_error hbroken] at hconsume
    cases hconsume

omit [Source τ σ] [Source υ σ] in
theorem Abreast.noted {session : Session τ σ ε} {other : Session υ σ ε} {last : Stream σ}
    (h : Abreast left kept x y last session other) (notice : Option Notice) :
    Abreast left kept x y last (session.noted notice) (other.noted notice) := by
  refine ⟨noted_reaches h.reaches notice, noted_reaches h.reaches_other notice, ?_⟩
  cases notice <;> exact h.events_eq

omit [Source τ σ] [Source υ σ] in
theorem Abreast.emitted {session : Session τ σ ε} {other : Session υ σ ε} {last : Stream σ}
    (h : Abreast left kept x y last session other) (event : ε) :
    Abreast left kept x y last (session.emitted event) (other.emitted event) :=
  ⟨h.reaches, h.reaches_other, congrArg (·.push event) h.events_eq⟩

/-- A run that ends does the same over the other input, if that agrees with the first up to the last
node that the run has found. -/
theorem Completes.agrees (serves : Serves left) (serves_other : Serves kept) {fuel : Nat}
    {p : Plan σ ν ε α} {session final : Session τ σ ε} {outcome : Outcome σ α}
    {traces : List (Trace σ)} (completes : Completes rules fuel p session outcome final traces) :
    ∀ last, session.chain.Reaches left x last →
      ∃ now, final.chain.Reaches left x now ∧ last.node ≤ now.node ∧
        ∀ other : Session υ σ ε, x.Agrees y now.node → Abreast left kept x y last session other →
          ∃ after, Completes rules fuel p other outcome after traces ∧
          Abreast left kept x y now final after := by
  -- The last node only moves on, so that inputs that agree up to where it ends have agreed all
  -- along.
  induction completes with
  | done =>
    rename_i notice outcome session
    intro last reaches
    exact ⟨last, noted_reaches reaches notice, Nat.le_refl _, fun other _ abreast =>
      ⟨_, .done, abreast.noted notice⟩⟩
  | consume hconsume _ ih =>
    intro last reaches
    obtain ⟨middle, hmiddle, hle, hstep⟩ := consume_agrees serves serves_other reaches hconsume
    obtain ⟨now, hnow, hfurther, hrest⟩ := ih middle hmiddle
    refine ⟨now, hnow, by omega, ?_⟩
    intro other agrees abreast
    obtain ⟨between, hother, hbetween⟩ := hstep other (agrees.mono hfurther) abreast
    obtain ⟨after, hcompletes, hafter⟩ := hrest between agrees hbetween
    exact ⟨after, .consume hother hcompletes, hafter⟩
  | emit _ ih =>
    rename_i event _ _ _ _ _ _
    intro last reaches
    obtain ⟨now, hnow, hle, hrest⟩ := ih last reaches
    refine ⟨now, hnow, hle, ?_⟩
    intro other agrees abreast
    obtain ⟨after, hcompletes, hafter⟩ := hrest _ agrees (abreast.emitted event)
    exact ⟨after, .emit hcompletes, hafter⟩
  | call _ ih =>
    intro last reaches
    obtain ⟨now, hnow, hle, hrest⟩ := ih last reaches
    refine ⟨now, hnow, hle, ?_⟩
    intro other agrees abreast
    obtain ⟨after, hcompletes, hafter⟩ := hrest other agrees abreast
    exact ⟨after, .call hcompletes, hafter⟩
  | invoke _ _ hinside hnext =>
    intro last reaches
    obtain ⟨middle, hmiddle, hle, hfirst⟩ := hinside last reaches
    obtain ⟨now, hnow, hfurther, hrest⟩ := hnext middle hmiddle
    refine ⟨now, hnow, by omega, ?_⟩
    intro other agrees abreast
    obtain ⟨between, hinner, hbetween⟩ := hfirst other (agrees.mono hfurther) abreast
    obtain ⟨after, hcompletes, hafter⟩ := hrest between agrees hbetween
    exact ⟨after, .invoke hinner hcompletes, hafter⟩
  | follow _ hinside =>
    intro last reaches
    obtain ⟨now, hnow, hle, hrest⟩ := hinside last reaches
    refine ⟨now, hnow, hle, ?_⟩
    intro other agrees abreast
    obtain ⟨after, hcompletes, hafter⟩ := hrest other agrees abreast
    exact ⟨after, .follow hcompletes, hafter⟩

end

/-- A parse that ends depends on nothing behind the last node that it has found: over any input that
is the same up to there, with the same start, it answers the same, finds the same number of nodes
and shows the same events, whatever the sources, their pieces and the room in the windows. -/
theorem parse_agrees [Source τ σ] [Source υ σ] (x y : Input σ) (start_eq : x.start = y.start)
    {source : τ} {capacity : Nat} {window : Window τ σ} (honest : Honest source x.symbols)
    (opened : Window.withCapacity source capacity = .ok window) {script : υ} {room : Nat}
    {reader : Window υ σ} (truthful : Honest script y.symbols)
    (started : Window.withCapacity script room = .ok reader) {rules : Rules σ ν ε}
    {g : Grammar σ ν ε α} {fuel : Nat} {outcome : Outcome σ α} {final : Session τ σ ε}
    (ended : g.parse rules fuel (Chain.ofWindow window x.start).1
      ⟨(Chain.ofWindow window x.start).2, #[]⟩ = .ok outcome final)
    {furthest : Nat} (found : final.chain.successors.size = furthest + 1)
    (same : ∀ i ≤ furthest, y.symbols[i]? = x.symbols[i]?) :
    ∃ after, g.parse rules fuel (Chain.ofWindow reader y.start).1
      ⟨(Chain.ofWindow reader y.start).2, #[]⟩ = .ok outcome after ∧
      after.chain.successors.size = furthest + 1 ∧ after.events = final.events := by
  have serves_script : Serves (Honest : υ → List σ → Prop) := serves_honest
  have hholds : window.Holds Honest x.symbols := Window.holds_withCapacity opened honest
  have hstarted : reader.Holds Honest y.symbols := Window.holds_withCapacity started truthful
  obtain ⟨hfirst, hreaches, -⟩ := Chain.reaches_ofWindow serves_honest hholds
  obtain ⟨hother, hreaches_other, -⟩ := Chain.reaches_ofWindow serves_honest hstarted
  cases fuel with
  | zero => cases ended
  | succ fuel =>
    obtain ⟨inside, completes⟩ := Grammar.parse_eq_ok_iff.mp ended
    obtain ⟨now, hnow, -, hrest⟩ := completes.agrees serves_honest serves_script _ hreaches
    have hfurthest : now.node = furthest := Nat.succ.inj (hnow.size_eq.symm.trans found)
    have agrees : x.Agrees y now.node := ⟨start_eq, fun i hi => same i (by omega)⟩
    rw [agrees.first_eq] at hother hreaches_other
    obtain ⟨after, hcompletes, hafter⟩ :=
      hrest ⟨(Chain.ofWindow reader y.start).2, #[]⟩ agrees ⟨hreaches, hreaches_other, rfl⟩
    refine ⟨after, ?_, ?_, hafter.events_eq⟩
    · rw [hother, ← hfirst]
      exact Grammar.parse_eq_ok_iff.mpr ⟨inside, hcompletes⟩
    · rw [hafter.reaches_other.size_eq, hfurthest]

/-- The third symbol is refused, over two inputs that differ behind it: the first has one more
symbol, which is in the window by then. -/
theorem parse_agrees_refusal :
    let x : Input Char := ⟨['a', 'b', 'c', 'd'], .start⟩
    let y : Input Char := ⟨['a', 'b', 'c'], .start⟩
    let window : Window (Queue Char) Char := ⟨⟨x.symbols⟩, #[], 0, 8, false, #[]⟩
    let reader : Window (Pieces Char) Char := ⟨⟨[['a', 'b'], ['c']]⟩, #[], 0, 1, false, #[]⟩
    let g : Grammar Char (fun _ => Empty) Unit (List Char) := .literal ['a', 'b', 'b']
    ∃ final after,
      g.parse Rules.none 1 (Chain.ofWindow window x.start).1
        ⟨(Chain.ofWindow window x.start).2, #[]⟩ =
        .ok (.failure ⟨0, some 'a', .start⟩) final ∧
      final.chain.window.unread = ['c', 'd'] ∧
      g.parse Rules.none 1 (Chain.ofWindow reader y.start).1
        ⟨(Chain.ofWindow reader y.start).2, #[]⟩ =
        .ok (.failure ⟨0, some 'a', .start⟩) after ∧
      after.chain.successors.size = 3 := by
  intro x y window reader g
  have honest : Honest (Queue.mk x.symbols) x.symbols := honest_queue _
  have opened : Window.withCapacity (Queue.mk x.symbols) 8 = .ok window := rfl
  have truthful : Honest (Pieces.mk [['a', 'b'], ['c']]) y.symbols := honest_pieces (by decide)
  have started : Window.withCapacity (Pieces.mk [['a', 'b'], ['c']]) 0 = .ok reader := rfl
  obtain ⟨final, ended⟩ : ∃ final, g.parse Rules.none 1 (Chain.ofWindow window x.start).1
      ⟨(Chain.ofWindow window x.start).2, #[]⟩ = .ok (.failure ⟨0, some 'a', .start⟩) final :=
    Run.value?_eq_some (by decide +kernel)
  have after_eq : Run.after (g.parse Rules.none 1 (Chain.ofWindow window x.start).1
      ⟨(Chain.ofWindow window x.start).2, #[]⟩) = final := by rw [ended, Run.after]
  have found : final.chain.successors.size = 2 + 1 := by
    rw [← after_eq]
    decide +kernel
  have ahead : final.chain.window.unread = ['c', 'd'] := by
    rw [← after_eq]
    decide +kernel
  obtain ⟨after, again, size_eq, -⟩ :=
    parse_agrees x y rfl honest opened truthful started ended found (by decide)
  exact ⟨final, after, ended, ahead, again, size_eq⟩

end Rewind
