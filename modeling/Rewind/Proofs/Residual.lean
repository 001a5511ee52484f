import Rewind.Proofs.Nesting

/-!
# Residual streams

The nodes of a chain are the stream at which it was opened and the successors that it has found.
From a node to its successor both the place in the chain and the index go up by one, except at the
end of the input, which comes after itself (`Chain.Linked`). So the stream that a parse leaves,
whatever its outcome, lies some number of steps ahead of the one that it was given, and its index
tells how many (`residual_ahead`). That number is the length of a span.
-/
namespace Rewind

variable {τ σ ε : Type}

/-- The second stream comes one symbol after the first. -/
def Stream.Precedes (s t : Stream σ) : Prop :=
  t.node = s.node + 1 ∧ t.position.index = s.position.index + 1

/-- Only the end of the input is ready from the start, with itself. -/
theorem Stream.cell_ready {s t : Stream σ} (h : s.cell = .ready t) : t = s := by
  rw [Stream.cell] at h
  cases hcurrent : s.current with
  | none =>
    rw [hcurrent] at h
    cases h
    rfl
  | some symbol =>
    rw [hcurrent] at h
    cases h

theorem Stream.cell_pending {s : Stream σ} {step : Stream.Step σ} (h : s.cell = .pending step) :
    step.position = s.position := by
  rw [Stream.cell] at h
  cases hcurrent : s.current with
  | none =>
    rw [hcurrent] at h
    cases h
  | some symbol =>
    rw [hcurrent] at h
    cases h
    rfl

namespace Chain

/-- The stream was there from the start, or has been found since. -/
def Node (first : Stream σ) (c : Chain τ σ) (s : Stream σ) : Prop := s = first ∨ ∃ t, c.Knows t s

theorem Node.grows {first s : Stream σ} {c d : Chain τ σ} (hs : c.Node first s)
    (grows : c.Grows d) :
    d.Node first s := by
  refine hs.imp id ?_
  rintro ⟨t, knows⟩
  exact ⟨t, grows t s knows⟩

/-- The cells of the nodes lead from each to the next, and only the last cell may have a
thunk to run. -/
structure Linked (first : Stream σ) (c : Chain τ σ) : Prop where
  cell : ∀ s, c.Node first s → c.successors[s.node]? = some s.cell ∨
  c.successors[s.node]? = some .spent ∨
    ∃ t, c.Knows s t ∧ s.Precedes t
  last : ∀ i step, c.successors[i]? = some (.pending step) → i + 1 = c.successors.size

variable {first s t : Stream σ} {c : Chain τ σ}

/-- Another step leads to the next stream, or nowhere at the end of the input. -/
theorem Linked.precedes (linked : c.Linked first) (hs : c.Node first s) (knows : c.Knows s t) :
    t = s ∨ s.Precedes t := by
  rcases linked.cell s hs with hcell | hspent | ⟨u, hu, hnext⟩
  · have hready := Option.some.inj (hcell.symm.trans knows)
    exact Or.inl (Stream.cell_ready hready)
  · cases hspent.symm.trans knows
  · cases hu.symm.trans knows
    exact Or.inr hnext

theorem linked_note (linked : c.Linked first) (notice : Notice) : (c.note notice).Linked first :=
  ⟨linked.cell, linked.last⟩

variable [Source τ σ]

theorem linked_ofWindow (window : Window τ σ) (position : Position) :
    (ofWindow window position).2.Linked (ofWindow window position).1 := by
  rw [ofWindow, extend_eq]
  generalize hfirst : Stream.mk _ _ position = first
  have hzero : first.node = 0 := by rw [← hfirst]; rfl
  have hcells : ∀ {i : Nat} {cell : Cell (Stream.Step σ) (Stream σ)},
      (#[].push first.cell)[i]? = some cell → i = 0 ∧ cell = first.cell := by
    intro i cell h
    rcases Nat.eq_zero_or_pos i with rfl | hi
    · exact ⟨rfl, (Option.some.inj h).symm⟩
    · rw [Array.getElem?_eq_none (by simp; omega)] at h
      cases h
  constructor
  · intro s hs
    have hsame : s = first := by
      rcases hs with rfl | ⟨t, knows⟩
      · rfl
      · exact Stream.cell_ready (hcells knows).2.symm
    rw [hsame, hzero]
    exact Or.inl rfl
  · intro i step h
    rw [(hcells h).1]
    rfl

variable [Symbol σ]

omit [Source τ σ] [Symbol σ] in
/-- The thunk has met a fault: its cell is spent. -/
theorem linked_broken (linked : c.Linked first) {i : Nat} {step : Stream.Step σ}
    (hpending : c.successors[i]? = some (.pending step)) (window : Window τ σ) :
    Linked first ⟨window, c.successors.setIfInBounds i .spent⟩ := by
  obtain ⟨hlt, -⟩ := Array.getElem?_eq_some_iff.mp hpending
  have hspent : (c.successors.setIfInBounds i .spent)[i]? = some .spent :=
    Array.getElem?_setIfInBounds_self_of_lt hlt
  have hother : ∀ {k : Nat}, k ≠ i → (c.successors.setIfInBounds i .spent)[k]? = c.successors[k]? :=
    fun hk => Array.getElem?_setIfInBounds_ne fun h => hk h.symm
  constructor
  · intro u hu
    have hu : c.Node first u := by
      refine hu.imp id ?_
      rintro ⟨v, knows⟩
      refine ⟨v, ?_⟩
      rw [Knows] at knows ⊢
      by_cases hv : v.node = i
      · rw [hv, hspent] at knows
        cases knows
      · rwa [hother hv] at knows
    by_cases hnode : u.node = i
    · exact Or.inr (Or.inl (by rw [hnode]; exact hspent))
    · have hcell := linked.cell u hu
      simp only [Knows] at hcell ⊢
      rwa [hother hnode]
  · intro k other h
    by_cases hk : k = i
    · rw [hk, hspent] at h
      cases h
    · rw [hother hk] at h
      rw [Array.size_setIfInBounds]
      exact linked.last k other h

omit [Source τ σ] [Symbol σ] in
/-- The thunk has found a stream: its cell holds the stream, whose own cell is the last one now. -/
theorem linked_found (linked : c.Linked first) {i : Nat} {step : Stream.Step σ}
    (hpending : c.successors[i]? = some (.pending step)) (hnode : t.node = c.successors.size)
    (hindex : t.position.index = step.position.index + 1) (window : Window τ σ) :
    Linked first ⟨window, ((c.successors.setIfInBounds i .spent).push t.cell).setIfInBounds i
      (.ready t)⟩ := by
  obtain ⟨hlt, -⟩ := Array.getElem?_eq_some_iff.mp hpending
  have hlast := linked.last i step hpending
  have hcells := getElem?_filled hlt t.cell (.ready t)
  constructor
  · intro u hu
    have hu : u = t ∨ c.Node first u := by
      rcases hu with rfl | ⟨v, knows⟩
      · exact Or.inr (Or.inl rfl)
      · rw [Knows] at knows
        dsimp only at knows
        rw [hcells] at knows
        split at knows
        · cases knows
          exact Or.inl rfl
        · split at knows
          · exact Or.inl (Stream.cell_ready (Option.some.inj knows))
          · exact Or.inr (Or.inr ⟨v, knows⟩)
    simp only [Knows]
    rw [hcells]
    rcases hu with rfl | hu
    · rw [if_neg (by omega), if_pos hnode]
      exact Or.inl rfl
    · have hcell := linked.cell u hu
      by_cases hat : u.node = i
      -- The node whose thunk has run has a successor now.
      · rw [if_pos hat]
        refine Or.inr (Or.inr ⟨t, rfl, ?_⟩)
        simp only [Knows, hat, hpending] at hcell
        rcases hcell with hown | hspent | ⟨v, hready, -⟩
        · have hposition := Stream.cell_pending (Option.some.inj hown).symm
          exact ⟨by omega, by rw [hindex, hposition]⟩
        · cases hspent
        · cases hready
      · have hbound : u.node < c.successors.size := by
          rcases hcell with hown | hspent | ⟨v, hready, -⟩
          · exact (Array.getElem?_eq_some_iff.mp hown).1
          · exact (Array.getElem?_eq_some_iff.mp hspent).1
          · exact (Array.getElem?_eq_some_iff.mp hready).1
        rw [if_neg hat, if_neg (by omega)]
        exact hcell
  · intro k other h
    dsimp only at h ⊢
    rw [hcells] at h
    rw [Array.size_setIfInBounds, Array.size_push, Array.size_setIfInBounds]
    split at h
    · cases h
    · split at h
      · omega
      · have := linked.last k other h
        omega

/-- Moving along keeps the nodes linked, also where it meets a fault. -/
theorem consume_linked (linked : c.Linked first) (s : Stream σ) : (c.consume s).2.Linked first := by
  rcases c.successor_cases s with ⟨t, knows⟩ | ⟨step, hpending⟩ | hspent
  · rw [consume_of_knows knows]
    exact linked
  · rw [consume_of_pending hpending]
    rcases advance_shape ⟨c.window, c.successors.setIfInBounds s.node .spent⟩ step with
      ⟨t, window, hadvance, hnode, hindex⟩ | ⟨fault, window, hadvance⟩
    · rw [hadvance]
      rw [Array.size_setIfInBounds] at hnode
      exact linked_found linked hpending hnode hindex window
    · rw [hadvance]
      exact linked_broken linked hpending window
  · rw [consume_of_spent hspent]
    exact linked

/-! ## Steps ahead -/

/-- The stream so many symbols further on. -/
def consumeTimes (c : Chain τ σ) (s : Stream σ) : Nat → Except Fault (Stream σ) × Chain τ σ
  | 0 => (.ok s, c)
  | count + 1 =>
    match c.consumeTimes s count with
    | (.ok t, c) => c.consume t
    | (.error fault, c) => (.error fault, c)

/-- So many steps lead from the first stream to the second, and change nothing. -/
structure Ahead (c : Chain τ σ) (count : Nat) (s t : Stream σ) : Prop where
  consumed : c.consumeTimes s count = (.ok t, c)
  node_eq : t.node = s.node + count
  index_eq : t.position.index = s.position.index + count

theorem ahead_self (c : Chain τ σ) (s : Stream σ) : c.Ahead 0 s s := ⟨rfl, rfl, rfl⟩

theorem Ahead.step {u : Stream σ} {count : Nat} (ahead : c.Ahead count s t) (knows : c.Knows t u)
    (next : t.Precedes u) : c.Ahead (count + 1) s u := by
  refine ⟨?_, ?_, ?_⟩
  · rw [consumeTimes, ahead.consumed]
    exact consume_of_knows knows
  · rw [next.1, ahead.node_eq, Nat.add_assoc]
  · rw [next.2, ahead.index_eq, Nat.add_assoc]

/-- No step at all leads back to the first stream. -/
theorem Ahead.eq_iff {count : Nat} (ahead : c.Ahead count s t) : t = s ↔ count = 0 := by
  have hnode := ahead.node_eq
  constructor
  · rintro rfl
    omega
  · rintro rfl
    have hsame := ahead.consumed
    cases hsame
    rfl

theorem Ahead.isSame_iff {count : Nat} (ahead : c.Ahead count s t) : t.isSame s = true ↔ t = s := by
  have hnode := ahead.node_eq
  rw [ahead.eq_iff, Stream.isSame, decide_eq_true_iff]
  omega

/-- What lies ahead of a node is never left. -/
theorem Linked.confines (linked : c.Linked first) (s : Stream σ) :
    c.Confines fun t => c.Node first t ∧ ∃ count, c.Ahead count s t := by
  rintro t u ⟨ht, count, ahead⟩ knows
  refine ⟨Or.inr ⟨t, knows⟩, ?_⟩
  rcases linked.precedes ht knows with rfl | next
  · exact ⟨count, ahead⟩
  · exact ⟨count + 1, ahead.step knows next⟩

end Chain

section

variable [Source τ σ] [Symbol σ] {ν : Type → Type} {α : Type} {rules : Rules σ ν ε}
  {first : Stream σ}

theorem closed_linked (first : Stream σ) :
    Run.Closed (Run.Keeps fun session : Session τ σ ε => session.chain.Linked first) := by
  apply Run.closed_keeps
  · intro s session linked
    rw [Run.after_consume]
    exact Chain.consume_linked linked s
  · intro event session linked
    exact linked
  · intro notice session linked
    exact Chain.linked_note linked notice

/-- A parse leaves a stream ahead of the node that it was given. -/
theorem parse_ahead {fuel : Nat} {g : Grammar σ ν ε α} {s : Stream σ}
    {session final : Session τ σ ε} {outcome : Outcome σ α}
    (scriptless : g.Throughout rules Grammar.Scriptless) (linked : session.chain.Linked first)
    (hs : session.chain.Node first s) (ended : g.parse rules fuel s session = .ok outcome final) :
    final.chain.Node first outcome.rest ∧ ∃ count, final.chain.Ahead count s outcome.rest := by
  have hfinal : final.chain.Linked first :=
    (Grammar.parse_closed (closed_linked first) fuel g s).ok linked ended
  have hgrows : session.chain.Grows final.chain :=
    (Grammar.parse_closed (closed_grows session.chain) fuel g s).ok (fun _ _ knows => knows) ended
  have hstart : final.chain.Node first s ∧ ∃ count, final.chain.Ahead count s s :=
    ⟨hs.grows hgrows, 0, final.chain.ahead_self s⟩
  exact parse_confined (hfinal.confines s) (fun _ h => h) scriptless hstart ended fun _ _ knows =>
    knows

theorem Action.run_node {action : Action σ ε} (scriptless : action.Scriptless) {s rest : Stream σ}
    {session final : Session τ σ ε} (linked : session.chain.Linked first)
    (hs : session.chain.Node first s) (ended : action.run s session = .ok rest final) :
    final.chain.Node first rest := by
  cases action with
  | consume => exact Or.inr ⟨s, Run.consume_knows ended⟩
  | parse rules g fuel =>
    obtain ⟨outcome, middle, hparse, hrest⟩ := bind_eq_ok.mp ended
    cases hrest
    exact (parse_ahead scriptless linked hs hparse).1

theorem Visit.act_node {v : Visit τ σ ε} (linked : v.session.chain.Linked first)
    (nodes : ∀ s ∈ v.held, v.session.chain.Node first s) (i : Nat) {action : Action σ ε}
    (scriptless : action.Scriptless) :
    ∀ s ∈ (v.act i action).held, (v.act i action).session.chain.Node first s := by
  have hgrows : v.session.chain.Grows (v.act i action).session.chain := v.actAll_grows [(i, action)]
  rw [act] at hgrows ⊢
  cases hat : v.held[i]? with
  | none => exact nodes
  | some s =>
    rw [hat] at hgrows
    dsimp only at hgrows ⊢
    cases hrun : action.run s v.session with
    | error reason session =>
      rw [hrun] at hgrows
      exact fun t ht => (nodes t ht).grows hgrows
    | ok next session =>
      rw [hrun] at hgrows
      intro t ht
      rcases List.mem_append.mp ht with ht | ht
      · exact (nodes t ht).grows hgrows
      · rw [List.mem_singleton.mp ht]
        exact action.run_node scriptless linked (nodes s (List.mem_of_getElem? hat)) hrun

/-- The streams that a history without scripts leads to are nodes. -/
theorem Visit.held_node {v : Visit τ σ ε} (linked : v.session.chain.Linked first)
    (nodes : ∀ s ∈ v.held, v.session.chain.Node first s) (history : List (Nat × Action σ ε))
    (scriptless : ∀ step ∈ history, step.2.Scriptless) :
    ∀ s ∈ (v.actAll history).held, (v.actAll history).session.chain.Node first s := by
  induction history generalizing v with
  | nil => exact nodes
  | cons step rest ih =>
    have hlinked : (v.act step.1 step.2).session.chain.Linked first :=
      actAll_keeps (closed_linked first) linked [step]
    have hnodes := act_node linked nodes step.1 (scriptless step List.mem_cons_self)
    exact ih hlinked hnodes fun later hlater => scriptless later (List.mem_cons_of_mem step hlater)

/-- What is evaluated in the course of a parse is evaluated at a node. -/
theorem Evaluates.node {β : Type} {fuel less : Nat} {g : Grammar σ ν ε α} {h : Grammar σ ν ε β}
    {s t : Stream σ} {session before : Session τ σ ε}
    (evaluates : Evaluates rules fuel g s session less h t before)
    (scriptless : g.Throughout rules Grammar.Scriptless) (linked : session.chain.Linked first)
    (hs : session.chain.Node first s) :
    h.Throughout rules Grammar.Scriptless ∧ before.chain.Linked first ∧
    before.chain.Node first t := by
  have hbefore : before.chain.Linked first := evaluates.keeps (closed_linked first) linked
  have hstart : before.chain.Node first s ∧ ∃ count, before.chain.Ahead count s s :=
    ⟨hs.grows evaluates.grows, 0, before.chain.ahead_self s⟩
  obtain ⟨hinside, ht, -⟩ :=
    evaluates.confined (hbefore.confines s) (fun _ h => h) scriptless hstart fun _ _ knows => knows
  exact ⟨hinside, hbefore, ht⟩

/-- A span goes from where its grammar was tried to where it left off. -/
theorem parse_spanned {fuel : Nat} {p : Grammar σ ν ε α} {t rest : Stream σ}
    {before after : Session τ σ ε} {value : α} {span : Span}
    (ended : (Grammar.spanned p).parse rules fuel t before =
      .ok (.success (value, span) rest) after) :
    p.parse rules fuel t before = .ok (.success value rest) after ∧
    span = ⟨t.position, rest.position⟩ := by
  cases fuel with
  | zero => cases ended
  | succ fuel =>
    obtain ⟨outcome, middle, hparse, hanswer⟩ := bind_eq_ok.mp ended
    cases outcome with
    | success value rest =>
      cases hanswer
      exact ⟨hparse, rfl⟩
    | failure rest => cases hanswer
    | error rest message => cases hanswer

/-- The length of a span is the number of steps between its ends. -/
theorem Chain.Ahead.span {c : Chain τ σ} {t rest : Stream σ} {count : Nat}
    (ahead : c.Ahead count t rest) : (Span.mk t.position rest.position).length = .ok count ∧
      ((Span.mk t.position rest.position).isEmpty = true ↔ rest = t) := by
  have hindex := ahead.index_eq
  constructor
  · rw [Span.length, if_pos (by dsimp only; omega)]
    dsimp only
    rw [hindex, Nat.add_sub_cancel_left]
  · rw [ahead.eq_iff, Span.isEmpty, decide_eq_true_iff]
    dsimp only
    omega

end

/-- Whatever was done before, a parse at a node of the chain without a script in it leaves, if it
ends at all, a stream so many steps ahead of that node, and its index is greater by as many. For a
span that is measured in the course of the parse the steps are those between its ends: they are its
length, and it is empty exactly if there are none. -/
theorem residual_ahead [Source τ σ] [Symbol σ] (window : Window τ σ) (start : Position)
    (history : List (Nat × Action σ ε)) {s : Stream σ}
    (node : ((Visit.ofWindow window start).actAll history).session.chain.Node
      (Chain.ofWindow window start).1 s)
    {ν : Type → Type} {α : Type} {rules : Rules σ ν ε} {g : Grammar σ ν ε α}
    (scriptless : g.Throughout rules Grammar.Scriptless) (fuel : Nat) :
    (∀ reply final, g.parse rules fuel s ((Visit.ofWindow window start).actAll history).session =
      .ok reply final →
      ∃ count, final.chain.consumeTimes s count = (.ok reply.rest, final.chain) ∧
        reply.rest.position.index = s.position.index + count) ∧
    ∀ {β : Type} {p : Grammar σ ν ε β} {less : Nat} {t : Stream σ} {before : Session τ σ ε},
      Evaluates rules fuel g s ((Visit.ofWindow window start).actAll history).session less
        (.spanned p) t before →
      ∀ value span rest after,
        (Grammar.spanned p).parse rules less t before = .ok (.success (value, span) rest) after →
        p.parse rules less t before = .ok (.success value rest) after ∧
        span.start = t.position ∧ span.stop = rest.position ∧
        ∃ count, after.chain.consumeTimes t count = (.ok rest, after.chain) ∧
        span.length = .ok count ∧
          (span.isEmpty = true ↔ rest.isSame t = true) ∧ (span.isEmpty = true ↔ rest = t) := by
  have hlinked := Visit.actAll_keeps (closed_linked _) (v := Visit.ofWindow window start)
    (Chain.linked_ofWindow window start) history
  constructor
  · intro reply final ended
    obtain ⟨-, count, ahead⟩ := parse_ahead scriptless hlinked node ended
    exact ⟨count, ahead.consumed, ahead.index_eq⟩
  · intro β p less t before evaluates value span rest after ended
    obtain ⟨hinside, hbefore, ht⟩ := evaluates.node scriptless hlinked node
    obtain ⟨hparse, rfl⟩ := parse_spanned ended
    have hp : p.Throughout rules Grammar.Scriptless := hinside.parts
    obtain ⟨-, count, ahead⟩ := parse_ahead hp hbefore ht hparse
    obtain ⟨hlength, hempty⟩ := ahead.span
    exact ⟨hparse, rfl, rfl, count, ahead.consumed, hlength, hempty.trans ahead.isSame_iff.symm,
      hempty⟩

/-- A run of one symbol from the second place of an input that comes in two pieces, measured within
what may be there or not. -/
theorem residual_ahead_run :
    let window : Window (Pieces Char) Char := .ofSource ⟨[['a', 'b'], ['b', 'c']]⟩
    let session : Session (Pieces Char) Char Unit :=
      ((Visit.ofWindow window .start).actAll [(0, .consume)]).session
    let run : Grammar Char (fun _ => Empty) Unit (List Char) := .many (.symbol 'b')
    let s : Stream Char := ⟨1, some 'b', ⟨1, 2, 1⟩⟩
    let rest : Stream Char := ⟨3, some 'c', ⟨1, 4, 3⟩⟩
    let span : Span := ⟨s.position, rest.position⟩
    ∃ final after count steps,
      (Grammar.optional (.spanned run)).parse Rules.none 4 s session =
        .ok (.success (some (['b', 'b'], span)) rest) final ∧
      final.chain.consumeTimes s count = (.ok rest, final.chain) ∧
      rest.position.index = s.position.index + count ∧
      (Grammar.spanned run).parse Rules.none 4 s session =
        .ok (.success (['b', 'b'], span) rest) after ∧
      after.chain.consumeTimes s steps = (.ok rest, after.chain) ∧ span.length = .ok steps := by
  intro window session run s rest span
  have node : session.chain.Node (Chain.ofWindow window .start).1 s := by
    apply Visit.held_node (Chain.linked_ofWindow window .start)
    · exact fun t ht => Or.inl (List.mem_singleton.mp ht)
    · exact fun step hstep => by rw [List.mem_singleton.mp hstep]; trivial
    · decide +kernel
  have hrun : run.Throughout Rules.none Grammar.Scriptless :=
    .intro trivial (.intro trivial trivial trivial) trivial
  have scriptless : (Grammar.optional (.spanned run)).Throughout Rules.none Grammar.Scriptless :=
    .intro trivial (.intro trivial hrun trivial) trivial
  have inside : Evaluates Rules.none 4 (.optional (.spanned run)) s session 4 (.spanned run) s
      session := .inside .here .self
  obtain ⟨hall, hspans⟩ := residual_ahead window .start [(0, .consume)] node scriptless 4
  obtain ⟨final, hoptional⟩ :
      ∃ final, (Grammar.optional (.spanned run)).parse Rules.none 4 s session =
        .ok (.success (some (['b', 'b'], span)) rest) final :=
    Run.value?_eq_some (by decide +kernel)
  obtain ⟨after, hspanned⟩ : ∃ after, (Grammar.spanned run).parse Rules.none 4 s session =
      .ok (.success (['b', 'b'], span) rest) after :=
    Run.value?_eq_some (by decide +kernel)
  obtain ⟨count, hconsumed, hindex⟩ := hall _ final hoptional
  obtain ⟨-, -, -, steps, hsteps, hlength, -⟩ :=
    hspans inside ['b', 'b'] span rest after hspanned
  exact ⟨final, after, count, steps, hoptional, hconsumed, hindex, hspanned, hsteps, hlength⟩

end Rewind
