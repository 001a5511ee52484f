import Rewind.Proofs.Halting
import Rewind.Proofs.Listing
import Rewind.Proofs.Places

/-!
# Where a coordinate overflows

The thunk of a node stops where a coordinate of the next position would leave the word. By then the
window has passed the symbol and the cell has lost its thunk. The only node that this makes a
difference to is the one whose successor was asked for: it is the last, all others have their
successors (`Chain.Poised`), and no thunk is left that could read from the window (`Chain.Frozen`).
So nothing happens to the chain any more. A run there does what it would have done before, up to
where it asks for that one successor (`closed_ignores`).

The main theorem is `overflow_poisons`.
-/
namespace Rewind

variable {τ σ ε : Type}

/-! ## When the next position leaves the word -/

section Coordinates

variable [Symbol σ] {p : Position} {a : σ} {following : Option σ}

/-- A line feed ends a line, and a carriage return that no line feed follows. -/
def Symbol.EndsLine (a : σ) (following : Option σ) : Prop :=
  a = Symbol.lineFeed ∨ a = Symbol.carriageReturn ∧ following ≠ some Symbol.lineFeed

namespace Position

/-- A coordinate that goes up at the symbol is at the last word. -/
def Overflows (p : Position) (a : σ) (following : Option σ) : Prop :=
  p.index = wordLimit - 1 ∨ Symbol.EndsLine a following ∧ p.line = wordLimit - 1 ∨
    ¬ Symbol.EndsLine a following ∧ p.column = wordLimit - 1

theorem fits_past_iff (fits : p.Fits) : (p.past a following).Fits ↔ ¬ p.Overflows a following := by
  obtain ⟨hline, hcolumn, hindex⟩ := fits
  have hone : 1 < wordLimit := by decide
  by_cases hends : Symbol.EndsLine a following
  · rw [past_end hends]
    simp only [Fits, Overflows, hends, true_and, not_true_eq_false, false_and, or_false]
    omega
  · have hpair : a = Symbol.carriageReturn → following = some Symbol.lineFeed := by
      intro hreturn
      by_cases hfeed : following = some Symbol.lineFeed
      · exact hfeed
      · exact absurd (Or.inr ⟨hreturn, hfeed⟩) hends
    rw [past_within (fun hfeed => hends (Or.inl hfeed)) hpair]
    simp only [Fits, Overflows, hends, not_false_eq_true, true_and, false_and, false_or]
    omega

/-- The step leads to the next position if that fits, else nowhere. -/
theorem target_cases (p : Position) (a : σ) (following : Option σ) (fits : p.Fits) :
    (Stream.Step.mk a p).target following = .ok (p.past a following) ∧ (p.past a following).Fits ∨
      (Stream.Step.mk a p).target following = .error .addOverflow ∧
      ¬ (p.past a following).Fits := by
  obtain ⟨hline, -, -⟩ := fits
  have hone : 1 < wordLimit := by decide
  by_cases hfits : (p.past a following).Fits
  · exact Or.inl ⟨target_eq hfits, hfits⟩
  · refine Or.inr ⟨?_, hfits⟩
    rw [past, Fits] at hfits
    rw [Stream.Step.target]
    split at hfits
    · simp_all [nextLine]
    · simp_all [nextColumn]

end Position
end Coordinates

/-! ## The one thunk that is left -/

/-- A cell that nobody has asked for holds what the stream came with. -/
theorem Stream.cell_eq_pending {s : Stream σ} {step : Stream.Step σ} (h : s.cell = .pending step) :
    s.current = some step.symbol ∧ s.position = step.position := by
  rw [Stream.cell] at h
  cases hcurrent : s.current with
  | none =>
    rw [hcurrent] at h
    cases h
  | some symbol =>
    rw [hcurrent] at h
    cases h
    exact ⟨rfl, rfl⟩

section

variable [Source τ σ] {w : Window τ σ}

/-- The window shows the symbol that it stands on. -/
theorem Window.look_of_stands {a : σ} (stands : w.staged[w.cursor]? = some a) :
    (w.look 1).1 = some a := by
  obtain ⟨hlt, -⟩ := Array.getElem?_eq_some_iff.mp stands
  have hbuffered : 1 ≤ w.buffered := by
    rw [buffered]
    omega
  rw [look, ensure, if_pos hbuffered]
  exact stands

/-- After a look the window stands on what it has shown. -/
theorem Window.stands_look (w : Window τ σ) :
    (w.look 1).2.staged[(w.look 1).2.cursor]? = (w.look 1).1 :=
  rfl

end

namespace Chain

/-- The cell has a thunk to run. -/
def Pending (c : Chain τ σ) (i : Nat) (step : Stream.Step σ) : Prop :=
  c.successors[i]? = some (.pending step)

/-- The cell is the last, behind it there are only successors, the window stands on the symbol of
the step, and its position fits into words. -/
structure Frontier (c : Chain τ σ) (i : Nat) (step : Stream.Step σ) : Prop where
  last : i + 1 = c.successors.size
  behind : ∀ k < i, ∃ t, c.successors[k]? = some (.ready t)
  stands : c.window.staged[c.window.cursor]? = some step.symbol
  fits : step.position.Fits

def Poised (c : Chain τ σ) : Prop := ∀ i step, c.Pending i step → c.Frontier i step

/-- There is no thunk. -/
def Frozen (c : Chain τ σ) : Prop := ∀ i step, ¬ c.Pending i step

variable {c d : Chain τ σ} {i : Nat} {step : Stream.Step σ} {first s t u : Stream σ} {a : σ}

theorem Frozen.poised (frozen : c.Frozen) : c.Poised :=
  fun i step pending => absurd pending (frozen i step)

/-- Where there are only successors, a cell that is added may have a thunk. -/
theorem poised_push {cells : Array (Cell (Stream.Step σ) (Stream σ))} {window : Window τ σ}
    {t : Stream σ} (ready : ∀ k < cells.size, ∃ u, cells[k]? = some (.ready u))
    (stands : window.staged[window.cursor]? = t.current) (fits : t.position.Fits) :
    Poised ⟨window, cells.push t.cell⟩ := by
  intro i step h
  rw [Pending] at h
  by_cases hi : i = cells.size
  · rw [hi, Array.getElem?_push_size] at h
    obtain ⟨hcurrent, hposition⟩ := Stream.cell_eq_pending (Option.some.inj h)
    refine ⟨?_, ?_, ?_, ?_⟩
    · rw [hi, Array.size_push]
    · intro k hk
      obtain ⟨u, hu⟩ := ready k (by omega)
      refine ⟨u, ?_⟩
      rw [Array.getElem?_push, if_neg (by omega)]
      exact hu
    · rw [stands, hcurrent]
    · rwa [← hposition]
  · have hbound : i < (cells.push t.cell).size := (Array.getElem?_eq_some_iff.mp h).1
    rw [Array.size_push] at hbound
    obtain ⟨u, hu⟩ := ready i (by omega)
    rw [Array.getElem?_push, if_neg hi, hu] at h
    cases h

/-- A cell is filled before the one that was added. -/
theorem filled_eq_push {cells : Array (Cell (Stream.Step σ) (Stream σ))} (hi : i < cells.size)
    (added filled : Cell (Stream.Step σ) (Stream σ)) :
    ((cells.setIfInBounds i .spent).push added).setIfInBounds i filled =
      (cells.setIfInBounds i filled).push added := by
  apply Array.ext_getElem?
  intro k
  rw [getElem?_filled hi, Array.getElem?_push, Array.size_setIfInBounds]
  by_cases hk : k = i
  · rw [if_pos hk, if_neg (by omega), hk, Array.getElem?_setIfInBounds_self_of_lt hi]
  · rw [if_neg hk, Array.getElem?_setIfInBounds_ne fun heq => hk heq.symm]

theorem poised_note (poised : c.Poised) (notice : Notice) : (c.note notice).Poised := by
  intro i step pending
  obtain ⟨last, behind, stands, fits⟩ := poised i step pending
  exact ⟨last, behind, stands, fits⟩

/-- Every other node has its successor. -/
theorem Poised.knows (poised : c.Poised) (linked : c.Linked first) (current : s.current = some a)
    (pending : c.Pending s.node ⟨a, s.position⟩) (ht : c.Node first t) (ne : t ≠ s) :
    ∃ u, c.Knows t u := by
  have hlast := (poised _ _ pending).last
  rcases linked.cell t ht with hown | hspent | ⟨u, hu, -⟩
  · cases hcurrent : t.current with
    | none =>
      rw [Stream.cell, hcurrent] at hown
      exact ⟨t, hown⟩
    -- There is one thunk, so that the two streams would be one.
    | some b =>
      rw [Stream.cell, hcurrent] at hown
      have hother := (poised t.node ⟨b, t.position⟩ hown).last
      have hnode : t.node = s.node := by omega
      rw [hnode] at hown
      have hsame := hown.symm.trans pending
      simp only [Option.some.injEq, Cell.pending.injEq, Stream.Step.mk.injEq] at hsame
      refine absurd ?_ ne
      cases s
      cases t
      simp_all
  · obtain ⟨hlt, -⟩ := Array.getElem?_eq_some_iff.mp hspent
    by_cases hnode : t.node = s.node
    · rw [hnode] at hspent
      cases hspent.symm.trans pending
    · obtain ⟨v, hv⟩ := (poised _ _ pending).behind t.node (by omega)
      cases hspent.symm.trans hv
  · exact ⟨u, hu⟩

/-- The chain `d` holds what `c` does, but for the only thunk of `c`, in cell `i`. -/
structure Without (i : Nat) (d c : Chain τ σ) : Prop where
  successors_eq : d.successors = c.successors.setIfInBounds i .spent
  pending : ∃ step, c.Pending i step
  only : ∀ k step, c.Pending k step → k = i

/-- A fault takes the thunk out. -/
theorem Poised.without (poised : c.Poised) (pending : c.Pending i step) (window : Window τ σ) :
    Without i ⟨window, c.successors.setIfInBounds i .spent⟩ c := by
  refine ⟨rfl, ⟨step, pending⟩, ?_⟩
  intro k other h
  have hlast := (poised i step pending).last
  have hother := (poised k other h).last
  omega

theorem Without.spent (without : Without i d c) : d.successors[i]? = some .spent := by
  obtain ⟨step, pending⟩ := without.pending
  obtain ⟨hlt, -⟩ := Array.getElem?_eq_some_iff.mp pending
  rw [without.successors_eq, Array.getElem?_setIfInBounds_self_of_lt hlt]

theorem Without.others (without : Without i d c) {k : Nat} (hk : k ≠ i) :
    d.successors[k]? = c.successors[k]? := by
  rw [without.successors_eq, Array.getElem?_setIfInBounds_ne fun h => hk h.symm]

/-- The only thunk is gone. -/
theorem Without.frozen (without : Without i d c) : d.Frozen := by
  intro k step h
  rw [Pending] at h
  by_cases hk : k = i
  · rw [hk, without.spent] at h
    cases h
  · rw [without.others hk] at h
    exact hk (without.only k step h)

/-- A thunk that is gone takes no successor with it. -/
theorem Without.knows_iff (without : Without i d c) : d.Knows t u ↔ c.Knows t u := by
  obtain ⟨step, pending⟩ := without.pending
  rw [Knows, Knows]
  by_cases ht : t.node = i
  · rw [ht, without.spent, show c.successors[i]? = _ from pending]
    simp
  · rw [without.others ht]

theorem Without.node_iff (without : Without i d c) : d.Node first t ↔ c.Node first t := by
  simp only [Node, without.knows_iff]

theorem Without.echoes {e : Chain τ σ} (without : Without i d c) (echoes : d.Echoes e) :
    Without i e c :=
  ⟨echoes.2.trans without.successors_eq, without.pending, without.only⟩

variable [Source τ σ]

theorem poised_ofWindow (window : Window τ σ) {start : Position} (fits : start.Fits) :
    (ofWindow window start).2.Poised := by
  rw [ofWindow, extend_eq]
  exact poised_push (fun k hk => absurd hk (Nat.not_lt_zero k)) (Window.stands_look window) fits

variable [Symbol σ]

/-- What the thunk does, by whether the next position fits. -/
theorem advance_eq (c : Chain τ σ) (step : Stream.Step σ) (fits : step.position.Fits) :
    (∃ t window, c.advance step = (.ok t, ⟨window, c.successors.push t.cell⟩) ∧
      window.staged[window.cursor]? = t.current ∧ t.position.Fits ∧
      ¬ step.position.Overflows step.symbol (c.window.look 2).1) ∨
    ∃ window, c.advance step = (.error .addOverflow, ⟨window, c.successors⟩) ∧
      step.position.Overflows step.symbol (c.window.look 2).1 := by
  rw [advance]
  dsimp only
  rcases Position.target_cases step.position step.symbol (c.window.look 2).1 fits with
    ⟨htarget, hfits⟩ | ⟨htarget, hfits⟩
  · rw [show step.target (c.window.look 2).1 = .ok _ from htarget]
    dsimp only
    rw [extend_eq]
    exact Or.inl ⟨_, _, rfl, Window.stands_look _, hfits, (Position.fits_past_iff fits).mp hfits⟩
  · rw [show step.target (c.window.look 2).1 = .error _ from htarget]
    rw [Position.fits_past_iff fits] at hfits
    exact Or.inr ⟨_, rfl, not_not.mp hfits⟩

/-- Moving along leaves no thunk but that of a last cell, also where it meets a fault. -/
theorem consume_poised (poised : c.Poised) (s : Stream σ) : (c.consume s).2.Poised := by
  rcases c.successor_cases s with ⟨t, knows⟩ | ⟨step, hpending⟩ | hspent
  · rw [consume_of_knows knows]
    exact poised
  · obtain ⟨hlast, hbehind, -, hfits⟩ := poised s.node step hpending
    have hbound : s.node < c.successors.size := by omega
    rw [consume_of_pending hpending]
    rcases advance_eq ⟨c.window, c.successors.setIfInBounds s.node .spent⟩ step hfits with
      ⟨t, window, hadvance, hstands, hnext, -⟩ | ⟨window, hadvance, -⟩
    · rw [hadvance]
      dsimp only
      rw [filled_eq_push hbound]
      refine poised_push (fun k hk => ?_) hstands hnext
      rw [Array.size_setIfInBounds] at hk
      by_cases hat : k = s.node
      · rw [hat, Array.getElem?_setIfInBounds_self_of_lt hbound]
        exact ⟨t, rfl⟩
      · rw [Array.getElem?_setIfInBounds_ne fun heq => hat heq.symm]
        exact hbehind k (by omega)
    · rw [hadvance]
      exact (poised.without hpending window).frozen.poised
  · rw [consume_of_spent hspent]
    exact poised

/-- The thunk of a cell finds a stream, unless a coordinate overflows; then it is gone. -/
theorem consume_pending (poised : c.Poised) {s : Stream σ} (pending : c.Pending s.node step) :
    (∃ t found, c.consume s = (.ok t, found)) ∧
    ¬ step.position.Overflows step.symbol (c.window.look 2).1 ∨
      (∃ window, c.consume s =
        (.error .addOverflow, ⟨window, c.successors.setIfInBounds s.node .spent⟩)) ∧
        step.position.Overflows step.symbol (c.window.look 2).1 := by
  rw [consume_of_pending pending]
  rcases advance_eq ⟨c.window, c.successors.setIfInBounds s.node .spent⟩ step
      (poised s.node step pending).fits with
    ⟨t, window, hadvance, -, -, hwithin⟩ | ⟨window, hadvance, hover⟩
  · rw [hadvance]
    exact Or.inl ⟨⟨t, _, rfl⟩, hwithin⟩
  · rw [hadvance]
    exact Or.inr ⟨⟨window, rfl⟩, hover⟩

theorem consume_fails_iff (poised : c.Poised) {s : Stream σ} (pending : c.Pending s.node step) :
    (∃ fault broken, c.consume s = (.error fault, broken)) ↔
      step.position.Overflows step.symbol (c.window.look 2).1 := by
  rcases consume_pending poised pending with
    ⟨⟨t, found, hfound⟩, hwithin⟩ | ⟨⟨window, hbroken⟩, hover⟩
  · refine iff_of_false ?_ hwithin
    rintro ⟨fault, broken, hbroken⟩
    cases hfound.symm.trans hbroken
  · exact iff_of_true ⟨_, _, hbroken⟩ hover

theorem consume_fails (poised : c.Poised) {s : Stream σ} (pending : c.Pending s.node step)
    {fault : Fault} {broken : Chain τ σ} (h : c.consume s = (.error fault, broken)) :
    fault = .addOverflow ∧
    ∃ window, broken = ⟨window, c.successors.setIfInBounds s.node .spent⟩ := by
  rcases consume_pending poised pending with ⟨⟨t, found, hfound⟩, -⟩ | ⟨⟨window, hbroken⟩, -⟩
  · cases hfound.symm.trans h
  · cases hbroken.symm.trans h
    exact ⟨rfl, window, rfl⟩

/-- Where the source serves a list, the window shows what comes next in the list. -/
theorem Reaches.look_two {left : τ → List σ → Prop} (serves : Serves left) {input : Input σ}
    {last : Stream σ} (reaches : c.Reaches left input last) (pending : c.Pending i step) :
    (c.window.look 2).1 = input.symbols[i + 1]? := by
  obtain ⟨hlt, -⟩ := Array.getElem?_eq_some_iff.mp pending
  have hsize := reaches.size_eq
  have hlast : i = last.node := by
    apply Nat.le_antisymm (by omega)
    apply Nat.le_of_not_lt
    intro hbehind
    obtain ⟨t, -, hready⟩ := reaches.behind i hbehind
    cases hready.symm.trans pending
  rcases reaches.frontier with ⟨-, hholds⟩ | ⟨hspent, -⟩
  · rw [Window.look_eq serves hholds (by omega), List.getElem?_drop, hlast]
  · rw [← hlast] at hspent
    cases hspent.symm.trans pending

/-! ## Chains without a thunk -/

/-- Without a thunk nothing is done to the chain. -/
theorem Frozen.consume (frozen : c.Frozen) (s : Stream σ) :
    (∃ t, c.Knows s t ∧ c.consume s = (.ok t, c)) ∨
    c.consume s = (.error .forcedWhileComputing, c) := by
  rcases c.successor_cases s with ⟨t, knows⟩ | ⟨step, hpending⟩ | hspent
  · exact Or.inl ⟨t, knows, consume_of_knows knows⟩
  · exact absurd hpending (frozen s.node step)
  · exact Or.inr (consume_of_spent hspent)

/-- Where the thunk is gone there is no successor. -/
theorem Without.refuses (without : Without s.node d c) :
    d.consume s = (.error .forcedWhileComputing, d) := by
  apply consume_of_spent
  rw [Array.getD_eq_getD_getElem?, without.spent]
  rfl

end Chain

open Chain

variable [Source τ σ] [Symbol σ]

theorem closed_frozen {d : Chain τ σ} (frozen : d.Frozen) :
    Run.Closed (Run.Keeps fun session : Session τ σ ε => d.Echoes session.chain) := by
  apply Run.closed_keeps
  · intro s session echoes
    have hfrozen : session.chain.Frozen := by
      intro i step
      rw [Pending, echoes.2]
      exact frozen i step
    rw [Run.after_consume]
    rcases hfrozen.consume s with ⟨t, -, hconsume⟩ | hconsume
    · rwa [hconsume]
    · rwa [hconsume]
  · intro event session echoes
    exact echoes
  · intro notice session echoes
    exact echoes.trans (session.chain.note_echoes notice)

theorem closed_poised :
    Run.Closed (Run.Keeps fun session : Session τ σ ε => session.chain.Poised) := by
  apply Run.closed_keeps
  · intro s session poised
    rw [Run.after_consume]
    exact consume_poised poised s
  · intro event session poised
    exact poised
  · intro notice session poised
    exact poised_note poised notice

/-! ## With and without a thunk -/

/-- Without the thunk the run comes to the same, or it halts where it asks for it. -/
def Run.Ignores (i : Nat) {γ : Type} (x : Run τ σ ε γ) : Prop :=
  ∀ session other : Session τ σ ε, Without i session.chain other.chain →
    (∃ a final last, x session = .ok a final ∧ x other = .ok a last ∧
      Without i final.chain last.chain) ∨
    (∃ reason final last, x session = .error reason final ∧ x other = .error reason last) ∨
    ∃ final, x session = .error (.fault .forcedWhileComputing) final

theorem ignores_consume (i : Nat) (s : Stream σ) :
    Run.Ignores i (Run.consume s : Run τ σ ε (Stream σ)) := by
  intro session other without
  rcases without.frozen.consume s with ⟨t, knows, hconsume⟩ | hconsume
  · have hother := consume_of_knows (without.knows_iff.mp knows)
    exact Or.inl ⟨t, _, _, Run.consume_ok hconsume, Run.consume_ok hother, without⟩
  · exact Or.inr (Or.inr ⟨_, Run.consume_error hconsume⟩)

theorem closed_ignores (i : Nat) :
    Run.Closed (Run.Ignores i : {γ : Type} → Run τ σ ε γ → Prop) := by
  constructor
  · intro γ a session other without
    exact Or.inl ⟨a, session, other, rfl, rfl, without⟩
  · intro γ δ x f hx hf session other without
    rcases hx session other without with ⟨a, middle, between, hrun, hother, hwithout⟩ |
      ⟨reason, final, last, hrun, hother⟩ | ⟨final, hrun⟩
    · rw [bind_of_ok hrun, bind_of_ok hother]
      exact hf a middle between hwithout
    · exact Or.inr (Or.inl ⟨reason, final, last, bind_of_error hrun f, bind_of_error hother f⟩)
    · exact Or.inr (Or.inr ⟨final, bind_of_error hrun f⟩)
  · intro γ reason session other _
    exact Or.inr (Or.inl ⟨reason, session, other, rfl, rfl⟩)
  · exact ignores_consume i
  · intro event session other without
    exact Or.inl ⟨(), _, _, rfl, rfl, without⟩
  · intro notice session other without
    obtain ⟨successors_eq, pending, only⟩ := without
    exact Or.inl ⟨(), _, _, rfl, rfl, successors_eq, pending, only⟩

/-! ## Parses without the thunk -/

/-- The reason is not that a thunk is gone. -/
def Halt.Unforced : Halt → Prop
  | .fault f => f.message ≠ Fault.forcedWhileComputing.message
  | .outOfFuel => True

omit [Source τ σ] [Symbol σ] in
theorem Run.Together.exists_ok {γ : Type} {run other : EStateM.Result Halt (Session τ σ ε) γ}
    {a : γ} {final : Session τ σ ε} (together : Together (fun a _ b => a = b) run other)
    (ended : run = .ok a final) :
    ∃ last, other = .ok a last := by
  rw [ended] at together
  cases together with
  | ended related =>
    cases related
    exact ⟨_, rfl⟩

section Parses

variable {ν : Type → Type} {α : Type} {rules : Rules σ ν ε} {g : Grammar σ ν ε α} {fuel : Nat}
  {first s t : Stream σ} {c d : Chain τ σ} {session after : Session τ σ ε}

theorem isolates_broken (without : Without s.node d c)
    (others : ∀ t, c.Node first t → t ≠ s → ∃ u, c.Knows t u) :
    Run.Isolates (fun session : Session τ σ ε => d.Echoes session.chain) Halt.Unforced
      (d.Node first) s := by
  refine ⟨closed_frozen without.frozen, ?_, ?_⟩
  · intro session echoes t u _ knows
    exact Or.inr ⟨t, echoes.symm.grows t u knows⟩
  · intro session final t reason echoes ht halted _
    by_cases hs : t = s
    · exact hs
    · obtain ⟨u, hu⟩ := others t (without.node_iff.mp ht) hs
      have hknown := consume_of_knows (echoes.grows t u (without.knows_iff.mpr hu))
      cases halted.symm.trans (Run.consume_ok hknown)

/-- A parse halts for want of the thunk exactly if it asks for the successor of the one node. -/
theorem parse_asks_iff (fuel : Nat) (without : Without s.node d c)
    (others : ∀ t, c.Node first t → t ≠ s → ∃ u, c.Knows t u) (echoes : d.Echoes after.chain)
    (ht : c.Node first t)
    (throughout : g.Throughout rules fun h => h.Scriptless ∧ h.Observes Halt.Unforced) :
    (∃ again final, g.parse rules fuel t after = .error (.fault again) final ∧
      again.message = Fault.forcedWhileComputing.message) ↔ g.Asks rules fuel t after s := by
  constructor
  · rintro ⟨again, final, halted, hmessage⟩
    have hcapacity : Halt.Unforced (.fault .capacityOverflow) := by
      change Fault.capacityOverflow.message ≠ Fault.forcedWhileComputing.message
      decide
    have hunusual : ¬ Halt.Unforced (.fault again) := fun h => h hmessage
    exact Grammar.asks_of_halt (isolates_broken without others) trivial hcapacity hunusual
      throughout echoes (without.node_iff.mpr ht) halted
  · intro asks
    have hrefused : ∀ session : Session τ σ ε, d.Echoes session.chain →
        ∃ final, Run.consume s session = .error (.fault .forcedWhileComputing) final :=
      fun session echoes => ⟨_, Run.consume_error (without.echoes echoes).refuses⟩
    obtain ⟨final, halted⟩ := asks.halts (closed_frozen without.frozen) hrefused echoes
    exact ⟨_, final, halted, rfl⟩

/-- A parse that does not ask for it comes to what it comes to with the thunk. -/
theorem parse_unasked (without : Without s.node after.chain session.chain)
    (unforced : ∀ final, g.parse rules fuel t after ≠ .error (.fault .forcedWhileComputing) final) :
    Run.Together (fun outcome _ before => outcome = before) (g.parse rules fuel t after)
      (g.parse rules fuel t session) := by
  rcases Grammar.parse_closed (closed_ignores s.node) fuel g t after session without with
    ⟨outcome, final, last, hafter, hbefore, -⟩ | ⟨reason, final, last, hafter,
      hbefore⟩ | ⟨final, hafter⟩
  · rw [hafter, hbefore]
    exact .ended rfl
  · rw [hafter, hbefore]
    exact .halted reason final last
  · exact absurd hafter (unforced final)

end Parses

/-- In a session that a history leads to take a node whose successor was never asked for: its
cell is as it came. The window stands on its symbol and shows the one that follows. Asking for
the successor halts exactly if the index is at the last word, or the line is and the symbol
ends it, or the column is and the symbol does not end the line. Where it halts, then whatever
is done afterwards, it halts again, for the thunk is gone, and the source is left alone; the
nodes are those that there were, and every other one has its successor as before. A parse halts
for want of the thunk exactly if it asks for that successor, and else it comes to what it would
have come to before. -/
theorem overflow_poisons (window : Window τ σ) (start : Position) (fits : start.Fits)
    (history : List (Nat × Action σ ε)) {s : Stream σ} {a : σ} (current : s.current = some a)
    (unasked : ((Visit.ofWindow window start).actAll history).session.chain.successors[s.node]? =
      some s.cell) :
    let first := (Chain.ofWindow window start).1
    let session := ((Visit.ofWindow window start).actAll history).session
    let following := (session.chain.window.look 2).1
    (session.chain.window.look 1).1 = s.current ∧
    (∀ (left : τ → List σ → Prop) (symbols : List σ), Serves left → window.Holds left symbols →
      following = symbols[s.node + 1]?) ∧
    ((∃ fault broken, session.chain.consume s = (.error fault, broken)) ↔
      s.position.index = wordLimit - 1 ∨ Symbol.EndsLine a following ∧
      s.position.line = wordLimit - 1 ∨
        ¬ Symbol.EndsLine a following ∧ s.position.column = wordLimit - 1) ∧
    ∀ fault broken, session.chain.consume s = (.error fault, broken) →
      fault.message = "attempt to add with overflow" ∧
      ∀ (held : List (Stream σ)) (later : List (Nat × Action σ ε)),
        let after := ((Visit.mk ⟨broken, session.events⟩ held).actAll later).session
        (∃ again, after.chain.consume s = (.error again, after.chain) ∧
          again.message = "delayed value forced while it was being computed") ∧
        after.chain.window.source = broken.window.source ∧
        (∀ t, after.chain.Node first t ↔ session.chain.Node first t) ∧
        (∀ t, session.chain.Node first t → t ≠ s →
          ∃ u, session.chain.consume t = (.ok u, session.chain) ∧
          after.chain.consume t = (.ok u, after.chain)) ∧
        ∀ {ν : Type → Type} {α : Type} (rules : Rules σ ν ε) (g : Grammar σ ν ε α) (fuel : Nat)
          (t : Stream σ), session.chain.Node first t →
          g.Throughout rules (fun h => h.Scriptless ∧ h.Observes Halt.Unforced) →
          ((∃ again final, g.parse rules fuel t after = .error (.fault again) final ∧
            again.message = "delayed value forced while it was being computed") ↔
            g.Asks rules fuel t after s) ∧
          (¬ g.Asks rules fuel t after s →
            Run.Together (fun outcome _ before => outcome = before) (g.parse rules fuel t after)
              (g.parse rules fuel t session)) := by
  intro first session following
  have hlinked : session.chain.Linked first :=
    Visit.actAll_keeps (closed_linked first) (v := Visit.ofWindow window start)
      (Chain.linked_ofWindow window start) history
  have hpoised : session.chain.Poised :=
    Visit.actAll_keeps closed_poised (v := Visit.ofWindow window start)
      (poised_ofWindow window fits) history
  have hpending : session.chain.Pending s.node ⟨a, s.position⟩ := by
    rw [Pending, unasked, Stream.cell, current]
  have hfrontier := hpoised _ _ hpending
  refine ⟨?_, ?_, ?_, ?_⟩
  · rw [current]
    exact Window.look_of_stands hfrontier.stands
  · intro left symbols serves holds
    have hreaches : ∃ last, session.chain.Reaches left ⟨symbols, start⟩ last :=
      Visit.actAll_keeps (closed_reaches serves) (v := Visit.ofWindow window start)
        ⟨_, (@Chain.reaches_ofWindow τ σ left _ _ serves ⟨symbols, start⟩ window holds).2.1⟩ history
    obtain ⟨last, reaches⟩ := hreaches
    exact reaches.look_two serves hpending
  · exact consume_fails_iff hpoised hpending
  · intro fault broken hbroken
    obtain ⟨rfl, now, rfl⟩ := consume_fails hpoised hpending hbroken
    refine ⟨rfl, ?_⟩
    intro held later after
    have hwithout := hpoised.without hpending now
    have hothers : ∀ t, session.chain.Node first t → t ≠ s → ∃ u, session.chain.Knows t u :=
      fun t ht ne => hpoised.knows hlinked current hpending ht ne
    have hechoes : Chain.Echoes ⟨now, session.chain.successors.setIfInBounds s.node .spent⟩
        after.chain :=
      Visit.actAll_keeps (closed_frozen hwithout.frozen) (v := ⟨⟨_, session.events⟩, held⟩)
        (Chain.echoes_refl _) later
    have hafter := hwithout.echoes hechoes
    refine ⟨⟨_, hafter.refuses, rfl⟩, hechoes.source_eq, fun t => hafter.node_iff, ?_, ?_⟩
    · intro t ht ne
      obtain ⟨u, hu⟩ := hothers t ht ne
      exact ⟨u, consume_of_knows hu, consume_of_knows (hafter.knows_iff.mpr hu)⟩
    · intro ν α rules g fuel t ht throughout
      have hiff := parse_asks_iff fuel hwithout hothers hechoes ht throughout
      refine ⟨hiff, fun unasked => parse_unasked hafter ?_⟩
      exact fun final halted => unasked (hiff.mp ⟨_, final, halted, rfl⟩)

deriving instance DecidableEq for Stream.Step, Cell

/-- The column of the second symbol is at the last word. One symbol can still be parsed,
and two cannot. -/
theorem overflow_poisons_column :
    let window : Window (Queue Char) Char := .ofSource ⟨['a', 'b', 'c']⟩
    let start : Position := ⟨1, wordLimit - 2, 0⟩
    let first : Stream Char := (Chain.ofWindow window start).1
    let s : Stream Char := ⟨1, some 'b', ⟨1, wordLimit - 1, 1⟩⟩
    let session : Session (Queue Char) Char Unit :=
      ((Visit.ofWindow window start).actAll [(0, .consume)]).session
    let one : Grammar Char (fun _ => Empty) Unit Char := .any
    ∃ (fault : Fault) (broken : Chain (Queue Char) Char),
      session.chain.consume s = (.error fault, broken) ∧
      fault.message = "attempt to add with overflow" ∧
      (∃ again, broken.consume s = (.error again, broken) ∧
        again.message = "delayed value forced while it was being computed") ∧
      (∃ again final, (Grammar.pair one one).parse Rules.none 2 first ⟨broken, session.events⟩ =
        .error (.fault again) final ∧
        again.message = "delayed value forced while it was being computed") ∧
      ∃ final last, one.parse Rules.none 2 first ⟨broken, session.events⟩ =
        .ok (.success 'a' s) final ∧
        one.parse Rules.none 2 first session = .ok (.success 'a' s) last := by
  intro window start first s session one
  have calm : one.Throughout Rules.none fun h => h.Scriptless ∧ h.Observes Halt.Unforced :=
    .intro ⟨trivial, trivial⟩ trivial trivial
  have calm_pair : (Grammar.pair one one).Throughout Rules.none fun h =>
      h.Scriptless ∧ h.Observes Halt.Unforced :=
    .intro ⟨trivial, trivial⟩ ⟨calm, calm⟩ trivial
  have fits : start.Fits := by decide
  have unasked : session.chain.successors[s.node]? = some s.cell := by decide +kernel
  obtain ⟨-, -, hiff, hbroken⟩ := overflow_poisons window start fits [(0, .consume)] rfl unasked
  have within : ∀ following, ¬ Symbol.EndsLine 'b' following := by
    rintro following (hfeed | ⟨hreturn, -⟩)
    · exact absurd hfeed (by decide)
    · exact absurd hreturn (by decide)
  obtain ⟨fault, broken, hconsume⟩ := hiff.mpr (Or.inr (Or.inr ⟨within _, rfl⟩))
  obtain ⟨hmessage, hafter⟩ := hbroken fault broken hconsume
  obtain ⟨hagain, -, -, -, hparses⟩ := hafter [] []
  obtain ⟨final, hone⟩ : ∃ final, one.parse Rules.none 2 first ⟨broken, session.events⟩ =
      .ok (.success 'a' s) final := by
    rw [← show (session.chain.consume s).2 = broken from congrArg Prod.snd hconsume]
    exact Run.value?_eq_some (by decide +kernel)
  obtain ⟨hasks, hunasked⟩ := hparses Rules.none one 2 first (Or.inl rfl) calm
  have hnot : ¬ one.Asks Rules.none 2 first ⟨broken, session.events⟩ s := by
    intro asks
    obtain ⟨again, last, halted, -⟩ := hasks.mpr asks
    cases hone.symm.trans halted
  have hpair : (Grammar.pair one one).Asks Rules.none 2 first ⟨broken, session.events⟩ s :=
    ⟨1, rfl, .later hone (.inside .here)⟩
  obtain ⟨last, hbefore⟩ :
      ∃ last, one.parse Rules.none 2 first session = .ok (.success 'a' s) last :=
    (hunasked hnot).exists_ok hone
  exact ⟨fault, broken, hconsume, hmessage, hagain,
    (hparses Rules.none (.pair one one) 2 first (Or.inl rfl) calm_pair).1.mpr hpair, final, last,
      hone, hbefore⟩

end Rewind
