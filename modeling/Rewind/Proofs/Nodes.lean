import Rewind.Proofs.Lookahead
import Rewind.Session

/-!
# Nodes of an input

An input is a list of symbols and the position where it starts. Its nodes are what the streams of a
chain ought to be: one for each place in the list and one for its end, each with the position that
the steps before it lead to. Neither a window nor a cell is needed to say so.

`Chain.Reaches` is the invariant of a chain. The cells behind its last node hold the nodes after
them, and only the last node may have a thunk to run. While it has one, what the window holds begins
with the symbol of that node. `consume_cases` says everything that moving along the chain can do.
-/
namespace Rewind

structure Input (σ : Type) where
  symbols : List σ
  start : Position

namespace Input

variable {σ : Type}

def first (input : Input σ) : Stream σ := ⟨0, input.symbols[0]?, input.start⟩

variable [Symbol σ]

/-- The node after a node. The end of the input comes after itself. -/
def next (input : Input σ) (s : Stream σ) : Except Fault (Stream σ) :=
  match s.current with
  | none => .ok s
  | some symbol =>
    let following := input.symbols[s.node + 1]?
    match Stream.Step.target ⟨symbol, s.position⟩ following with
    | .ok position => .ok ⟨s.node + 1, following, position⟩
    | .error fault => .error fault

/-- The node so many steps from the first. -/
def place (input : Input σ) : Nat → Except Fault (Stream σ)
  | 0 => .ok input.first
  | i + 1 =>
    match input.place i with
    | .ok s => input.next s
    | .error fault => .error fault

/-- The stream is a node of the input. -/
def Has (input : Input σ) (s : Stream σ) : Prop := input.place s.node = .ok s

variable {input : Input σ} {s t : Stream σ}

theorem has_first (input : Input σ) : input.Has input.first := rfl

theorem place_succ {i : Nat} (h : input.place i = .ok s) : input.place (i + 1) = input.next s := by
  rw [place, h]

theorem next_end (h : s.current = none) : input.next s = .ok s := by
  rw [next, h]

theorem next_some {symbol : σ} (h : s.current = some symbol) (found : input.next s = .ok t) :
    t.node = s.node + 1 ∧ t.current = input.symbols[s.node + 1]? := by
  rw [next, h] at found
  dsimp only at found
  split at found
  · cases found
    exact ⟨rfl, rfl⟩
  · cases found

theorem place_spec {i : Nat} (h : input.place i = .ok s) :
    s.node = min i input.symbols.length ∧ s.current = input.symbols[s.node]? ∧ input.Has s := by
  induction i generalizing s with
  | zero =>
    cases h
    exact ⟨(Nat.zero_min _).symm, rfl, rfl⟩
  | succ i ih =>
    cases hbefore : input.place i with
    | error fault =>
      rw [place, hbefore] at h
      cases h
    | ok before =>
      obtain ⟨hnode, hcurrent, hhas⟩ := ih hbefore
      rw [place_succ hbefore] at h
      cases hsymbol : before.current with
      | none =>
        rw [next_end hsymbol] at h
        cases h
        rw [hsymbol] at hcurrent
        have := List.getElem?_eq_none_iff.mp hcurrent.symm
        exact ⟨by omega, by rw [hsymbol, hcurrent], hhas⟩
      | some symbol =>
        obtain ⟨hsucc, hfollowing⟩ := next_some hsymbol h
        rw [hsymbol] at hcurrent
        obtain ⟨hlt, -⟩ := List.getElem?_eq_some_iff.mp hcurrent.symm
        refine ⟨by omega, by rw [hsucc, hfollowing], ?_⟩
        rw [Has, hsucc, place_succ hhas]
        exact h

theorem Has.node_le (h : input.Has s) : s.node ≤ input.symbols.length := by
  have hnode := (place_spec h).1
  omega

theorem Has.current_eq (h : input.Has s) : s.current = input.symbols[s.node]? := (place_spec h).2.1

theorem Has.next (h : input.Has s) (found : input.next s = .ok t) : input.Has t :=
  (place_spec ((place_succ h).trans found)).2.2

/-- There is one node at each place. -/
theorem Has.eq_of_node (hs : input.Has s) (ht : input.Has t) (h : s.node = t.node) : s = t := by
  rw [Has, h, show input.place t.node = .ok t from ht] at hs
  exact (Except.ok.inj hs).symm

end Input

variable {τ σ : Type}

/-- The cell of a stream whose successor nobody has asked for. The end of the input has its
successor from the start. -/
def Stream.cell (s : Stream σ) : Cell (Stream.Step σ) (Stream σ) :=
  match s.current with
  | some symbol => .pending ⟨symbol, s.position⟩
  | none => .ready s

namespace Window

variable [Source τ σ] {left : τ → List σ → Prop} {w : Window τ σ} {x : List σ}

/-- The window after one step along the chain. -/
def stride (w : Window τ σ) : Window τ σ := (((w.look 2).2.pass 1).look 1).2

/-- The window after so many steps from where the input was opened. -/
def walk (w : Window τ σ) : Nat → Window τ σ
  | 0 => (w.look 1).2
  | count + 1 => (w.walk count).stride

/-- A symbol is passed once the one after it has been looked at. -/
theorem look_pass_holds (serves : Serves left) (h : w.Holds left x) (some_left : 1 ≤ x.length) :
    ((w.look 2).2.pass 1).Holds left (x.drop 1) := by
  obtain ⟨hseen, hreached, -⟩ := look_holds serves h 2
  have hone : (w.look 2).2.Reached 1 := hreached.imp id fun hdeep => by omega
  exact pass_holds hseen (hone.le_buffered hseen some_left)

theorem stride_holds (serves : Serves left) (h : w.Holds left x) (some_left : 1 ≤ x.length) :
    w.stride.Holds left (x.drop 1) ∧ w.stride.capacity ≤ max w.capacity 2 := by
  have hpassed := look_pass_holds serves h some_left
  obtain ⟨hseen, -, hnarrow⟩ := look_holds serves hpassed 1
  obtain ⟨-, -, hwide⟩ := look_holds serves h 2
  have hkept : ((w.look 2).2.pass 1).capacity = (w.look 2).2.capacity := rfl
  refine ⟨hseen, ?_⟩
  rw [stride]
  omega

/-- So many steps leave the list without so many symbols, and the window no wider than it
was, or two wide. -/
theorem walk_holds (serves : Serves left) (h : w.Holds left x) {count : Nat}
    (le : count ≤ x.length) :
    (w.walk count).Holds left (x.drop count) ∧ (w.walk count).capacity ≤ max w.capacity 2 := by
  induction count with
  | zero =>
    obtain ⟨hseen, -, hnarrow⟩ := look_holds serves h 1
    refine ⟨hseen, ?_⟩
    rw [walk]
    omega
  | succ count ih =>
    obtain ⟨hholds, hnarrow⟩ := ih (by omega)
    obtain ⟨hstride, hwide⟩ := stride_holds serves hholds (by rw [List.length_drop]; omega)
    rw [List.drop_drop] at hstride
    refine ⟨hstride, ?_⟩
    rw [walk]
    omega

end Window

namespace Chain

/-- The chain has found the nodes of the input up to `last`. -/
structure Reaches [Symbol σ] (left : τ → List σ → Prop) (input : Input σ) (c : Chain τ σ)
    (last : Stream σ) :
    Prop where
  has_last : input.Has last
  size_eq : c.successors.size = last.node + 1
  behind : ∀ i < last.node, ∃ t, input.place (i + 1) = .ok t ∧ c.successors[i]? = some (.ready t)
  /-- The thunk of the last node has not run, or it has and met a fault. -/
  frontier : c.successors[last.node]? = some last.cell ∧
  c.window.Holds left (input.symbols.drop last.node) ∨
    c.successors[last.node]? = some .spent ∧ ∃ fault, input.next last = .error fault

/-- The successor of the stream is there. -/
def Knows (c : Chain τ σ) (s next : Stream σ) : Prop := c.successors[s.node]? = some (.ready next)

variable {left : τ → List σ → Prop}

theorem extend_eq [Source τ σ] (c : Chain τ σ) (position : Position) :
    c.extend position = (⟨c.successors.size, (c.window.look 1).1, position⟩, ⟨(c.window.look 1).2,
      c.successors.push (Stream.cell ⟨c.successors.size, (c.window.look 1).1, position⟩)⟩) := by
  unfold extend Stream.cell
  cases c.window.look 1 with
  | mk current window => cases current <;> rfl

variable [Source τ σ] [Symbol σ]

/-- Opening the input finds its first node. -/
theorem reaches_ofWindow (serves : Serves left) {input : Input σ} {window : Window τ σ}
    (h : window.Holds left input.symbols) : (ofWindow window input.start).1 = input.first ∧
      (ofWindow window input.start).2.Reaches left input input.first ∧
      (ofWindow window input.start).2.window = (window.look 1).2 := by
  have hlook : (window.look 1).1 = input.symbols[0]? := Window.look_eq serves h (Nat.le_refl 1)
  rw [ofWindow, extend_eq]
  dsimp only
  rw [hlook]
  refine ⟨rfl, ⟨rfl, rfl, ?_, Or.inl ⟨rfl, ?_⟩⟩, rfl⟩
  · intro i hi
    exact absurd hi (Nat.not_lt_zero i)
  · exact (Window.look_holds serves h 1).1

omit [Source τ σ] in
theorem note_reaches {input : Input σ} {c : Chain τ σ} {last : Stream σ}
    (h : c.Reaches left input last) (notice : Notice) :
    (c.note notice).Reaches left input last := by
  refine ⟨h.has_last, h.size_eq, h.behind, ?_⟩
  rcases h.frontier with ⟨hcell, hholds⟩ | hspent
  · exact Or.inl ⟨hcell, Window.note_holds hholds notice⟩
  · exact Or.inr hspent

/-- The thunk of a node, run while the window stands on its symbol. -/
theorem advance_cases (serves : Serves left) {input : Input σ} {c : Chain τ σ} {s : Stream σ}
    {symbol : σ} (hs : input.Has s) (hsize : c.successors.size = s.node + 1)
    (hcurrent : s.current = some symbol)
    (hholds : c.window.Holds left (input.symbols.drop s.node)) :
    (∃ t, c.advance ⟨symbol, s.position⟩ = (.ok t, ⟨c.window.stride, c.successors.push t.cell⟩) ∧
      input.next s = .ok t ∧ c.window.stride.Holds left (input.symbols.drop t.node)) ∨
    ∃ fault window, c.advance ⟨symbol, s.position⟩ = (.error fault, ⟨window, c.successors⟩) ∧
      input.next s = .error fault := by
  obtain ⟨hlt, -⟩ := List.getElem?_eq_some_iff.mp (hs.current_eq.symm.trans hcurrent)
  have hfollowing : (c.window.look 2).1 = input.symbols[s.node + 1]? := by
    rw [Window.look_eq serves hholds (by omega), List.getElem?_drop]
  have hpassed : ((c.window.look 2).2.pass 1).Holds left (input.symbols.drop (s.node + 1)) := by
    rw [← List.drop_drop]
    exact Window.look_pass_holds serves hholds (by rw [List.length_drop]; omega)
  have hfresh : (((c.window.look 2).2.pass 1).look 1).1 = input.symbols[s.node + 1]? := by
    rw [Window.look_eq serves hpassed (Nat.le_refl 1), List.getElem?_drop]
  rw [advance, Input.next, hcurrent]
  dsimp only
  rw [hfollowing]
  cases htarget : Stream.Step.target ⟨symbol, s.position⟩ input.symbols[s.node + 1]? with
  | error fault => exact Or.inr ⟨fault, _, rfl, rfl⟩
  | ok position =>
    refine Or.inl ⟨_, ?_, rfl, (Window.look_holds serves hpassed 1).1⟩
    dsimp only
    rw [extend_eq]
    dsimp only
    rw [hfresh, hsize]
    rfl

theorem consume_of_knows {c : Chain τ σ} {s next : Stream σ} (h : c.Knows s next) :
    c.consume s = (.ok next, c) := by
  rw [consume, Array.getD_eq_getD_getElem?, h]
  rfl

/-- Where the thunk is gone there is nothing to be had. -/
theorem consume_of_spent {c : Chain τ σ} {s : Stream σ}
    (h : c.successors.getD s.node .spent = .spent) :
    c.consume s = (.error .forcedWhileComputing, c) := by
  rw [consume, h]
  rfl

/-- The thunk runs while its cell is spent, and its result goes into the cell. -/
theorem consume_of_pending {c : Chain τ σ} {s : Stream σ} {step : Stream.Step σ}
    (h : c.successors[s.node]? = some (.pending step)) :
    c.consume s =
      match advance ⟨c.window, c.successors.setIfInBounds s.node .spent⟩ step with
      | (.error fault, c) => (.error fault, c)
      | (.ok next, c) =>
        (.ok next, ⟨c.window, c.successors.setIfInBounds s.node (.ready next)⟩) := by
  rw [consume, Array.getD_eq_getD_getElem?, h]
  rfl

omit [Source τ σ] [Symbol σ] in
/-- A stream has its successor, or a thunk for it, or the thunk is gone. -/
theorem successor_cases (c : Chain τ σ) (s : Stream σ) :
    (∃ t, c.Knows s t) ∨ (∃ step, c.successors[s.node]? = some (.pending step)) ∨
      c.successors.getD s.node .spent = .spent := by
  cases hcell : c.successors[s.node]? with
  | none => simp [hcell]
  | some cell =>
    cases cell with
    | ready t => exact Or.inl ⟨t, hcell⟩
    | pending step => simp
    | spent => simp [hcell]

omit [Source τ σ] [Symbol σ] in
/-- The cells after a cell has been emptied, a cell been added and the first been filled. -/
theorem getElem?_filled {θ γ : Type} {cells : Array (Cell θ γ)} {i : Nat} (hi : i < cells.size)
    (added filled : Cell θ γ) (k : Nat) :
    (((cells.setIfInBounds i .spent).push added).setIfInBounds i filled)[k]? =
      if k = i then some filled else if k = cells.size then some added else cells[k]? := by
  by_cases hk : k = i
  · rw [if_pos hk, hk, Array.getElem?_setIfInBounds_self_of_lt]
    rw [Array.size_push, Array.size_setIfInBounds]
    omega
  · rw [if_neg hk, Array.getElem?_setIfInBounds_ne (fun h => hk h.symm), Array.getElem?_push,
      Array.size_setIfInBounds, Array.getElem?_setIfInBounds_ne (fun h => hk h.symm)]

/-- Moving along finds a node that is known, or adds the one after the last, or stops at a fault. -/
theorem consume_cases (serves : Serves left) {input : Input σ} {c : Chain τ σ} {last : Stream σ}
    (h : c.Reaches left input last) (s : Stream σ) :
    (∃ t, c.consume s = (.ok t, c) ∧ input.place (s.node + 1) = .ok t ∧ t.node ≤ last.node) ∨
    (∃ t found, c.consume s = (.ok t, found) ∧ input.place (s.node + 1) = .ok t ∧
      s.node = last.node ∧
      t.node = last.node + 1 ∧ found.Reaches left input t ∧ found.window = c.window.stride) ∨
    ∃ fault broken, c.consume s = (.error fault, broken) ∧ broken.Reaches left input last := by
  have hsize := h.size_eq
  rcases Nat.lt_trichotomy s.node last.node with hlt | heq | hgt
  -- Behind the last node the successor is there.
  · obtain ⟨t, hplace, hcell⟩ := h.behind s.node hlt
    have hnode := (Input.place_spec hplace).1
    exact Or.inl ⟨t, consume_of_knows hcell, hplace, by omega⟩
  -- At the last node the thunk runs, unless it met a fault before or this is the end.
  · have hplace : input.place (s.node + 1) = input.next last := by
      rw [heq]
      exact Input.place_succ h.has_last
    rcases h.frontier with ⟨hcell, hholds⟩ | ⟨hcell, -⟩
    · cases hcurrent : last.current with
      | none =>
        have hready : last.cell = .ready last := by rw [Stream.cell, hcurrent]
        rw [hready, ← heq] at hcell
        rw [Input.next_end hcurrent] at hplace
        exact Or.inl ⟨last, consume_of_knows hcell, hplace, Nat.le_refl _⟩
      | some symbol =>
        have hpending : last.cell = .pending ⟨symbol, last.position⟩ := by
          rw [Stream.cell, hcurrent]
        rw [hpending, ← heq] at hcell
        have hlast : last.node < c.successors.size := by omega
        rw [consume_of_pending hcell, hplace, heq]
        have hemptied : (c.successors.setIfInBounds last.node .spent).size = last.node + 1 := by
          rw [Array.size_setIfInBounds, hsize]
        rcases advance_cases serves (c := ⟨c.window, c.successors.setIfInBounds last.node .spent⟩)
          h.has_last hemptied
          hcurrent hholds with ⟨t, hadvance, hnext, hwindow⟩ | ⟨fault, window, hadvance, hnext⟩
        · rw [hadvance]
          have hnode := (Input.next_some hcurrent hnext).1
          refine Or.inr
            (Or.inl ⟨t, _, rfl, hnext, rfl, hnode, ⟨h.has_last.next hnext, ?_, ?_, ?_⟩, rfl⟩)
          · rw [Array.size_setIfInBounds, Array.size_push, hemptied, hnode]
          · intro i hi
            dsimp only
            rw [getElem?_filled hlast]
            by_cases hbehind : i < last.node
            · obtain ⟨u, hu, hknown⟩ := h.behind i hbehind
              refine ⟨u, hu, ?_⟩
              rw [if_neg (by omega), if_neg (by omega)]
              exact hknown
            · have hi : i = last.node := by omega
              rw [if_pos hi, hi]
              exact ⟨t, (Input.place_succ h.has_last).trans hnext, rfl⟩
          · refine Or.inl ⟨?_, hwindow⟩
            dsimp only
            rw [getElem?_filled hlast, if_neg (by omega), if_pos (by omega)]
        · rw [hadvance]
          refine Or.inr
            (Or.inr ⟨fault, _, rfl, h.has_last, hemptied, ?_, Or.inr ⟨?_, fault, hnext⟩⟩)
          · intro i hi
            obtain ⟨u, hu, hknown⟩ := h.behind i hi
            refine ⟨u, hu, ?_⟩
            rw [Array.getElem?_setIfInBounds_ne (by omega)]
            exact hknown
          · exact Array.getElem?_setIfInBounds_self_of_lt hlast
    · refine Or.inr (Or.inr ⟨_, c, consume_of_spent ?_, h⟩)
      rw [heq, Array.getD_eq_getD_getElem?, hcell]
      rfl
  -- Beyond it there is no cell at all.
  · refine Or.inr (Or.inr ⟨_, c, consume_of_spent ?_, h⟩)
    rw [Array.getD_eq_getD_getElem?, Array.getElem?_eq_none (by omega)]
    rfl

/-- Where the input has a next node, moving along finds it. -/
theorem consume_found (serves : Serves left) {input : Input σ} {c : Chain τ σ} {last s t : Stream σ}
    (h : c.Reaches left input last) (le : s.node ≤ last.node)
    (next : input.place (s.node + 1) = .ok t) :
    (c.consume s = (.ok t, c) ∧ t.node ≤ last.node) ∨
    ∃ found, c.consume s = (.ok t, found) ∧ s.node = last.node ∧ t.node = last.node + 1 ∧
      found.Reaches left input t := by
  rcases consume_cases serves h s with ⟨u, hconsume, hplace, hle⟩ |
    ⟨u, found, hconsume, hplace, hlast, hnode, hfound, -⟩ | ⟨fault, broken, hconsume, -⟩
  · cases hplace.symm.trans next
    exact Or.inl ⟨hconsume, hle⟩
  · cases hplace.symm.trans next
    exact Or.inr ⟨found, hconsume, hlast, hnode, hfound⟩
  -- A fault contradicts the next node.
  · exfalso
    rcases Nat.lt_or_eq_of_le le with hlt | heq
    · obtain ⟨u, -, hcell⟩ := h.behind s.node hlt
      cases hconsume.symm.trans (consume_of_knows hcell)
    · rw [heq, Input.place_succ h.has_last] at next
      rcases h.frontier with ⟨hcell, hholds⟩ | ⟨-, fault, hnext⟩
      · cases hcurrent : last.current with
        | none =>
          rw [Stream.cell, hcurrent, ← heq] at hcell
          cases hconsume.symm.trans (consume_of_knows hcell)
        | some symbol =>
          rw [Stream.cell, hcurrent, ← heq] at hcell
          have hsize : (c.successors.setIfInBounds s.node .spent).size = last.node + 1 := by
            rw [Array.size_setIfInBounds, h.size_eq]
          rw [consume_of_pending hcell] at hconsume
          rcases advance_cases serves (c := ⟨c.window, c.successors.setIfInBounds s.node .spent⟩)
            h.has_last hsize
            hcurrent hholds with ⟨u, hadvance, -, -⟩ | ⟨fault, window, -, hnext⟩
          · rw [hadvance] at hconsume
            cases hconsume
          · cases hnext.symm.trans next
      · cases hnext.symm.trans next

/-- Only a coordinate can stop a thunk. -/
theorem target_error {step : Stream.Step σ} {following : Option σ} {fault : Fault}
    (h : step.target following = .error fault) : fault = .addOverflow := by
  rw [Stream.Step.target, Position.nextLine, Position.nextColumn] at h
  split at h
  · split at h <;> cases h
    rfl
  · split at h <;> cases h
    rfl

theorem advance_ok {c found : Chain τ σ} {step : Stream.Step σ} {t : Stream σ}
    (h : c.advance step = (.ok t, found)) :
    t.node = c.successors.size ∧ found.successors = c.successors.push t.cell := by
  rw [advance] at h
  dsimp only at h
  cases htarget : step.target (c.window.look 2).1 with
  | error fault =>
    rw [htarget] at h
    cases h
  | ok position =>
    rw [htarget] at h
    dsimp only at h
    rw [extend_eq] at h
    cases h
    exact ⟨rfl, rfl⟩

theorem advance_error {c broken : Chain τ σ} {step : Stream.Step σ} {fault : Fault}
    (h : c.advance step = (.error fault, broken)) : fault = .addOverflow := by
  rw [advance] at h
  dsimp only at h
  cases htarget : step.target (c.window.look 2).1 with
  | error reason =>
    rw [htarget] at h
    cases h
    exact target_error htarget
  | ok position =>
    rw [htarget] at h
    cases h

/-- A node that is new has a thunk of its own, which has not run. -/
theorem consume_new {c found : Chain τ σ} {s t : Stream σ} (h : c.consume s = (.ok t, found)) :
    found = c ∨ found.successors[t.node]? = some t.cell := by
  rcases c.successor_cases s with ⟨next, knows⟩ | ⟨step, hpending⟩ | hspent
  · rw [consume_of_knows knows] at h
    cases h
    exact Or.inl rfl
  · rw [consume_of_pending hpending] at h
    cases hadvance : advance ⟨c.window, c.successors.setIfInBounds s.node .spent⟩ step with
    | mk answer after =>
      rw [hadvance] at h
      cases answer with
      | error fault => cases h
      | ok next =>
        cases h
        obtain ⟨hnode, hcells⟩ := advance_ok hadvance
        obtain ⟨hlt, -⟩ := Array.getElem?_eq_some_iff.mp hpending
        rw [Array.size_setIfInBounds] at hnode
        dsimp only at hcells ⊢
        rw [hcells, getElem?_filled hlt, if_neg (by omega), if_pos hnode]
        exact Or.inr rfl
  · rw [consume_of_spent hspent] at h
    cases h

/-- Moving along stops where a thunk is gone, or where a coordinate would leave the word. -/
theorem consume_fault {c broken : Chain τ σ} {s : Stream σ} {fault : Fault}
    (h : c.consume s = (.error fault, broken)) :
    fault = .addOverflow ∨ fault = .forcedWhileComputing ∧
    c.successors.getD s.node .spent = .spent := by
  cases hcell : c.successors.getD s.node .spent with
  | ready next =>
    rw [consume, hcell] at h
    cases h
  | spent =>
    rw [consume_of_spent hcell] at h
    cases h
    exact Or.inr ⟨rfl, rfl⟩
  | pending step =>
    rw [consume, hcell] at h
    dsimp only [Cell.demand] at h
    cases hadvance : advance ⟨c.window, c.successors.setIfInBounds s.node .spent⟩ step with
    | mk answer after =>
      rw [hadvance] at h
      cases answer with
      | error reason =>
        cases h
        exact Or.inl (advance_error hadvance)
      | ok next => cases h

end Chain

namespace Run

variable [Source τ σ] [Symbol σ] {ε : Type} {session : Session τ σ ε} {s : Stream σ}
  {after : Chain τ σ}

theorem consume_ok {next : Stream σ} (h : session.chain.consume s = (.ok next, after)) :
    Run.consume s session = .ok next ⟨after, session.events⟩ := by
  rw [Run.consume, h]

theorem consume_error {fault : Fault} (h : session.chain.consume s = (.error fault, after)) :
    Run.consume s session = .error (.fault fault) ⟨after, session.events⟩ := by
  rw [Run.consume, h]

theorem consume_eq_ok {next : Stream σ} {final : Session τ σ ε}
    (h : Run.consume s session = .ok next final) :
    session.chain.consume s = (.ok next, final.chain) := by
  cases hconsume : session.chain.consume s with
  | mk answer after =>
    cases answer with
    | ok t =>
      rw [consume_ok hconsume] at h
      cases h
      rfl
    | error fault =>
      rw [consume_error hconsume] at h
      cases h

end Run
end Rewind
