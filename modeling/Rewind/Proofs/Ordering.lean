import Mathlib.Data.Prod.Lex
import Mathlib.Tactic.TFAE
import Rewind.Proofs.Exhaustion
import Rewind.Proofs.Places

/-!
# The order of positions

Positions are compared by their indices and nothing else, and they are equal only if their lines and
columns are equal too. For positions of all kinds these two do not go together. On the nodes of one
input they do: from each place to the next the index goes up, and so do line and column if the line
comes first (`Input.caret_lt`), past line ends of all kinds and within a pair. So the order is that
of the places on the page, and no two nodes share a position (`positions_ordered`).
-/
namespace Rewind

variable {τ σ ε : Type} [Symbol σ]

namespace Position

/-- Line and column, in the order of a page. -/
def caret (p : Position) : ℕ ×ₗ ℕ := toLex (p.line, p.column)

omit [Symbol σ] in
theorem make_eq_ok_iff {line column index : Nat} {p : Position} :
    make line column index = .ok p ↔ 1 ≤ line ∧ 1 ≤ column ∧ p = ⟨line, column, index⟩ := by
  rw [make]
  constructor
  · intro h
    split at h
    · cases h
    · split at h
      · cases h
      · cases h
        exact ⟨by omega, by omega, rfl⟩
  · rintro ⟨hline, hcolumn, rfl⟩
    rw [if_neg (by omega), if_neg (by omega)]

omit [Symbol σ] in
theorem compare_eq_iff {p q : Position} : compare p q = .eq ↔ p.index = q.index :=
  compare_eq_iff_eq (a := p.index) (b := q.index)

omit [Symbol σ] in
theorem compare_lt_iff {p q : Position} : compare p q = .lt ↔ p.index < q.index :=
  compare_lt_iff_lt (a := p.index) (b := q.index)

/-- A line end leads to a later line, and any other symbol to a later column of the line. -/
theorem caret_lt_past (p : Position) (a : σ) (following : Option σ) :
    p.caret < (p.past a following).caret := by
  rw [caret, caret, Prod.Lex.toLex_lt_toLex, past]
  split
  · exact Or.inl (Nat.lt_succ_self _)
  · exact Or.inr ⟨rfl, Nat.lt_succ_self _⟩

theorem past_valid {p : Position} (line : 1 ≤ p.line) (a : σ) (following : Option σ) :
    1 ≤ (p.past a following).line ∧ 1 ≤ (p.past a following).column := by
  rw [past]
  split
  · simp
  · simpa using line

end Position

namespace Input

variable {input : Input σ} {i j : Nat}

theorem caret_lt_succ (lt : i < input.symbols.length) :
    (input.position i).caret < (input.position (i + 1)).caret := by
  rw [position_succ (List.getElem?_eq_getElem lt)]
  exact Position.caret_lt_past ..

theorem caret_lt (lt : i < j) (le : j ≤ input.symbols.length) :
    (input.position i).caret < (input.position j).caret := by
  induction j with
  | zero => omega
  | succ j ih =>
    have hstep : (input.position j).caret < (input.position (j + 1)).caret :=
      caret_lt_succ (by omega)
    by_cases hij : i = j
    · rwa [hij]
    · exact lt_trans (ih (by omega) (by omega)) hstep

/-- Later places are those with greater positions. -/
theorem caret_lt_iff (hi : i ≤ input.symbols.length) (hj : j ≤ input.symbols.length) :
    (input.position i).caret < (input.position j).caret ↔ i < j := by
  constructor
  · intro h
    by_contra hle
    rcases Nat.lt_or_eq_of_le (Nat.le_of_not_lt hle) with hlt | rfl
    · exact lt_asymm h (caret_lt hlt hi)
    · exact lt_irrefl _ h
  · exact fun h => caret_lt h hj

theorem position_valid (line : 1 ≤ input.start.line) (column : 1 ≤ input.start.column) (i : Nat) :
    1 ≤ (input.position i).line ∧ 1 ≤ (input.position i).column := by
  induction i with
  | zero => exact ⟨line, column⟩
  | succ i ih =>
    rw [position]
    split
    · exact Position.past_valid ih.1 ..
    · exact ih

end Input

/-- Whatever the source, its pieces and the room in the window, and whatever was done to the chain:
two nodes are compared as equal exactly if their positions are equal in all coordinates, and exactly
if they are the same node. One comes before another exactly if its line and column do. Each node has
a line and a column that a position may be made of. -/
theorem positions_ordered [Source τ σ] {source : τ} {capacity : Nat} {window : Window τ σ}
    (input : Input σ) (honest : Honest source input.symbols)
    (opened : Window.withCapacity source capacity = .ok window) {line column index : Nat}
    (valid : Position.make line column index = .ok input.start) (history : List (Nat × Action σ ε))
    {s t : Stream σ}
    (hs : ((Visit.ofWindow window input.start).actAll history).session.chain.Node
      (Chain.ofWindow window input.start).1 s)
    (ht : ((Visit.ofWindow window input.start).actAll history).session.chain.Node
      (Chain.ofWindow window input.start).1 t) :
    [compare s.position t.position = .eq, s.position = t.position, s.isSame t = true, s = t].TFAE ∧
      (compare s.position t.position = .lt ↔
        toLex (s.position.line, s.position.column) < toLex (t.position.line, t.position.column)) ∧
      1 ≤ s.position.line ∧ 1 ≤ s.position.column ∧
      Position.make s.position.line s.position.column s.position.index = .ok s.position := by
  obtain ⟨hline, hcolumn, hstart⟩ := Position.make_eq_ok_iff.mp valid
  have hfirst : 1 ≤ input.start.line ∧ 1 ≤ input.start.column := by
    rw [hstart]
    exact ⟨hline, hcolumn⟩
  obtain ⟨hsthere, -⟩ := Visit.has_of_history honest opened history hs
  obtain ⟨htthere, -⟩ := Visit.has_of_history honest opened history ht
  have hsposition : s.position = input.position s.node := congrArg Stream.position hsthere.eq_node
  have htposition : t.position = input.position t.node := congrArg Stream.position htthere.eq_node
  have hsindex : s.position.index = input.start.index + s.node := by
    rw [hsposition, Input.position_index hsthere.node_le]
  have htindex : t.position.index = input.start.index + t.node := by
    rw [htposition, Input.position_index htthere.node_le]
  obtain ⟨hsline, hscolumn⟩ := Input.position_valid hfirst.1 hfirst.2 s.node
  rw [← hsposition] at hsline hscolumn
  refine ⟨?_, ?_, hsline, hscolumn, Position.make_eq_ok_iff.mpr ⟨hsline, hscolumn, rfl⟩⟩
  · tfae_have 1 → 4 := by
      intro h
      have hindex := Position.compare_eq_iff.mp h
      exact hsthere.eq_of_node htthere (by omega)
    tfae_have 4 → 2 := congrArg Stream.position
    tfae_have 2 → 1 := fun h => Position.compare_eq_iff.mpr (congrArg Position.index h)
    tfae_have 3 ↔ 4 := by
      constructor
      · exact fun h => hsthere.eq_of_node htthere (by simpa [Stream.isSame] using h)
      · rintro rfl
        simp [Stream.isSame]
    tfae_finish
  · have hcarets := Input.caret_lt_iff hsthere.node_le htthere.node_le
    rw [← hsposition, ← htposition] at hcarets
    rw [Position.compare_lt_iff]
    constructor
    · exact fun h => hcarets.mpr (by omega)
    · intro h
      have hnode := hcarets.mp h
      omega

/-- A text whose middle pair is parted by its pieces, after all of it has been read: the line feed
of the pair stands on the line of the carriage return, and the letter after it at the beginning of
the next, with a lesser column. -/
theorem positions_ordered_pair :
    let input : Input Char := ⟨['a', '\r', '\n', 'b'], ⟨3, 7, 5⟩⟩
    let window : Window (Pieces Char) Char :=
      ⟨Pieces.mk [['a', '\r'], ['\n', 'b']], #[], 0, 1, false, #[]⟩
    let history : List (Nat × Action Char Unit) := [(0, .consume), (1, .consume), (2, .consume)]
    let chain := ((Visit.ofWindow window input.start).actAll history).session.chain
    let feed : Stream Char := ⟨2, some '\n', ⟨3, 9, 7⟩⟩
    let letter : Stream Char := ⟨3, some 'b', ⟨4, 1, 8⟩⟩
    chain.Node (Chain.ofWindow window input.start).1 feed ∧
    chain.Node (Chain.ofWindow window input.start).1 letter ∧
      compare feed.position letter.position = .lt ∧ toLex (3, 9) < toLex (4, 1) ∧
      Position.make 3 9 7 = .ok feed.position := by
  intro input window history chain feed letter
  have honest : Honest (Pieces.mk [['a', '\r'], ['\n', 'b']]) input.symbols :=
    honest_pieces (by decide)
  have opened : Window.withCapacity (Pieces.mk [['a', '\r'], ['\n', 'b']]) 1 = .ok window := rfl
  have valid : Position.make 3 7 5 = .ok input.start := rfl
  have nodes : ∀ s ∈ ((Visit.ofWindow window input.start).actAll history).held,
      chain.Node (Chain.ofWindow window input.start).1 s := by
    apply Visit.held_node (Chain.linked_ofWindow window input.start)
    · exact fun s hs => Or.inl (List.mem_singleton.mp hs)
    · simp [history, Action.Scriptless]
  have hfeed := nodes feed (by decide +kernel)
  have hletter := nodes letter (by decide +kernel)
  obtain ⟨-, hless, -, -, hmade⟩ :=
    positions_ordered input honest opened valid history hfeed hletter
  have hbefore : compare feed.position letter.position = .lt := by decide
  exact ⟨hfeed, hletter, hbefore, hless.mp hbefore, hmade⟩

end Rewind
