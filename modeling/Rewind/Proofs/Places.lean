import Rewind.Proofs.Residual

/-!
# Places

Where a node of an input is found depends on the text before it alone. `Input.position` adds up the
steps to it with no bound on the coordinates. As long as these fit into words, the chain leads to
that place whatever the source and the window before it (`consumeTimes_eq`).

The main theorem says the same without any steps. Write each line end of the text before a node as
one line feed: the line of the node is told by how many there are, its column by what comes after
the last of them (`place_by_line_ends`).
-/
namespace Rewind

variable {τ σ : Type} [Symbol σ]

namespace Symbol

@[simp] theorem isLineFeed_eq (a : σ) : isLineFeed a = decide (a = lineFeed) := rfl

@[simp] theorem isCarriageReturn_eq (a : σ) : isCarriageReturn a = decide (a = carriageReturn) :=
  rfl

end Symbol

namespace Position

/-- Each coordinate is a word. -/
def Fits (p : Position) : Prop := p.line < wordLimit ∧ p.column < wordLimit ∧ p.index < wordLimit

instance (p : Position) : Decidable p.Fits := inferInstanceAs (Decidable (_ ∧ _ ∧ _))

/-- The position after a symbol, given the symbol that follows. -/
def past (p : Position) (a : σ) (following : Option σ) : Position :=
  if (Stream.Step.mk a p).endsLine following then ⟨p.line + 1, 1, p.index + 1⟩
    else ⟨p.line, p.column + 1, p.index + 1⟩

theorem past_index (p : Position) (a : σ) (following : Option σ) :
    (p.past a following).index = p.index + 1 := by
  rw [past]
  split <;> rfl

/-- A line feed ends a line, and a carriage return that no line feed follows. -/
theorem past_end {p : Position} {a : σ} {following : Option σ}
    (ends : a = Symbol.lineFeed ∨ a = Symbol.carriageReturn ∧ following ≠ some Symbol.lineFeed) :
    p.past a following = ⟨p.line + 1, 1, p.index + 1⟩ := by
  rw [past, if_pos]
  rcases ends with rfl | ⟨rfl, hfollowing⟩
  · simp [Stream.Step.endsLine]
  · cases following <;> simp_all [Stream.Step.endsLine]

theorem past_within {p : Position} {a : σ} {following : Option σ} (feed : a ≠ Symbol.lineFeed)
    (pair : a = Symbol.carriageReturn → following = some Symbol.lineFeed) :
    p.past a following = ⟨p.line, p.column + 1, p.index + 1⟩ := by
  rw [past, if_neg]
  by_cases hreturn : a = Symbol.carriageReturn
  · simp [Stream.Step.endsLine, pair hreturn, feed]
  · simp [Stream.Step.endsLine, hreturn, feed]

theorem target_eq {p : Position} {a : σ} {following : Option σ} (fits : (p.past a following).Fits) :
    (Stream.Step.mk a p).target following = .ok (p.past a following) := by
  obtain ⟨hline, hcolumn, hindex⟩ := fits
  rw [past] at hline hcolumn hindex ⊢
  rw [Stream.Step.target]
  split at hline
  · simp_all [nextLine]
  · simp_all [nextColumn]

/-- A step that is taken leads to the position after the symbol. -/
theorem past_of_target {p q : Position} {a : σ} {following : Option σ}
    (taken : (Stream.Step.mk a p).target following = .ok q) : q = p.past a following := by
  rw [Stream.Step.target, nextLine, nextColumn] at taken
  rw [past]
  split at taken <;> split at taken <;> simp_all

end Position

namespace Input

/-- The position of a place, however far the coordinates go. -/
def position (input : Input σ) : Nat → Position
  | 0 => input.start
  | i + 1 =>
    match input.symbols[i]? with
    | some a => (input.position i).past a input.symbols[i + 1]?
    | none => input.position i

/-- The stream at a place. -/
def node (input : Input σ) (i : Nat) : Stream σ := ⟨i, input.symbols[i]?, input.position i⟩

variable {input : Input σ} {i : Nat}

theorem position_succ {a : σ} (h : input.symbols[i]? = some a) :
    input.position (i + 1) = (input.position i).past a input.symbols[i + 1]? := by
  rw [position, h]

theorem position_index (le : i ≤ input.symbols.length) :
    (input.position i).index = input.start.index + i := by
  induction i with
  | zero => rfl
  | succ i ih =>
    obtain ⟨a, ha⟩ : ∃ a, input.symbols[i]? = some a := ⟨_, List.getElem?_eq_getElem (by omega)⟩
    rw [position_succ ha, Position.past_index, ih (by omega)]
    omega

theorem place_eq (le : i ≤ input.symbols.length) (fits : ∀ k ≤ i, (input.position k).Fits) :
    input.place i = .ok (input.node i) := by
  induction i with
  | zero => rfl
  | succ i ih =>
    obtain ⟨a, ha⟩ : ∃ a, input.symbols[i]? = some a := ⟨_, List.getElem?_eq_getElem (by omega)⟩
    have hbefore := ih (by omega) fun k hk => fits k (by omega)
    have hfits := fits (i + 1) (by omega)
    rw [position_succ ha] at hfits
    rw [place_succ hbefore, next]
    dsimp only [node]
    rw [ha]
    dsimp only
    rw [Position.target_eq hfits, position_succ ha]

/-- Where the steps from the first node lead, they lead to the node at the place. -/
theorem eq_node_of_place {s : Stream σ} (h : input.place i = .ok s)
    (le : i ≤ input.symbols.length) :
    s = input.node i := by
  induction i generalizing s with
  | zero =>
    cases h
    rfl
  | succ i ih =>
    obtain ⟨a, ha⟩ : ∃ a, input.symbols[i]? = some a := ⟨_, List.getElem?_eq_getElem (by omega)⟩
    cases hbefore : input.place i with
    | error fault => simp [place, hbefore] at h
    | ok before =>
      obtain rfl := ih hbefore (by omega)
      rw [place_succ hbefore, next] at h
      simp only [node, ha] at h
      split at h
      · rename_i position htarget
        cases h
        rw [node, position_succ ha, Position.past_of_target htarget]
      · cases h

theorem Has.eq_node {s : Stream σ} (h : input.Has s) : s = input.node s.node :=
  eq_node_of_place h h.node_le

end Input

/-- From its opening a chain leads to each place, as long as the coordinates fit. -/
theorem Chain.consumeTimes_eq [Source τ σ] {left : τ → List σ → Prop} (serves : Serves left)
    {input : Input σ} {window : Window τ σ} (h : window.Holds left input.symbols) {i : Nat}
    (le : i ≤ input.symbols.length) (fits : ∀ k ≤ i, (input.position k).Fits) :
    ∃ chain, (ofWindow window input.start).2.consumeTimes (ofWindow window input.start).1 i =
      (.ok (input.node i), chain) ∧ chain.Reaches left input (input.node i) := by
  obtain ⟨hfirst, hreaches, -⟩ := reaches_ofWindow serves h
  induction i with
  | zero =>
    rw [hfirst]
    exact ⟨_, rfl, hreaches⟩
  | succ i ih =>
    obtain ⟨chain, hwalked, hlast⟩ := ih (by omega) fun k hk => fits k (by omega)
    have hplace : input.place (i + 1) = .ok (input.node (i + 1)) := Input.place_eq le fits
    rcases consume_found serves hlast (s := input.node i) (Nat.le_refl i) hplace with
      ⟨-, hle⟩ | ⟨found, hconsume, -, -, hfound⟩
    · exact absurd hle (Nat.not_succ_le_self i)
    · refine ⟨found, ?_, hfound⟩
      rw [consumeTimes, hwalked]
      exact hconsume

/-! ## Line ends -/

/-- The text with a line feed for each carriage return and line feed that follow each other. -/
def pairsJoined : List σ → List σ
  | a :: b :: rest =>
    if Symbol.isCarriageReturn a && Symbol.isLineFeed b then Symbol.lineFeed :: pairsJoined rest
    else a :: pairsJoined (b :: rest)
  | x => x

/-- The text with a line feed for each of its line ends. -/
def lineFeeds (x : List σ) : List σ :=
  (pairsJoined x).map fun a => if Symbol.isCarriageReturn a then Symbol.lineFeed else a

/-- The line after a text whose lines end with line feeds. -/
def Position.lineAfter (start : Position) (x : List σ) : Nat := start.line + x.count Symbol.lineFeed

/-- The column after a text whose lines end with line feeds. -/
def Position.columnAfter (start : Position) (x : List σ) : Nat :=
  if x.contains Symbol.lineFeed then 1 + (x.reverse.takeWhile (· ≠ Symbol.lineFeed)).length
    else start.column + x.length

/-- The place is between a carriage return and a line feed. -/
def Input.SplitsPair (input : Input σ) (i : Nat) : Prop :=
  ∃ k, i = k + 1 ∧ input.symbols[k]? = some Symbol.carriageReturn ∧
  input.symbols[i]? = some Symbol.lineFeed

theorem pairsJoined_append {x y : List σ}
    (whole : ¬ (x.getLast? = some Symbol.carriageReturn ∧ y.head? = some Symbol.lineFeed)) :
    pairsJoined (x ++ y) = pairsJoined x ++ pairsJoined y := by
  fun_induction pairsJoined x with
  | case1 a b rest pair ih =>
    have hrest : pairsJoined (rest ++ y) = pairsJoined rest ++ pairsJoined y := by
      cases rest with
      | nil => rfl
      | cons c rest => exact ih (by simpa using whole)
    simp only [List.cons_append, pairsJoined, if_pos pair, hrest]
  | case2 a b rest pair ih =>
    have hrest := ih (by simpa using whole)
    simp only [List.cons_append] at hrest ⊢
    rw [pairsJoined, if_neg pair, hrest]
  | case3 x short =>
    match x, y with
    | [], y => rfl
    | [a], [] => rfl
    | [a], b :: rest =>
      have hpair : ¬ (Symbol.isCarriageReturn a && Symbol.isLineFeed b) = true := by
        simpa using whole
      rw [List.singleton_append, pairsJoined, if_neg hpair]
      rfl
    | a :: b :: rest, y => exact absurd rfl (short a b rest)

theorem lineFeeds_append {x y : List σ}
    (whole : ¬ (x.getLast? = some Symbol.carriageReturn ∧ y.head? = some Symbol.lineFeed)) :
    lineFeeds (x ++ y) = lineFeeds x ++ lineFeeds y := by
  rw [lineFeeds, pairsJoined_append whole, List.map_append, ← lineFeeds, ← lineFeeds]

theorem lineFeeds_pair :
    lineFeeds [Symbol.carriageReturn, Symbol.lineFeed] = [(Symbol.lineFeed : σ)] := by
  simp [lineFeeds, pairsJoined]

theorem lineFeeds_end {a : σ} (ends : a = Symbol.lineFeed ∨ a = Symbol.carriageReturn) :
    lineFeeds [a] = [Symbol.lineFeed] := by
  rcases ends with rfl | rfl <;> simp [lineFeeds, pairsJoined]

theorem lineFeeds_other {a : σ} (ret : a ≠ Symbol.carriageReturn) : lineFeeds [a] = [a] := by
  simp [lineFeeds, pairsJoined, ret]

namespace Position

variable (start : Position) (x : List σ)

theorem lineAfter_feed : start.lineAfter (x ++ [Symbol.lineFeed]) = start.lineAfter x + 1 := by
  simp [lineAfter]
  omega

theorem columnAfter_eq : start.columnAfter x =
    if Symbol.lineFeed ∈ x then 1 + (x.reverse.takeWhile (· ≠ Symbol.lineFeed)).length
      else start.column + x.length := by
  simp only [columnAfter, List.contains_iff_mem]

theorem columnAfter_feed : start.columnAfter (x ++ [(Symbol.lineFeed : σ)]) = 1 := by
  simp [columnAfter]

theorem lineAfter_plain {a : σ} (feed : a ≠ Symbol.lineFeed) :
    start.lineAfter (x ++ [a]) = start.lineAfter x := by
  simp [lineAfter, feed]

theorem columnAfter_plain {a : σ} (feed : a ≠ Symbol.lineFeed) :
    start.columnAfter (x ++ [a]) = start.columnAfter x + 1 := by
  by_cases hmem : Symbol.lineFeed ∈ x <;> simp [columnAfter, hmem, feed, feed.symm] <;> omega

end Position

namespace Input

variable {input : Input σ} {i : Nat}

/-- Between a carriage return and its line feed the line goes on. -/
theorem position_in_pair (split : input.SplitsPair (i + 1)) : ¬ input.SplitsPair i ∧
    input.position (i + 1) =
      ⟨(input.position i).line, (input.position i).column + 1, (input.position i).index + 1⟩ := by
  obtain ⟨k, hk, hreturn, hfeed⟩ := split
  obtain rfl : i = k := by omega
  constructor
  · rintro ⟨j, rfl, -, hother⟩
    rw [hreturn] at hother
    exact Symbol.lineFeed_ne_carriageReturn (Option.some.inj hother).symm
  · rw [position_succ hreturn, Position.past_within Symbol.lineFeed_ne_carriageReturn.symm fun _ =>
      hfeed]

/-- A prefix that ends outside of a pair is not cut within one. -/
theorem take_whole {a : σ} (ha : input.symbols[i]? = some a) (whole : ¬ input.SplitsPair i) :
    ¬ ((input.symbols.take i).getLast? = some Symbol.carriageReturn ∧
      [a].head? = some Symbol.lineFeed) := by
  rintro ⟨hlast, hfeed⟩
  cases i with
  | zero => simp at hlast
  | succ k =>
    obtain ⟨hlt, -⟩ := List.getElem?_eq_some_iff.mp ha
    refine whole ⟨k, rfl, ?_, ha.trans hfeed⟩
    rwa [List.getLast?_take, if_neg (Nat.succ_ne_zero k), Nat.add_sub_cancel,
      List.getElem?_eq_getElem (by omega), Option.some_or, ← List.getElem?_eq_getElem] at hlast

/-- Outside of pairs the text before a place tells its line and its column. -/
theorem position_by_line_ends (le : i ≤ input.symbols.length) (whole : ¬ input.SplitsPair i) :
    (input.position i).line = input.start.lineAfter (lineFeeds (input.symbols.take i)) ∧
      (input.position i).column = input.start.columnAfter (lineFeeds (input.symbols.take i)) := by
  induction i using Nat.strongRecOn with
  | ind i ih =>
    cases i with
    | zero => simp [position, lineFeeds, pairsJoined, Position.lineAfter, Position.columnAfter]
    | succ i =>
      obtain ⟨a, ha⟩ : ∃ a, input.symbols[i]? = some a := ⟨_, List.getElem?_eq_getElem (by omega)⟩
      have htake : input.symbols.take (i + 1) = input.symbols.take i ++ [a] := by
        rw [List.take_add_one, ha, Option.toList_some]
      have hpair : a = Symbol.carriageReturn → input.symbols[i + 1]? ≠ some Symbol.lineFeed := by
        rintro rfl hfeed
        exact whole ⟨i, rfl, ha, hfeed⟩
      by_cases hsplit : input.SplitsPair i
      -- The line feed of a pair: the two together are one line feed after the text before them.
      · obtain ⟨k, rfl, hreturn, hfeed⟩ := hsplit
        obtain ⟨hwhole, hbefore⟩ := position_in_pair ⟨k, rfl, hreturn, hfeed⟩
        obtain ⟨hline, hcolumn⟩ := ih k (by omega) (by omega) hwhole
        obtain rfl : a = Symbol.lineFeed := Option.some.inj (ha.symm.trans hfeed)
        have hcut : input.symbols.take k ++ [Symbol.carriageReturn] ++ [Symbol.lineFeed] =
            input.symbols.take k ++ [Symbol.carriageReturn, Symbol.lineFeed] := by simp
        have htwo : ¬ ((input.symbols.take k).getLast? = some Symbol.carriageReturn ∧
            [Symbol.carriageReturn, Symbol.lineFeed].head? = some (Symbol.lineFeed : σ)) := by
          simp [Symbol.lineFeed_ne_carriageReturn.symm]
        rw [htake, List.take_add_one, hreturn, Option.toList_some, hcut, lineFeeds_append htwo,
          lineFeeds_pair,
          Position.lineAfter_feed, Position.columnAfter_feed, position_succ ha,
            Position.past_end (Or.inl rfl), hbefore,
          ← hline]
        exact ⟨rfl, rfl⟩
      · obtain ⟨hline, hcolumn⟩ := ih i (by omega) (by omega) hsplit
        rw [htake, lineFeeds_append (take_whole ha hsplit), position_succ ha]
        by_cases hends : a = Symbol.lineFeed ∨ a = Symbol.carriageReturn
        · rw [Position.past_end (hends.imp id fun hreturn => ⟨hreturn, hpair hreturn⟩),
            lineFeeds_end hends,
            Position.lineAfter_feed, Position.columnAfter_feed, hline]
          exact ⟨rfl, rfl⟩
        · obtain ⟨hfeed, hreturn⟩ := not_or.mp hends
          rw [Position.past_within hfeed fun h => absurd h hreturn, lineFeeds_other hreturn,
            Position.lineAfter_plain _ _ hfeed, Position.columnAfter_plain _ _ hfeed,
              hline, hcolumn]
          exact ⟨rfl, rfl⟩

end Input

/-- Whatever the source, its pieces and the room in the window: so many steps from where the input
was opened lead to the symbol at that place, with an index that is greater by as many. Write each
carriage return and line feed that follow each other, and then each carriage return that is left, as
a line feed in the text before the place: there is a new line for each line feed, and a column for
each symbol after the last of them. Between a carriage return and its line feed the place is one
column after the one before it. -/
theorem place_by_line_ends [Source τ σ] {source : τ} {capacity : Nat} {window : Window τ σ}
    (input : Input σ) (honest : Honest source input.symbols)
    (opened : Window.withCapacity source capacity = .ok window) {i : Nat}
    (le : i ≤ input.symbols.length) (fits : ∀ k ≤ i, (input.position k).Fits) :
    let first := (Chain.ofWindow window input.start).1
    let chain := (Chain.ofWindow window input.start).2
    ∃ s, (chain.consumeTimes first i).1 = .ok s ∧ s.current = input.symbols[i]? ∧
      s.position.index = input.start.index + i ∧
      (¬ input.SplitsPair i →
        let text := lineFeeds (input.symbols.take i)
        s.position.line = input.start.line + text.count Symbol.lineFeed ∧
        s.position.column = if Symbol.lineFeed ∈ text then 1 +
          (text.reverse.takeWhile (· ≠ Symbol.lineFeed)).length
          else input.start.column + text.length) ∧
      (input.SplitsPair i → ∃ before, (chain.consumeTimes first (i - 1)).1 = .ok before ∧
        s.position.line = before.position.line ∧
        s.position.column = before.position.column + 1) := by
  intro first chain
  have hholds : window.Holds Honest input.symbols := Window.holds_withCapacity opened honest
  have reached : ∀ k ≤ i, (chain.consumeTimes first k).1 = .ok (input.node k) := by
    intro k hk
    obtain ⟨after, hwalked, -⟩ := Chain.consumeTimes_eq serves_honest hholds (i := k) (by omega)
      fun j hj => fits j (by omega)
    exact congrArg Prod.fst hwalked
  refine ⟨input.node i, reached i (Nat.le_refl i), rfl, Input.position_index le, ?_, ?_⟩
  · intro unsplit text
    rw [← Position.columnAfter_eq]
    exact Input.position_by_line_ends le unsplit
  · intro split
    obtain ⟨k, rfl, -⟩ := id split
    obtain ⟨-, hposition⟩ := Input.position_in_pair split
    refine ⟨input.node k, reached k (Nat.le_succ k), ?_⟩
    dsimp only [Input.node]
    rw [hposition]
    exact ⟨rfl, rfl⟩

/-- A text with all three line ends in pieces that part a carriage return from its line feed,
opened with room for one symbol away from the start of a line: the last place, and the one within
the first pair. -/
theorem place_by_line_ends_pieces :
    let input : Input Char := ⟨['a', '\r', '\n', '\r', '\r', '\n', 'b', '\n', 'c'], ⟨3, 7, 5⟩⟩
    let window : Window (Pieces Char) Char :=
      ⟨Pieces.mk [['a', '\r'], ['\n', '\r', '\r'], ['\n', 'b', '\n', 'c']], #[], 0, 1, false, #[]⟩
    let first := (Chain.ofWindow window input.start).1
    let chain := (Chain.ofWindow window input.start).2
    (∃ s, (chain.consumeTimes first 9).1 = .ok s ∧ s.current = none ∧ s.position.index = 14 ∧
      s.position.line = 7 ∧
      s.position.column = 2) ∧
    ∃ s before, (chain.consumeTimes first 2).1 = .ok s ∧
    (chain.consumeTimes first 1).1 = .ok before ∧
      s.position.line = before.position.line ∧ s.position.column = before.position.column + 1 := by
  intro input window first chain
  have honest : Honest (Pieces.mk [['a', '\r'], ['\n', '\r', '\r'], ['\n', 'b', '\n', 'c']])
      input.symbols :=
    honest_pieces (by decide)
  have opened :
      Window.withCapacity (Pieces.mk [['a', '\r'], ['\n', '\r', '\r'], ['\n', 'b', '\n', 'c']]) 0 =
      .ok window := rfl
  constructor
  · obtain ⟨s, hreached, hcurrent, hindex, houtside, -⟩ :=
      place_by_line_ends input honest opened (i := 9) (by decide) (by decide +kernel)
    have hwhole : ¬ input.SplitsPair 9 := by
      rintro ⟨k, hk, hreturn, hfeed⟩
      cases hfeed
    obtain ⟨hline, hcolumn⟩ := houtside hwhole
    exact ⟨s, hreached, hcurrent, hindex, hline, hcolumn⟩
  · obtain ⟨s, hreached, -, -, -, hwithin⟩ :=
      place_by_line_ends input honest opened (i := 2) (by decide) (by decide +kernel)
    obtain ⟨before, hbefore, hline, hcolumn⟩ := hwithin ⟨1, rfl, rfl, rfl⟩
    exact ⟨s, before, hreached, hbefore, hline, hcolumn⟩

end Rewind
