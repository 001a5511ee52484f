import Rewind.Window

/-!
# Honest sources and the window before them

A source is honest for a list when it hands the list out in order, in pieces of any size, and then
says that there is nothing left. A window before such a source holds a list: the symbols that it
has staged and not yet passed, followed by those that the source still has. Looking ahead finds
the symbols of that list and leaves it as it is (`look_eq`, `look_holds`); passing symbols drops
them (`pass_holds`).
-/
namespace Rewind

variable {τ σ : Type} [Source τ σ]

/-- `left source x` may say of a source that `x` is what it still has: each pull hands out a piece
of that, at least one symbol while there is one. -/
def Serves (left : τ → List σ → Prop) : Prop :=
  ∀ source x, left source x → ∀ max, 1 ≤ max →
    ∃ n, n ≤ max ∧ (x ≠ [] → 1 ≤ n) ∧ (Source.pull source max).symbols = x.take n ∧
      left (Source.pull source max).source (x.drop n)

/-- Whatever the sizes of the pulls, the source hands out `x` and then no more. -/
def Honest (source : τ) (x : List σ) : Prop :=
  ∃ left : τ → List σ → Prop, Serves left ∧ left source x

theorem serves_honest : Serves (Honest : τ → List σ → Prop) := by
  rintro source x ⟨left, serves, h⟩ max hmax
  obtain ⟨n, hn, hsome, hsymbols, hleft⟩ := serves source x h max hmax
  exact ⟨n, hn, hsome, hsymbols, left, serves, hleft⟩

theorem honest_queue (symbols : List σ) : Honest (Queue.mk symbols) symbols := by
  refine ⟨fun queue x => queue.symbols = x, ?_, rfl⟩
  rintro queue x rfl max hmax
  exact ⟨max, Nat.le_refl _, fun _ => hmax, rfl, rfl⟩

theorem honest_pieces {pieces : List (List σ)} (nonempty : ∀ piece ∈ pieces, piece ≠ []) :
    Honest (Pieces.mk pieces) pieces.flatten := by
  refine ⟨fun s x => s.pieces.flatten = x ∧ ∀ piece ∈ s.pieces, piece ≠ [], ?_, rfl, nonempty⟩
  rintro ⟨pieces⟩ x ⟨rfl, hne⟩ max hmax
  have hpull : Source.pull (Pieces.mk pieces) max = (Pieces.mk pieces).pull max := rfl
  rw [hpull, Pieces.pull, if_neg (by omega)]
  cases pieces with
  | nil => exact ⟨0, by omega, fun h => absurd rfl h, rfl, rfl, hne⟩
  | cons piece rest =>
    have hpiece : 1 ≤ piece.length := List.length_pos_iff.mpr (hne piece List.mem_cons_self)
    have hrest : ∀ p ∈ rest, p ≠ [] := fun p hp => hne p (List.mem_cons_of_mem piece hp)
    refine ⟨min max piece.length, Nat.min_le_left _ _, fun _ =>
      Nat.le_min.mpr ⟨hmax, hpiece⟩, ?_, ?_, ?_⟩
    · dsimp only
      rw [List.flatten_cons, List.take_append_of_le_length (Nat.min_le_right _ _),
        List.take_eq_take_min]
    · dsimp only
      rw [List.flatten_cons, List.drop_append_of_le_length (Nat.min_le_right _ _)]
      by_cases h : (piece.drop max).isEmpty = true
      · have hle : piece.length ≤ max := List.drop_eq_nil_iff.mp (List.isEmpty_iff.mp h)
        rw [if_pos h, Nat.min_eq_right hle, List.drop_length, List.nil_append]
      · have hlt : max ≤ piece.length := by
          rcases Nat.le_total max piece.length with hle | hle
          · exact hle
          · exact absurd (List.isEmpty_iff.mpr (List.drop_eq_nil_iff.mpr hle)) h
        rw [if_neg h, Nat.min_eq_left hlt, List.flatten_cons]
    · dsimp only
      intro p hp
      by_cases h : (piece.drop max).isEmpty = true
      · rw [if_pos h] at hp
        exact hrest p hp
      · rw [if_neg h] at hp
        rcases List.mem_cons.mp hp with rfl | hp
        · exact fun hnil => h (List.isEmpty_iff.mpr hnil)
        · exact hrest p hp

namespace Window

/-- The symbols that are staged and not yet passed. -/
def unread (w : Window τ σ) : List σ := w.staged.toList.drop w.cursor

/-- The window holds `x`: what is unread in it and what the source has left make up `x`. -/
structure Holds (left : τ → List σ → Prop) (w : Window τ σ) (x : List σ) : Prop where
  cursor_le : w.cursor ≤ w.staged.size
  size_le : w.staged.size ≤ w.capacity
  split : ∃ rest, x = w.unread ++ rest ∧ left w.source rest ∧ (w.exhausted = true → rest = [])

/-- So many symbols are staged, or all that there are. -/
def Reached (w : Window τ σ) (depth : Nat) : Prop := w.exhausted = true ∨ depth ≤ w.buffered

variable {left : τ → List σ → Prop} {w : Window τ σ} {x : List σ}

section

omit [Source τ σ]

theorem length_unread (w : Window τ σ) : w.unread.length = w.buffered := by
  rw [unread, List.length_drop, Array.length_toList, buffered]

theorem buffered_of_cursor (h : w.cursor = 0) : w.buffered = w.staged.size := by
  rw [buffered, h, Nat.sub_zero]

/-- A window is opened if there is storage for it, and then it is empty. -/
theorem withCapacity_eq_ok [Stored σ] {source : τ} {capacity : Nat} :
    withCapacity source capacity = .ok w ↔ HasStorage σ (max leastCapacity capacity) ∧
      w = ⟨source, #[], 0, max leastCapacity capacity, false, #[]⟩ := by
  by_cases storage : HasStorage σ (max leastCapacity capacity)
  · simp [withCapacity, storage, eq_comm]
  · simp [withCapacity, storage]

theorem holds_withCapacity [Stored σ] {source : τ} {capacity : Nat}
    (opened : withCapacity source capacity = .ok w) (h : left source x) : w.Holds left x := by
  obtain ⟨-, rfl⟩ := withCapacity_eq_ok.mp opened
  exact ⟨Nat.le_refl _, Nat.zero_le _, x, rfl, h, fun exhausted => nomatch exhausted⟩

theorem capacity_withCapacity [Stored σ] {source : τ} {capacity : Nat}
    (opened : withCapacity source capacity = .ok w) : w.capacity = max leastCapacity capacity := by
  obtain ⟨-, rfl⟩ := withCapacity_eq_ok.mp opened
  rfl

theorem Holds.length_unread_le (h : w.Holds left x) : w.unread.length ≤ w.capacity := by
  rw [length_unread]
  exact Nat.le_trans (Nat.sub_le _ _) h.size_le

theorem note_holds (h : w.Holds left x) (notice : Notice) : (w.note notice).Holds left x :=
  ⟨h.cursor_le, h.size_le, h.split⟩

theorem compact_cursor (w : Window τ σ) : w.compact.cursor = 0 := by
  by_cases hcursor : w.cursor = 0 <;> simp [compact, hcursor]

theorem compact_kept (w : Window τ σ) :
    w.compact.source = w.source ∧ w.compact.exhausted = w.exhausted ∧
    w.compact.capacity = w.capacity := by
  by_cases hcursor : w.cursor = 0 <;> simp [compact, hcursor]

theorem unread_compact (w : Window τ σ) : w.compact.unread = w.unread := by
  by_cases hcursor : w.cursor = 0
  · rw [compact, if_pos hcursor]
  · rw [compact, if_neg hcursor]
    simp only [unread, Array.toList_extract, List.extract_eq_take_drop, List.drop_zero]
    exact List.take_of_length_le (Nat.le_of_eq (by rw [List.length_drop, Array.length_toList]))

theorem size_compact_le (w : Window τ σ) : w.compact.staged.size ≤ w.staged.size := by
  rw [← buffered_of_cursor w.compact_cursor, ← length_unread, unread_compact, length_unread]
  exact Nat.sub_le _ _

theorem compact_holds (h : w.Holds left x) : w.compact.Holds left x := by
  have hsize := w.size_compact_le
  obtain ⟨hsource, hexhausted, hcapacity⟩ := w.compact_kept
  constructor
  · simp [compact_cursor]
  · have hle := h.size_le
    omega
  · rw [unread_compact, hsource, hexhausted]
    exact h.split

theorem widen_kept (w : Window τ σ) (depth : Nat) :
    (w.widen depth).source = w.source ∧ (w.widen depth).exhausted = w.exhausted ∧
      (w.widen depth).cursor = w.cursor ∧ (w.widen depth).staged = w.staged := by
  by_cases hdepth : w.capacity < depth <;> simp [widen, note, hdepth]

theorem widen_capacity (w : Window τ σ) (depth : Nat) :
    (w.widen depth).capacity = max w.capacity depth := by
  by_cases hdepth : w.capacity < depth
  · simp [widen, hdepth]
    omega
  · simp [widen, hdepth]
    omega

theorem widen_holds (h : w.Holds left x) (depth : Nat) : (w.widen depth).Holds left x := by
  obtain ⟨hsource, hexhausted, hcursor, hstaged⟩ := w.widen_kept depth
  constructor
  · rw [hcursor, hstaged]
    exact h.cursor_le
  · have hle := h.size_le
    rw [hstaged, widen_capacity]
    omega
  · rw [unread, hsource, hexhausted, hcursor, hstaged]
    exact h.split

theorem pass_holds (h : w.Holds left x) {count : Nat} (le : count ≤ w.buffered) :
    (w.pass count).Holds left (x.drop count) := by
  have hcursor := h.cursor_le
  have hpassed : (w.pass count).cursor = w.cursor + count :=
    Nat.min_eq_left (by rw [buffered] at le; omega)
  obtain ⟨rest, rfl, hrest, hexhausted⟩ := h.split
  refine ⟨Nat.min_le_right _ _, h.size_le, rest, ?_, hrest, hexhausted⟩
  rw [List.drop_append_of_le_length (by rw [length_unread]; exact le), unread, unread, hpassed,
    List.drop_drop]
  rfl

end

/-- A pull into a window with room brings a symbol, or is the last. -/
theorem pullOnce_holds (serves : Serves left) (h : w.Holds left x) (cursor : w.cursor = 0)
    (room : w.staged.size < w.capacity) :
    w.pullOnce.Holds left x ∧
    (w.pullOnce.exhausted = true ∨ w.staged.size < w.pullOnce.staged.size) := by
  obtain ⟨rest, hx, hrest, hover⟩ := h.split
  obtain ⟨n, hn, hsome, hsymbols, hleft⟩ :=
    serves w.source rest hrest (w.capacity - w.staged.size) (by omega)
  have hpulled := Source.length_pull_le w.source (w.capacity - w.staged.size)
  rw [unread, cursor, List.drop_zero] at hx
  rw [pullOnce]
  generalize Source.pull w.source (w.capacity - w.staged.size) = p at hsymbols hleft hpulled ⊢
  dsimp only
  by_cases hempty : p.symbols.isEmpty = true
  · rw [if_pos hempty]
    have hnil : p.symbols = [] := List.isEmpty_iff.mp hempty
    have hdone : rest = [] := by
      cases rest with
      | nil => rfl
      | cons a rest =>
        have hlength := congrArg List.length hsymbols
        have := hsome (List.cons_ne_nil _ _)
        rw [hnil, List.length_take, List.length_cons, List.length_nil] at hlength
        omega
    refine ⟨⟨?_, ?_, [], ?_, ?_, fun _ => rfl⟩, Or.inl rfl⟩
    · rw [hnil]
      exact h.cursor_le
    · rw [hnil]
      exact h.size_le
    · rw [hx, hdone, hnil, unread, note, cursor]
      simp
    · rw [hdone, List.drop_nil] at hleft
      exact hleft
  · rw [if_neg hempty]
    have hgrown : 1 ≤ p.symbols.length := List.length_pos_iff.mpr fun hnil =>
      hempty (List.isEmpty_iff.mpr hnil)
    have hsize : (w.staged ++ p.symbols.toArray).size = w.staged.size + p.symbols.length := by
      simp only [Array.size_append, List.size_toArray]
    refine ⟨⟨?_, ?_, rest.drop n, ?_, hleft, fun exhausted => ?_⟩, Or.inr ?_⟩
    · rw [cursor]
      exact Nat.zero_le _
    · rw [hsize]
      dsimp only
      omega
    · rw [hx, unread, cursor, hsymbols, List.drop_zero, Array.toList_append, List.append_assoc,
        List.take_append_drop]
    · rw [hover exhausted, List.drop_nil]
    · rw [hsize]
      omega

theorem pullOnce_cursor (w : Window τ σ) : w.pullOnce.cursor = w.cursor := by
  simp only [pullOnce]
  split <;> rfl

theorem pullOnce_capacity (w : Window τ σ) : w.pullOnce.capacity = w.capacity := by
  simp only [pullOnce]
  split <;> rfl

/-- As many rounds as symbols are missing are enough. -/
theorem fill_holds (serves : Serves left) {depth rounds : Nat} (h : w.Holds left x)
    (cursor : w.cursor = 0) (wide : depth ≤ w.capacity) (enough : depth ≤ w.staged.size + rounds) :
    (w.fill depth rounds).Holds left x ∧ (w.fill depth rounds).Reached depth ∧
      (w.fill depth rounds).capacity = w.capacity := by
  induction rounds generalizing w with
  | zero =>
    refine ⟨h, Or.inr ?_, rfl⟩
    rw [fill, buffered_of_cursor cursor]
    exact enough
  | succ rounds ih =>
    rw [fill]
    by_cases hdone : w.exhausted = true
    · rw [if_pos (by rw [hdone, Bool.true_or])]
      exact ⟨h, Or.inl hdone, rfl⟩
    by_cases hdeep : depth ≤ w.staged.size
    · rw [if_pos (by rw [decide_eq_true hdeep, Bool.or_true]), Reached, buffered_of_cursor cursor]
      exact ⟨h, Or.inr hdeep, rfl⟩
    rw [if_neg (by rw [decide_eq_false hdeep, Bool.or_false]; exact hdone)]
    obtain ⟨hpulled, hgrown⟩ := pullOnce_holds serves h cursor (by omega)
    have hcapacity := w.pullOnce_capacity
    have hcursor : w.pullOnce.cursor = 0 := by rw [pullOnce_cursor, cursor]
    rcases hgrown with hlast | hgrown
    · have hfilled : fill depth rounds w.pullOnce = w.pullOnce := by
        cases rounds with
        | zero => rfl
        | succ rounds => rw [fill, if_pos (by rw [hlast, Bool.true_or])]
      rw [hfilled]
      exact ⟨hpulled, Or.inl hlast, hcapacity⟩
    · rw [← hcapacity]
      exact ih hpulled hcursor (by omega) (by omega)

theorem ensure_holds (serves : Serves left) (h : w.Holds left x) (depth : Nat) :
    (w.ensure depth).Holds left x ∧ (w.ensure depth).Reached depth ∧
      (w.ensure depth).capacity ≤ max w.capacity depth := by
  rw [ensure]
  by_cases hdeep : depth ≤ w.buffered
  · rw [if_pos hdeep]
    exact ⟨h, Or.inr hdeep, Nat.le_max_left _ _⟩
  · rw [if_neg hdeep]
    have hcapacity : (w.compact.widen depth).capacity = max w.capacity depth := by
      rw [widen_capacity, w.compact_kept.2.2]
    have hcursor : (w.compact.widen depth).cursor = 0 := by
      rw [(w.compact.widen_kept depth).2.2.1, compact_cursor]
    have hwide : depth ≤ (w.compact.widen depth).capacity := by
      rw [hcapacity]
      exact Nat.le_max_right _ _
    obtain ⟨hfilled, hreached, hkept⟩ :=
      fill_holds serves (widen_holds (compact_holds h) depth) hcursor hwide
        (Nat.le_add_left depth _)
    exact ⟨hfilled, hreached, Nat.le_of_eq (hkept.trans hcapacity)⟩

/-- Looking ahead sees the list. -/
theorem look_eq (serves : Serves left) (h : w.Holds left x) {depth : Nat} (hdepth : 1 ≤ depth) :
    (w.look depth).1 = x[depth - 1]? := by
  obtain ⟨hholds, hreached, -⟩ := ensure_holds serves h depth
  rw [look]
  generalize w.ensure depth = w at hholds hreached ⊢
  obtain ⟨rest, rfl, -, hover⟩ := hholds.split
  have hunread : w.staged[w.cursor + depth - 1]? = w.unread[depth - 1]? := by
    rw [unread, List.getElem?_drop, Array.getElem?_toList, Nat.add_sub_assoc hdepth]
  change w.staged[w.cursor + depth - 1]? = _
  rw [hunread]
  rcases hreached with hdone | hdeep
  · rw [hover hdone, List.append_nil]
  · rw [List.getElem?_append_left (by rw [length_unread]; omega)]

theorem look_holds (serves : Serves left) (h : w.Holds left x) (depth : Nat) :
    (w.look depth).2.Holds left x ∧ (w.look depth).2.Reached depth ∧
      (w.look depth).2.capacity ≤ max w.capacity depth :=
  ensure_holds serves h depth

omit [Source τ σ] in
/-- A symbol that was seen is there to be passed. -/
theorem Reached.le_buffered (h : w.Holds left x) {depth : Nat} (reached : w.Reached depth)
    (le : depth ≤ x.length) :
    depth ≤ w.buffered := by
  rcases reached with hdone | hdeep
  · obtain ⟨rest, rfl, -, hover⟩ := h.split
    rwa [hover hdone, List.append_nil, length_unread] at le
  · exact hdeep

end Window
end Rewind
