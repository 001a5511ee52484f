import Rewind.Notice
import Rewind.Symbol

/-!
Where symbols come from. A source hands out its symbols in order, some at a time, and never goes
back. Besides the interface this holds the sources that have all their symbols already, and a source
that keeps account of what it is asked for.
-/
namespace Rewind

/-- One answer of a source: the symbols handed out, what there is to report, and the
source after it. -/
structure Pull (τ σ : Type) where
  symbols : List σ
  notices : List Notice
  source : τ

/-- A pull that hands out no symbol says that there are none left. -/
class Source (τ : Type) (σ : outParam Type) where
  /-- Hands out at most the given number of symbols. -/
  pull : τ → Nat → Pull τ σ
  /-- At least the number of symbols still to come, so that reading to the end comes to an end. -/
  size : τ → Nat
  length_pull_le : ∀ s max, (pull s max).symbols.length ≤ max
  size_pull_le : ∀ s max, (pull s max).symbols.length + size (pull s max).source ≤ size s

variable {τ υ σ : Type}

instance [Source τ σ] [Source υ σ] : Source (τ ⊕ υ) σ where
  pull
    | .inl s, max => let p := Source.pull s max; ⟨p.symbols, p.notices, .inl p.source⟩
    | .inr s, max => let p := Source.pull s max; ⟨p.symbols, p.notices, .inr p.source⟩
  size
    | .inl s => Source.size s
    | .inr s => Source.size s
  length_pull_le
    | .inl s, max => Source.length_pull_le s max
    | .inr s, max => Source.length_pull_le s max
  size_pull_le
    | .inl s, max => Source.size_pull_le s max
    | .inr s, max => Source.size_pull_le s max

/-- All the symbols in one piece. -/
structure Queue (σ : Type) where
  symbols : List σ

instance : Source (Queue σ) σ where
  pull q max := ⟨q.symbols.take max, [], ⟨q.symbols.drop max⟩⟩
  size q := q.symbols.length
  length_pull_le q max := by
    rw [List.length_take]
    omega
  size_pull_le q max := by
    rw [List.length_take, List.length_drop]
    omega

/-- Symbols in pieces; no pull reaches past the end of a piece. An empty piece answers a pull with
no symbols, which is what the end looks like. -/
structure Pieces (σ : Type) where
  pieces : List (List σ)

namespace Pieces

def pull (s : Pieces σ) (max : Nat) : Pull (Pieces σ) σ :=
  if max = 0 then ⟨[], [], s⟩
  else
    match s.pieces with
    | [] => ⟨[], [], s⟩
    | piece :: rest =>
      let left := piece.drop max
      ⟨piece.take max, [], ⟨if left.isEmpty then rest else left :: rest⟩⟩

def size (s : Pieces σ) : Nat := s.pieces.flatten.length

theorem length_pull_le (s : Pieces σ) (max : Nat) : (s.pull max).symbols.length ≤ max := by
  unfold pull
  split
  · exact Nat.zero_le max
  · split
    · exact Nat.zero_le max
    · rw [List.length_take]
      omega

theorem size_pull_le (s : Pieces σ) (max : Nat) :
    (s.pull max).symbols.length + (s.pull max).source.size ≤ s.size := by
  unfold pull
  split
  · exact Nat.le_of_eq (Nat.zero_add _)
  · obtain ⟨pieces⟩ := s
    cases pieces with
    | nil => exact Nat.le_refl _
    | cons piece rest =>
      by_cases h : (piece.drop max).isEmpty = true
      · simp only [size, if_pos h, List.length_take, List.flatten_cons, List.length_append]
        omega
      · simp only [size, if_neg h, List.length_take, List.length_drop, List.flatten_cons,
          List.length_append]
        omega

instance : Source (Pieces σ) σ where
  pull := pull
  size := size
  length_pull_le := length_pull_le
  size_pull_le := size_pull_le

end Pieces

/-- A source with the account of its pulls: how many symbols each asked for and how many it got. -/
structure Metered (τ : Type) where
  source : τ
  calls : Array (Nat × Nat)

namespace Metered

def ofSource (source : τ) : Metered τ := ⟨source, #[]⟩

def symbolCount (m : Metered τ) : Nat := m.calls.foldl (fun n call => n + call.2) 0

instance [Source τ σ] : Source (Metered τ) σ where
  pull m max :=
    let p := Source.pull m.source max
    ⟨p.symbols, p.notices, ⟨p.source, m.calls.push (max, p.symbols.length)⟩⟩
  size m := Source.size m.source
  length_pull_le m max := Source.length_pull_le m.source max
  size_pull_le m max := Source.size_pull_le m.source max

end Metered
end Rewind
