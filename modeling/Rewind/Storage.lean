/-!
Storage. Values that are kept together stand in a row, where each takes as many bytes as any
other of its type. Storage for a row is reserved as a whole, and there is a limit to what
can be asked for.
-/
namespace Rewind

/-- The least number of bytes for which no storage can be reserved. -/
def storageLimit : Nat := 1 <<< 63

/-- Types whose values can be kept in a row. -/
class Stored (α : Type) where
  /-- The number of bytes that a value takes in a row. -/
  width : Nat
  width_lt : width < storageLimit

/-- That storage can be reserved for so many values. Values that take no bytes never lack it. -/
def HasStorage (α : Type) [Stored α] (count : Nat) : Prop := count * Stored.width α < storageLimit

instance {α : Type} [Stored α] {count : Nat} : Decidable (HasStorage α count) :=
  inferInstanceAs (Decidable (count * Stored.width α < storageLimit))

namespace HasStorage

variable {α : Type} [Stored α] {n m : Nat}

theorem mono (storage : HasStorage α m) (le : n ≤ m) : HasStorage α n :=
  Nat.lt_of_le_of_lt (Nat.mul_le_mul_right (Stored.width α) le) storage

theorem zero : HasStorage α 0 := by
  rw [HasStorage, Nat.zero_mul]
  decide

theorem one : HasStorage α 1 := by
  rw [HasStorage, Nat.one_mul]
  exact Stored.width_lt

end HasStorage

instance : Stored Unit := ⟨0, by decide⟩

instance : Stored UInt8 := ⟨1, by decide⟩

instance : Stored Char := ⟨4, by decide⟩

end Rewind
