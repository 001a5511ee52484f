import Mathlib.Data.List.Basic
import Rewind.Workspace

/-!
# Owners of declared parsers

What may be done to the names of a workspace, one thing after another (`Change`), makes no owner of
a parser from nothing. A parser that is owned after a change was owned before it, unless the change
declared it (`owned_of_apply`). What is owned is not dropped, and what has been defined is not
defined again. So a parser keeps its definition through every history at the end of which it is
still owned (`applyAll_keeps`).
-/
namespace Rewind

inductive Change (κ γ : Type) where
  | declare (name : κ)
  | handle (name copy : κ)
  | clone (name copy : κ)
  | drop (name : κ)
  /-- Defines what the name holds. The definition mentions these names, and owns what they own. -/
  | define (name : κ) (definition : γ) (mentioned : List κ)

namespace Workspace

variable {κ γ : Type} {w : Workspace κ γ} {slot : Nat}

theorem isOwned_iff : w.isOwned slot = true ↔
    (∃ entry ∈ w.names, entry.2.owned? = some slot) ∨ ∃ d ∈ w.declarations, slot ∈ d.owns := by
  rw [isOwned, Bool.or_eq_true, List.any_eq_true, List.any_eq_true]
  simp only [decide_eq_true_eq]

theorem lt_of_defined {definition : γ} (defined : w.slot slot = .defined definition) :
    slot < w.declarations.length := by
  apply Nat.lt_of_not_le
  intro hle
  rw [Workspace.slot, List.getElem?_eq_none hle] at defined
  cases defined

/-! ## Dropping what nobody owns -/

theorem dropUnowned_length (w : Workspace κ γ) :
    w.dropUnowned.declarations.length = w.declarations.length :=
  List.length_mapIdx

theorem dropUnowned_slot (owned : w.isOwned slot = true) :
    w.dropUnowned.slot slot = w.slot slot := by
  rw [Workspace.slot, Workspace.slot, dropUnowned, List.getElem?_mapIdx]
  cases w.declarations[slot]? with
  | none => rfl
  | some d => rw [Option.map_some, if_pos owned]

theorem owned_of_dropUnowned (owned : w.dropUnowned.isOwned slot = true) :
    w.isOwned slot = true := by
  rw [isOwned_iff] at owned ⊢
  rcases owned with hname | ⟨d, hmem, hslot⟩
  · exact Or.inl hname
  · obtain ⟨i, hi, rfl⟩ := List.mem_mapIdx.mp hmem
    split at hslot
    · exact Or.inr ⟨_, List.getElem_mem hi, hslot⟩
    · cases hslot

theorem dropAllUnowned_names (rounds : Nat) (w : Workspace κ γ) :
    (dropAllUnowned rounds w).names = w.names := by
  induction rounds generalizing w with
  | zero => rfl
  | succ rounds ih => exact ih w.dropUnowned

theorem dropAllUnowned_length (rounds : Nat) (w : Workspace κ γ) :
    (dropAllUnowned rounds w).declarations.length = w.declarations.length := by
  induction rounds generalizing w with
  | zero => rfl
  | succ rounds ih => exact (ih w.dropUnowned).trans w.dropUnowned_length

/-- What is still owned at the end was owned all along, and nothing has happened to it. -/
theorem dropAllUnowned_keeps (rounds : Nat)
    (owned : (dropAllUnowned rounds w).isOwned slot = true) :
    w.isOwned slot = true ∧ (dropAllUnowned rounds w).slot slot = w.slot slot := by
  induction rounds generalizing w with
  | zero => exact ⟨owned, rfl⟩
  | succ rounds ih =>
    obtain ⟨hdropped, hslot⟩ := ih owned
    have hbefore := owned_of_dropUnowned hdropped
    exact ⟨hbefore, hslot.trans (dropUnowned_slot hbefore)⟩

/-! ## What names hold -/

variable [DecidableEq κ] {name : κ} {holding : Option Holding}

theorem hold_length (w : Workspace κ γ) (name : κ) (holding : Option Holding) :
    (w.hold name holding).declarations.length = w.declarations.length :=
  dropAllUnowned_length _ _

/-- What is owned now has been owned before, or has just been given to the name. -/
theorem hold_keeps (owned : (w.hold name holding).isOwned slot = true) :
    (w.isOwned slot = true ∨ ∃ h, holding = some h ∧ h.owned? = some slot) ∧
      (w.hold name holding).slot slot = w.slot slot := by
  obtain ⟨hbefore, hslot⟩ := dropAllUnowned_keeps _ owned
  refine ⟨?_, hslot⟩
  rw [isOwned_iff] at hbefore ⊢
  rcases hbefore with ⟨entry, hmem, howned⟩ | hdefinition
  · rcases List.mem_append.mp hmem with hnew | hother
    · cases holding with
      | none => cases hnew
      | some h =>
        cases List.mem_singleton.mp hnew
        exact Or.inr ⟨h, rfl, howned⟩
    · exact Or.inl (Or.inl ⟨entry, (List.mem_filter.mp hother).1, howned⟩)
  · exact Or.inl (Or.inr hdefinition)

theorem owned_of_find? {h : Holding} (found : w.find? name = some h)
    (owned : h.owned? = some slot) :
    w.isOwned slot = true := by
  obtain ⟨before, after, hnames, -⟩ := List.lookup_eq_some_iff.mp found
  refine isOwned_iff.mpr (Or.inl ⟨(name, h), ?_, owned⟩)
  rw [hnames]
  exact List.mem_append_right _ List.mem_cons_self

theorem find?_hold (w : Workspace κ γ) (name : κ) (h : Holding) :
    (w.hold name (some h)).find? name = some h := by
  rw [find?, hold, collect, dropAllUnowned_names]
  exact List.lookup_cons_self

/-- The state of what a name holds. -/
def stateOf (w : Workspace κ γ) (name : κ) : Slot γ :=
  match w.find? name with
  | some holding => w.slot holding.slot
  | none => .undefined

/-! ## Changes -/

/-- A definition that is refused changes nothing. -/
def apply (w : Workspace κ γ) : Change κ γ → Workspace κ γ
  | .declare name => w.declare name
  | .handle name copy => w.handle name copy
  | .clone name copy => w.clone name copy
  | .drop name => w.drop name
  | .define name definition mentioned =>
    match w.find? name with
    | none => w
    | some holding =>
      match w.define holding.slot definition (w.ownedBy mentioned) with
      | .ok defined => defined
      | .error _ => w

def applyAll (w : Workspace κ γ) (changes : List (Change κ γ)) : Workspace κ γ :=
  changes.foldl apply w

omit [DecidableEq κ] in
theorem define_eq_ok {definition : γ} {owns : List Nat} {defined : Workspace κ γ}
    (h : w.define slot definition owns = .ok defined) :
    w.slot slot = .undefined ∧
      defined = { w with declarations := w.declarations.set slot ⟨.defined definition, owns⟩ } := by
  rw [define] at h
  split at h
  · rename_i hundefined
    cases h
    exact ⟨hundefined, rfl⟩
  · cases h

omit [DecidableEq κ] in
theorem define_undefined (definition : γ) (owns : List Nat) (undefined : w.slot slot = .undefined) :
    w.define slot definition owns =
      .ok { w with declarations := w.declarations.set slot ⟨.defined definition, owns⟩ } := by
  rw [define, undefined]

theorem apply_define (w : Workspace κ γ) (name : κ) (definition : γ) (mentioned : List κ) :
    w.apply (.define name definition mentioned) = w ∨
      ∃ target, w.slot target = .undefined ∧
        w.apply (.define name definition mentioned) =
          { w with
            declarations :=
              w.declarations.set target ⟨.defined definition, w.ownedBy mentioned⟩ } := by
  rw [apply]
  cases w.find? name with
  | none => exact Or.inl rfl
  | some holding =>
    dsimp only
    cases h : w.define holding.slot definition (w.ownedBy mentioned) with
    | error refusal => exact Or.inl rfl
    | ok defined =>
      obtain ⟨hundefined, rfl⟩ := define_eq_ok h
      exact Or.inr ⟨holding.slot, hundefined, rfl⟩

theorem length_le_apply (w : Workspace κ γ) (change : Change κ γ) :
    w.declarations.length ≤ (w.apply change).declarations.length := by
  cases change with
  | declare name =>
    refine Nat.le_trans ?_ (Nat.le_of_eq (hold_length _ _ _).symm)
    rw [List.length_append]
    exact Nat.le_add_right _ _
  | handle name copy => exact Nat.le_of_eq (hold_length _ _ _).symm
  | clone name copy => exact Nat.le_of_eq (hold_length _ _ _).symm
  | drop name => exact Nat.le_of_eq (hold_length _ _ _).symm
  | define name definition mentioned =>
    rcases w.apply_define name definition mentioned with h | ⟨target, -, h⟩
    · exact Nat.le_of_eq (by rw [h])
    · exact Nat.le_of_eq (by rw [h, List.length_set])

/-- What a definition owns, the names that it mentions owned before. -/
theorem owned_of_ownedBy {mentioned : List κ} (h : slot ∈ w.ownedBy mentioned) :
    w.isOwned slot = true := by
  obtain ⟨name, -, hname⟩ := List.mem_filterMap.mp h
  obtain ⟨holding, hfound, howned⟩ := Option.bind_eq_some_iff.mp hname
  exact owned_of_find? hfound howned

/-- A parser that was there before has its owners from owners that it had before. -/
theorem owned_of_apply (lt : slot < w.declarations.length) {change : Change κ γ}
    (owned : (w.apply change).isOwned slot = true) : w.isOwned slot = true := by
  cases change with
  | declare name =>
    rcases (hold_keeps owned).1 with h | ⟨h, hnew, howned⟩
    · rw [isOwned_iff] at h ⊢
      rcases h with hname | ⟨d, hmem, hslot⟩
      · exact Or.inl hname
      · rcases List.mem_append.mp hmem with hold | hnew
        · exact Or.inr ⟨d, hold, hslot⟩
        · cases List.mem_singleton.mp hnew
          cases hslot
    · cases hnew
      cases howned
      exact absurd lt (Nat.lt_irrefl _)
  | handle name copy =>
    rcases (hold_keeps owned).1 with h | ⟨h, hnew, howned⟩
    · exact h
    · obtain ⟨source, -, rfl⟩ := Option.map_eq_some_iff.mp hnew
      cases howned
  | clone name copy =>
    rcases (hold_keeps owned).1 with h | ⟨h, hnew, howned⟩
    · exact h
    · exact owned_of_find? hnew howned
  | drop name =>
    rcases (hold_keeps owned).1 with h | ⟨h, hnew, -⟩
    · exact h
    · cases hnew
  | define name definition mentioned =>
    rcases w.apply_define name definition mentioned with h | ⟨target, -, h⟩
    · rwa [h] at owned
    · rw [h, isOwned_iff] at owned
      rcases owned with hname | ⟨d, hmem, hslot⟩
      · exact isOwned_iff.mpr (Or.inl hname)
      · rcases List.mem_or_eq_of_mem_set hmem with hold | rfl
        · exact isOwned_iff.mpr (Or.inr ⟨d, hold, hslot⟩)
        · exact owned_of_ownedBy hslot

/-- What is still owned keeps its definition. -/
theorem apply_keeps {definition : γ} (defined : w.slot slot = .defined definition)
    {change : Change κ γ} (owned : (w.apply change).isOwned slot = true) :
    (w.apply change).slot slot = .defined definition := by
  cases change with
  | declare name =>
    rw [apply, declare, (hold_keeps owned).2, ← defined, Workspace.slot, Workspace.slot,
      List.getElem?_append_left (lt_of_defined defined)]
  | handle name copy => exact (hold_keeps owned).2.trans defined
  | clone name copy => exact (hold_keeps owned).2.trans defined
  | drop name => exact (hold_keeps owned).2.trans defined
  | define name other mentioned =>
    rcases w.apply_define name other mentioned with h | ⟨target, hundefined, h⟩
    · rw [h, defined]
    · have hne : target ≠ slot := by
        rintro rfl
        cases hundefined.symm.trans defined
      rw [h, ← defined, Workspace.slot, Workspace.slot, List.getElem?_set_ne hne]

theorem owned_of_applyAll (lt : slot < w.declarations.length) {changes : List (Change κ γ)}
    (owned : (w.applyAll changes).isOwned slot = true) : w.isOwned slot = true := by
  induction changes generalizing w with
  | nil => exact owned
  | cons change rest ih =>
    exact owned_of_apply lt (ih (Nat.lt_of_lt_of_le lt (w.length_le_apply change)) owned)

/-- A parser that is owned in the end has the definition that it was given, whatever was
done in between. -/
theorem applyAll_keeps {definition : γ} (defined : w.slot slot = .defined definition)
    {changes : List (Change κ γ)} (owned : (w.applyAll changes).isOwned slot = true) :
    (w.applyAll changes).slot slot = .defined definition := by
  induction changes generalizing w with
  | nil => exact defined
  | cons change rest ih =>
    have hlt := Nat.lt_of_lt_of_le (lt_of_defined defined) (w.length_le_apply change)
    exact ih (apply_keeps defined (owned_of_applyAll hlt owned)) owned

/-! ## Parsers that refer to themselves -/

/-- Declares a parser and defines it. The definition may use a handle for what has been declared. -/
def recursive (w : Workspace κ γ) (name : κ) (definition : γ) (mentioned : List κ) :
    Workspace κ γ :=
  (w.declare name).apply (.define name definition mentioned)

/-- The new slot is undefined until then, so that the definition is taken. -/
theorem recursive_slot (w : Workspace κ γ) (name : κ) (definition : γ) (mentioned : List κ) :
    (w.recursive name definition mentioned).slot w.declarations.length = .defined definition := by
  have hfind : (w.declare name).find? name = some (.owner w.declarations.length) := find?_hold _ _ _
  have hundefined : (w.declare name).slot w.declarations.length = .undefined := by
    have howned := owned_of_find? hfind rfl
    rw [declare, (hold_keeps howned).2, Workspace.slot, List.getElem?_concat_length]
  have hlt : w.declarations.length < (w.declare name).declarations.length := by
    rw [declare, hold_length, List.length_append]
    exact Nat.lt_succ_self _
  have hdefine := define_undefined definition ((w.declare name).ownedBy mentioned) hundefined
  rw [recursive, apply, hfind]
  dsimp only [Holding.slot]
  rw [hdefine]
  dsimp only
  rw [Workspace.slot, List.getElem?_set_self hlt]

end Workspace
end Rewind
