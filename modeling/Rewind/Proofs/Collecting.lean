import Mathlib.Data.Finset.Card
import Mathlib.Data.Finset.Range
import Rewind.Proofs.Ownership

/-!
# What is left of a workspace

A parser that nobody owns is dropped, and what its definition owned may have no owner after that. So
parsers are dropped in rounds, as many as there are parsers. That is enough, since each round drops
something as long as there is something to drop (`dropAllUnowned_settled`): what is declared is
owned or has been dropped (`Settled`).

A change either gives a name something else to hold or defines a slot. The first leaves all
declarations alone that are still owned (`apply_getElem?`), and what other names hold
(`apply_find?`). The second goes to a slot that is undefined and has owned nothing so far, so that
no owner is lost (`Sound.give`). So the owners of a parser are those that names hold and those in
definitions that still stand (`Sound.isOwned_iff`).
-/
namespace Rewind

variable {κ γ : Type}

/-! ## What has been dropped -/

namespace Workspace

variable {w : Workspace κ γ} {slot : Nat}

/-- What nobody owns has been dropped. -/
def Settled (w : Workspace κ γ) : Prop :=
  ∀ slot d, w.declarations[slot]? = some d → w.isOwned slot = false → d = ⟨.dropped, []⟩

theorem dropUnowned_getElem? (w : Workspace κ γ) (slot : Nat) : w.dropUnowned.declarations[slot]? =
    w.declarations[slot]?.map fun d => if w.isOwned slot then d else ⟨.dropped, []⟩ :=
  List.getElem?_mapIdx

theorem dropUnowned_settled (settled : w.Settled) : w.dropUnowned = w := by
  have hsame : w.dropUnowned.declarations = w.declarations := by
    apply List.ext_getElem?
    intro slot
    rw [dropUnowned_getElem?]
    cases hd : w.declarations[slot]? with
    | none => rfl
    | some d =>
      cases howned : w.isOwned slot with
      | true => rfl
      | false => simp [settled slot d hd howned]
  exact congrArg (Workspace.mk w.names) hsame

theorem dropAllUnowned_of_settled (settled : w.Settled) (rounds : Nat) :
    dropAllUnowned rounds w = w := by
  induction rounds with
  | zero => rfl
  | succ rounds ih => rw [dropAllUnowned, dropUnowned_settled settled, ih]

/-- Each round drops something, as long as there is something to drop. -/
theorem dropAllUnowned_settled (live : Finset Nat)
    (covers : ∀ slot d, w.declarations[slot]? = some d → d ≠ ⟨.dropped, []⟩ → slot ∈ live)
    {rounds : Nat} (enough : live.card ≤ rounds) : (dropAllUnowned rounds w).Settled := by
  induction rounds generalizing w live with
  | zero =>
    intro slot d hd _
    by_contra hne
    have hpos := Finset.card_pos.mpr ⟨slot, covers slot d hd hne⟩
    omega
  | succ rounds ih =>
    by_cases hsettled : w.Settled
    · rwa [dropAllUnowned_of_settled hsettled]
    · simp only [Settled, not_forall] at hsettled
      obtain ⟨slot, d, hd, howned, hne⟩ := hsettled
      refine ih (live.erase slot) ?_ ?_
      · intro other e he hlive
        rw [dropUnowned_getElem?] at he
        obtain ⟨e, hbefore, rfl⟩ := Option.map_eq_some_iff.mp he
        cases hother : w.isOwned other with
        | false => simp [hother] at hlive
        | true =>
          rw [hother, if_pos rfl] at hlive
          refine Finset.mem_erase.mpr ⟨?_, covers other e hbefore hlive⟩
          rintro rfl
          simp [howned] at hother
      · rw [Finset.card_erase_of_mem (covers slot d hd hne)]
        omega

theorem dropAllUnowned_getElem? (rounds : Nat)
    (owned : (dropAllUnowned rounds w).isOwned slot = true) :
    (dropAllUnowned rounds w).declarations[slot]? = w.declarations[slot]? := by
  induction rounds generalizing w with
  | zero => rfl
  | succ rounds ih =>
    have hbefore := owned_of_dropUnowned (dropAllUnowned_keeps rounds owned).1
    rw [dropAllUnowned, ih owned, dropUnowned_getElem?]
    simp [hbefore]

theorem collect_settled (w : Workspace κ γ) : w.collect.Settled := by
  refine dropAllUnowned_settled (Finset.range w.declarations.length) ?_
    (Nat.le_of_eq (Finset.card_range _))
  intro slot d hd _
  obtain ⟨hlt, -⟩ := List.getElem?_eq_some_iff.mp hd
  exact Finset.mem_range.mpr hlt

/-! ## Names -/

section Names

variable {δ : Type} [DecidableEq κ] {name other : κ}

theorem lookup_filter_ne (ne : other ≠ name) (entries : List (κ × δ)) :
    (entries.filter fun entry => entry.1 ≠ name).lookup other = entries.lookup other := by
  induction entries with
  | nil => rfl
  | cons entry entries ih =>
    obtain ⟨key, value⟩ := entry
    by_cases hname : key = name
    · have hskip : (other == key) = false := by simpa [hname] using ne
      rw [List.filter_cons_of_neg (by simp [hname]), ih, List.lookup_cons, hskip]
    · rw [List.filter_cons_of_pos (by simp [hname]), List.lookup_cons, List.lookup_cons, ih]

theorem lookup_of_mem {entries : List (κ × δ)} (distinct : (entries.map Prod.fst).Nodup) {value : δ}
    (mem : (name, value) ∈ entries) : entries.lookup name = some value := by
  induction entries with
  | nil => cases mem
  | cons entry entries ih =>
    rw [List.map_cons, List.nodup_cons] at distinct
    rcases List.mem_cons.mp mem with rfl | hmem
    · exact List.lookup_cons_self
    · have hskip : (name == entry.1) = false := by
        rw [beq_eq_false_iff_ne]
        rintro rfl
        exact distinct.1 (List.mem_map.mpr ⟨_, hmem, rfl⟩)
      rw [List.lookup_cons, hskip]
      exact ih distinct.2 hmem

end Names

/-! ## Workspaces that changes lead to -/

/-- The names hold slots that have been declared. -/
def Bounded (w : Workspace κ γ) : Prop := ∀ entry ∈ w.names, entry.2.slot < w.declarations.length

/-- What has no definition owns nothing. -/
def Blank (w : Workspace κ γ) : Prop := ∀ d ∈ w.declarations, d.state = .undefined → d.owns = []

structure Sound (w : Workspace κ γ) : Prop where
  distinct : (w.names.map Prod.fst).Nodup
  bounded : w.Bounded
  settled : w.Settled
  blank : w.Blank

theorem dropUnowned_blank (blank : w.Blank) : w.dropUnowned.Blank := by
  rintro d hd hundefined
  obtain ⟨slot, hlt, rfl⟩ := List.mem_mapIdx.mp hd
  by_cases howned : w.isOwned slot = true
  · simp only [howned, if_true] at hundefined ⊢
    exact blank _ (List.getElem_mem hlt) hundefined
  · simp [howned]

theorem dropAllUnowned_blank (blank : w.Blank) (rounds : Nat) :
    (dropAllUnowned rounds w).Blank := by
  induction rounds generalizing w with
  | zero => exact blank
  | succ rounds ih => exact ih (dropUnowned_blank blank)

theorem Sound.slot_lt [DecidableEq κ] (sound : w.Sound) {name : κ} {h : Holding}
    (found : w.find? name = some h) :
    h.slot < w.declarations.length := by
  obtain ⟨before, after, hnames, -⟩ := List.lookup_eq_some_iff.mp found
  refine sound.bounded (name, h) ?_
  rw [hnames]
  exact List.mem_append_right _ List.mem_cons_self

theorem Sound.dropped (sound : w.Sound) (lt : slot < w.declarations.length)
    (unowned : w.isOwned slot = false) :
    w.slot slot = .dropped := by
  have hd := List.getElem?_eq_getElem lt
  rw [Workspace.slot, hd, sound.settled slot _ hd unowned]

/-- What defining a slot makes of a workspace. -/
def give (w : Workspace κ γ) (slot : Nat) (definition : γ) (owns : List Nat) : Workspace κ γ :=
  { w with declarations := w.declarations.set slot ⟨.defined definition, owns⟩ }

variable [DecidableEq κ] {name : κ} {holding : Option Holding}

theorem hold_sound (distinct : (w.names.map Prod.fst).Nodup) (bounded : w.Bounded) (blank : w.Blank)
    (within : ∀ h, holding = some h → h.slot < w.declarations.length) :
    (w.hold name holding).Sound where
  distinct := by
    rw [hold, collect, dropAllUnowned_names]
    have hothers :=
      distinct.sublist ((List.filter_sublist (p := fun entry => entry.1 ≠ name)).map Prod.fst)
    cases holding with
    | none => exact hothers
    | some h =>
      refine List.nodup_cons.mpr ⟨?_, hothers⟩
      simp
  bounded := by
    rintro entry hentry
    rw [hold_length]
    rw [hold, collect, dropAllUnowned_names] at hentry
    rcases List.mem_append.mp hentry with hnew | hother
    · obtain ⟨h, hheld, rfl⟩ := Option.map_eq_some_iff.mp (Option.mem_toList.mp hnew)
      exact within h hheld
    · exact bounded entry (List.mem_filter.mp hother).1
  settled := collect_settled _
  blank := by
    rw [hold]
    apply dropAllUnowned_blank
    exact blank

omit [DecidableEq κ] in
/-- A definition takes no owners away, since the slot that it is given to has owned nothing. -/
theorem Sound.owned_give (sound : w.Sound) {target : Nat} (undefined : w.slot target = .undefined)
    (definition : γ) (owns : List Nat) (owned : w.isOwned slot = true) :
    (w.give target definition owns).isOwned slot = true := by
  rw [isOwned_iff] at owned ⊢
  rcases owned with hname | ⟨e, hmem, hslot⟩
  · exact Or.inl hname
  · obtain ⟨i, hi, rfl⟩ := List.getElem_of_mem hmem
    refine Or.inr ⟨w.declarations[i], ?_, hslot⟩
    have hne : target ≠ i := by
      rintro rfl
      rw [Workspace.slot, List.getElem?_eq_getElem hi] at undefined
      rw [sound.blank _ hmem undefined] at hslot
      cases hslot
    have hkept : (w.give target definition owns).declarations[i]? = some w.declarations[i] := by
      rw [give, List.getElem?_set_ne hne, List.getElem?_eq_getElem hi]
    exact List.mem_of_getElem? hkept

omit [DecidableEq κ] in
theorem Sound.give (sound : w.Sound) {target : Nat} (undefined : w.slot target = .undefined)
    (definition : γ) (owns : List Nat) : (w.give target definition owns).Sound where
  distinct := sound.distinct
  bounded := by
    rintro entry hentry
    rw [Workspace.give, List.length_set]
    exact sound.bounded entry hentry
  settled := by
    rintro slot d hd hunowned
    have hbefore : w.isOwned slot = false := by
      by_contra howned
      simp [sound.owned_give undefined definition owns
        (Bool.eq_true_of_not_eq_false howned)] at hunowned
    obtain ⟨hlt, -⟩ := List.getElem?_eq_some_iff.mp hd
    rw [Workspace.give, List.length_set] at hlt
    have hne : target ≠ slot := by
      rintro rfl
      cases undefined.symm.trans (sound.dropped hlt hbefore)
    rw [Workspace.give, List.getElem?_set_ne hne] at hd
    exact sound.settled slot d hd hbefore
  blank := by
    rintro d hd hundefined
    rcases List.mem_or_eq_of_mem_set hd with hold | rfl
    · exact sound.blank d hold hundefined
    · cases hundefined

theorem Sound.apply (sound : w.Sound) (change : Change κ γ) : (w.apply change).Sound := by
  cases change with
  | declare name =>
    refine hold_sound sound.distinct ?_ ?_ ?_
    · rintro entry hentry
      rw [List.length_append]
      exact Nat.lt_add_right _ (sound.bounded entry hentry)
    · rintro d hd hundefined
      rcases List.mem_append.mp hd with hold | hnew
      · exact sound.blank d hold hundefined
      · cases List.mem_singleton.mp hnew
        rfl
    · rintro h hnew
      cases hnew
      rw [List.length_append]
      exact Nat.lt_succ_self _
  | handle name copy =>
    refine hold_sound sound.distinct sound.bounded sound.blank ?_
    rintro h hnew
    obtain ⟨source, hfound, rfl⟩ := Option.map_eq_some_iff.mp hnew
    exact sound.slot_lt (h := source) hfound
  | clone name copy =>
    exact hold_sound sound.distinct sound.bounded sound.blank fun h => sound.slot_lt
  | drop name => exact hold_sound sound.distinct sound.bounded sound.blank nofun
  | define name definition mentioned =>
    rcases w.apply_define name definition mentioned with h | ⟨target, hundefined, h⟩
    · rwa [h]
    · rw [h]
      exact sound.give hundefined definition _

/-- An owner of a slot is held by a name, or is part of a definition. -/
theorem Sound.isOwned_iff (sound : w.Sound) : w.isOwned slot = true ↔
    (∃ name, w.find? name = some (.owner slot)) ∨
      ∃ (holder : Nat) (d : Declaration γ), w.declarations[holder]? = some d ∧ slot ∈ d.owns := by
  rw [Workspace.isOwned_iff]
  refine or_congr ?_ ?_
  · constructor
    · rintro ⟨⟨name, holding⟩, hmem, howned⟩
      refine ⟨name, (lookup_of_mem sound.distinct hmem).trans ?_⟩
      cases holding with
      | owner target =>
        cases howned
        rfl
      | handle target => cases howned
    · rintro ⟨name, found⟩
      obtain ⟨before, after, hnames, -⟩ := List.lookup_eq_some_iff.mp found
      refine ⟨(name, .owner slot), ?_, rfl⟩
      rw [hnames]
      exact List.mem_append_right _ List.mem_cons_self
  · constructor
    · rintro ⟨d, hmem, howns⟩
      obtain ⟨holder, hd⟩ := List.mem_iff_getElem?.mp hmem
      exact ⟨holder, d, hd, howns⟩
    · rintro ⟨holder, d, hd, howns⟩
      exact ⟨d, List.mem_of_getElem? hd, howns⟩

/-! ## What changes leave alone -/

omit [DecidableEq κ] in
theorem slot_of_getElem? {d : Declaration γ} (h : w.declarations[slot]? = some d) :
    w.slot slot = d.state := by
  rw [Workspace.slot, h]

theorem hold_getElem? (owned : (w.hold name holding).isOwned slot = true) :
    (w.hold name holding).declarations[slot]? = w.declarations[slot]? :=
  dropAllUnowned_getElem? _ owned

theorem find?_hold_of_ne (w : Workspace κ γ) (holding : Option Holding) {other : κ}
    (ne : other ≠ name) :
    (w.hold name holding).find? other = w.find? other := by
  rw [find?, hold, collect, dropAllUnowned_names]
  have hothers := lookup_filter_ne ne w.names
  cases holding with
  | none => exact hothers
  | some h =>
    have hskip : (other == name) = false := by simpa using ne
    rw [Option.map_some, Option.toList_some, List.singleton_append, List.lookup_cons, hskip]
    exact hothers

end Workspace

/-- The name that a change gives something else to hold, or nothing. -/
def Change.rebound? : Change κ γ → Option κ
  | declare name => some name
  | handle _ copy => some copy
  | clone _ copy => some copy
  | drop name => some name
  | define .. => none

theorem Change.eq_define {change : Change κ γ} (h : change.rebound? = none) :
    ∃ name definition mentioned, change = define name definition mentioned := by
  cases change with
  | define name definition mentioned => exact ⟨name, definition, mentioned, rfl⟩
  | _ => cases h

namespace Workspace

variable [DecidableEq κ] {w : Workspace κ γ} {slot : Nat} {change : Change κ γ} {name : κ}

theorem apply_getElem? (rebinds : change.rebound? = some name) (lt : slot < w.declarations.length)
    (owned : (w.apply change).isOwned slot = true) :
    (w.apply change).declarations[slot]? = w.declarations[slot]? := by
  cases change with
  | declare name => exact (hold_getElem? owned).trans (List.getElem?_append_left lt)
  | handle name copy => exact hold_getElem? owned
  | clone name copy => exact hold_getElem? owned
  | drop name => exact hold_getElem? owned
  | define name definition mentioned => cases rebinds

theorem apply_getElem?_new (rebinds : change.rebound? = some name)
    (le : w.declarations.length ≤ slot) (lt : slot < (w.apply change).declarations.length)
    (owned : (w.apply change).isOwned slot = true) :
    (w.apply change).declarations[slot]? = some ⟨.undefined, []⟩ := by
  cases change with
  | declare name =>
    refine (hold_getElem? owned).trans ?_
    rw [apply, declare, hold_length, List.length_append, List.length_singleton] at lt
    obtain rfl : slot = w.declarations.length := by omega
    exact List.getElem?_concat_length
  | handle | clone | drop =>
    have hlength : slot < w.declarations.length := Nat.lt_of_lt_of_eq lt (hold_length _ _ _)
    omega
  | define name definition mentioned => cases rebinds

theorem apply_find? (rebinds : change.rebound? = some name) {other : κ} (ne : other ≠ name) :
    (w.apply change).find? other = w.find? other := by
  cases change with
  | declare | handle | clone | drop =>
    cases rebinds
    exact find?_hold_of_ne _ _ ne
  | define name definition mentioned => cases rebinds

theorem find?_handle {holding : Holding} (found : w.find? name = some holding) (copy : κ) :
    (w.handle name copy).find? copy = some (.handle holding.slot) := by
  rw [handle, found]
  exact find?_hold _ _ _

theorem find?_clone {holding : Holding} (found : w.find? name = some holding) (copy : κ) :
    (w.clone name copy).find? copy = some holding := by
  rw [clone, found]
  exact find?_hold _ _ _

theorem apply_of_undefined {holding : Holding} (found : w.find? name = some holding)
    (undefined : w.slot holding.slot = .undefined) (definition : γ) (mentioned : List κ) :
    w.apply (.define name definition mentioned) =
      w.give holding.slot definition (w.ownedBy mentioned) := by
  rw [apply, found]
  dsimp only
  rw [define_undefined definition (w.ownedBy mentioned) undefined]
  rfl

end Workspace
end Rewind
