import Rewind.Draft
import Rewind.Proofs.Collecting
import Rewind.Proofs.Invocation
import Rewind.Proofs.SelfReference

/-!
# Parsers that are declared

Declared parsers are given handles, copied, defined and dropped in any order, each through the names
that hold them. A `Desk` keeps a record of which definitions were offered to which slot. What a slot
comes to depends on nothing but the offers to it and on whether it is owned (`Desk.Follows`): the
first offer is taken, all later ones are refused, and when the last owner goes the definition goes
with it, and the owners in the definition too (`Desk.Follows.isOwned_iff`).

How a name parses then follows from the state of its slot. The names that a definition mentions are
looked up in a table, and a parse depends on nothing in a table but what it can come to
(`Grammar.parse_alike`). The main theorem is `first_definition_followed`.
-/
namespace Rewind

variable {τ σ ε α : Type} {ν : Type → Type} {κ γ : Type}

/-! ## Definitions that are offered -/

/-- A definition that was offered to a slot, the slots that it owns, and the reply. -/
structure Offer (γ : Type) where
  slot : Nat
  definition : γ
  owns : List Nat
  reply : Except Refusal Unit

namespace Offer

/-- What a slot holds that these are offered to while it is owned. -/
def declaration : List (Offer γ) → Declaration γ
  | [] => ⟨.undefined, []⟩
  | offer :: _ => ⟨.defined offer.definition, offer.owns⟩

/-- The first is taken, and the others are refused. -/
def FirstTaken : List (Offer γ) → Prop
  | [] => True
  | offer :: later => offer.reply = .ok () ∧ ∀ other ∈ later, other.reply = .error .alreadyDefined

theorem state_eq_undefined_iff {offers : List (Offer γ)} :
    (declaration offers).state = .undefined ↔ offers = [] := by
  cases offers <;> simp [declaration]

theorem mem_owns_iff {offers : List (Offer γ)} {slot : Nat} :
    slot ∈ (declaration offers).owns ↔ ∃ offer, offers.head? = some offer ∧ slot ∈ offer.owns := by
  cases offers <;> simp [declaration]

theorem declaration_append {offers : List (Offer γ)} (some : offers ≠ []) (later : List (Offer γ)) :
    declaration (offers ++ later) = declaration offers := by
  cases offers with
  | nil => exact absurd rfl some
  | cons offer offers => rfl

theorem FirstTaken.refuse {offers : List (Offer γ)} (taken : FirstTaken offers) (some : offers ≠ [])
    {offer : Offer γ} (refused : offer.reply = .error .alreadyDefined) :
    FirstTaken (offers ++ [offer]) := by
  cases offers with
  | nil => exact absurd rfl some
  | cons first offers =>
    refine ⟨taken.1, ?_⟩
    rintro other hother
    rcases List.mem_append.mp hother with hold | hnew
    · exact taken.2 other hold
    · rwa [List.mem_singleton.mp hnew]

end Offer

/-- A workspace, and what has been offered to its slots. -/
structure Desk (κ γ : Type) where
  workspace : Workspace κ γ
  offers : List (Offer γ)

namespace Desk

variable [DecidableEq κ] {desk : Desk κ γ} {slot : Nat} {change : Change κ γ} {name : κ}

/-- Only owners can be given a definition. -/
def perform (desk : Desk κ γ) : Change κ γ → Desk κ γ
  | .define name definition mentioned =>
    match desk.workspace.find? name with
    | some (.owner slot) =>
      let owns := desk.workspace.ownedBy mentioned
      match desk.workspace.define slot definition owns with
      | .ok defined => ⟨defined, desk.offers ++ [⟨slot, definition, owns, .ok ()⟩]⟩
      | .error refusal =>
        { desk with offers := desk.offers ++ [⟨slot, definition, owns, .error refusal⟩] }
    | _ => desk
  | change => { desk with workspace := desk.workspace.apply change }

def performAll (desk : Desk κ γ) (changes : List (Change κ γ)) : Desk κ γ :=
  changes.foldl perform desk

omit [DecidableEq κ] in
def offersTo (desk : Desk κ γ) (slot : Nat) : List (Offer γ) := desk.offers.filter (·.slot = slot)

theorem perform_rebinding (rebinds : change.rebound? = some name) :
    desk.perform change = { desk with workspace := desk.workspace.apply change } := by
  cases change with
  | define => cases rebinds
  | _ => rfl

/-- A definition is taken by a slot that has none, and refused by others. -/
theorem perform_define (desk : Desk κ γ) (definition : γ) (mentioned : List κ)
    (found : desk.workspace.find? name = some (.owner slot)) :
    (desk.workspace.slot slot = .undefined ∧ desk.perform (.define name definition mentioned) =
      ⟨desk.workspace.give slot definition (desk.workspace.ownedBy mentioned),
        desk.offers ++ [⟨slot, definition, desk.workspace.ownedBy mentioned, .ok ()⟩]⟩) ∨
    (desk.workspace.slot slot ≠ .undefined ∧ desk.perform (.define name definition mentioned) =
      { desk with offers :=
        desk.offers ++
          [⟨slot, definition, desk.workspace.ownedBy mentioned, .error .alreadyDefined⟩] }) := by
  rw [perform, found]
  dsimp only
  rw [Workspace.define]
  cases hstate : desk.workspace.slot slot with
  | undefined => exact Or.inl ⟨rfl, rfl⟩
  | defined _ | dropped => exact Or.inr ⟨by simp, rfl⟩

theorem perform_unowned (definition : γ) (mentioned : List κ)
    (unowned : ∀ slot, desk.workspace.find? name ≠ some (.owner slot)) :
    desk.perform (.define name definition mentioned) = desk := by
  rw [perform]
  split
  · rename_i slot found
    exact absurd found (unowned slot)
  · rfl

/-- What is owned holds what the offers to it lead to. -/
structure Follows (desk : Desk κ γ) : Prop where
  sound : desk.workspace.Sound
  declared : ∀ offer ∈ desk.offers, offer.slot < desk.workspace.declarations.length
  holds : ∀ slot < desk.workspace.declarations.length, desk.workspace.isOwned slot = true →
    desk.workspace.declarations[slot]? = some (Offer.declaration (desk.offersTo slot))
  replies : ∀ slot, Offer.FirstTaken (desk.offersTo slot)

omit [DecidableEq κ] in
theorem offersTo_append_self (desk : Desk κ γ) (w : Workspace κ γ) {offer : Offer γ}
    (same : offer.slot = slot) :
    offersTo ⟨w, desk.offers ++ [offer]⟩ slot = desk.offersTo slot ++ [offer] := by
  simp [offersTo, same]

omit [DecidableEq κ] in
theorem offersTo_append_of_ne (desk : Desk κ γ) (w : Workspace κ γ) {offer : Offer γ}
    (ne : offer.slot ≠ slot) :
    offersTo ⟨w, desk.offers ++ [offer]⟩ slot = desk.offersTo slot := by
  simp [offersTo, ne]

namespace Follows

omit [DecidableEq κ] in
theorem empty : (Desk.mk (κ := κ) (γ := γ) .empty []).Follows where
  sound := ⟨List.nodup_nil, nofun, nofun, nofun⟩
  declared := nofun
  holds := nofun
  replies := fun _ => trivial

omit [DecidableEq κ] in
theorem offersTo_of_length_le (follows : desk.Follows)
    (le : desk.workspace.declarations.length ≤ slot) :
    desk.offersTo slot = [] := by
  apply List.filter_eq_nil_iff.mpr
  rintro offer hoffer
  have hlt := follows.declared offer hoffer
  simp only [decide_eq_true_eq]
  omega

theorem rebinding (follows : desk.Follows) (rebinds : change.rebound? = some name) :
    Follows { desk with workspace := desk.workspace.apply change } where
  sound := follows.sound.apply change
  declared := by
    rintro offer hoffer
    exact Nat.lt_of_lt_of_le (follows.declared offer hoffer) (desk.workspace.length_le_apply change)
  holds := by
    rintro slot hlt owned
    by_cases hold : slot < desk.workspace.declarations.length
    · rw [Workspace.apply_getElem? rebinds hold owned]
      exact follows.holds slot hold (Workspace.owned_of_apply hold owned)
    · have hle := Nat.le_of_not_lt hold
      rw [Workspace.apply_getElem?_new rebinds hle hlt owned]
      exact congrArg (fun offers => some (Offer.declaration offers))
        (follows.offersTo_of_length_le hle).symm
  replies := follows.replies

omit [DecidableEq κ] in
theorem slot_eq (follows : desk.Follows) (lt : slot < desk.workspace.declarations.length)
    (owned : desk.workspace.isOwned slot = true) :
    desk.workspace.slot slot = (Offer.declaration (desk.offersTo slot)).state :=
  Workspace.slot_of_getElem? (follows.holds slot lt owned)

theorem offered (follows : desk.Follows) (found : desk.workspace.find? name = some (.owner slot)) :
    desk.offersTo slot = [] ↔ desk.workspace.slot slot = .undefined := by
  have hlt : slot < desk.workspace.declarations.length := follows.sound.slot_lt found
  rw [follows.slot_eq hlt (Workspace.owned_of_find? found rfl), Offer.state_eq_undefined_iff]

omit [DecidableEq κ] in
/-- An offer makes a difference only to the slot that it is for. -/
theorem offer (follows : desk.Follows) {next : Workspace κ γ} {offer : Offer γ} (sound : next.Sound)
    (length : next.declarations.length = desk.workspace.declarations.length)
    (lt : offer.slot < desk.workspace.declarations.length)
    (others : ∀ other < desk.workspace.declarations.length, offer.slot ≠ other →
      next.isOwned other = true →
      next.declarations[other]? = some (Offer.declaration (desk.offersTo other)))
    (holds : next.declarations[offer.slot]? =
      some (Offer.declaration (desk.offersTo offer.slot ++ [offer])))
    (replies : Offer.FirstTaken (desk.offersTo offer.slot ++ [offer])) :
    Follows ⟨next, desk.offers ++ [offer]⟩ where
  sound := sound
  declared := by
    rintro other hother
    rw [length]
    rcases List.mem_append.mp hother with hold | hnew
    · exact follows.declared other hold
    · rwa [List.mem_singleton.mp hnew]
  holds := by
    rintro slot hlt owned
    by_cases hslot : offer.slot = slot
    · subst hslot
      rwa [offersTo_append_self desk _ rfl]
    · rw [offersTo_append_of_ne desk _ hslot]
      exact others slot (Nat.lt_of_lt_of_eq hlt length) hslot owned
  replies := by
    rintro slot
    by_cases hslot : offer.slot = slot
    · subst hslot
      rwa [offersTo_append_self desk _ rfl]
    · rw [offersTo_append_of_ne desk _ hslot]
      exact follows.replies slot

theorem taken (follows : desk.Follows) (definition : γ) (mentioned : List κ)
    (found : desk.workspace.find? name = some (.owner slot))
    (undefined : desk.workspace.slot slot = .undefined) :
    Follows ⟨desk.workspace.give slot definition (desk.workspace.ownedBy mentioned),
      desk.offers ++ [⟨slot, definition, desk.workspace.ownedBy mentioned, .ok ()⟩]⟩ := by
  have hlt : slot < desk.workspace.declarations.length := follows.sound.slot_lt found
  have hnone := (follows.offered found).mpr undefined
  refine follows.offer (follows.sound.give undefined definition _) List.length_set hlt ?_ ?_ ?_
  · rintro other hother hne owned
    have happly : _ = desk.workspace.give slot definition (desk.workspace.ownedBy mentioned) :=
      Workspace.apply_of_undefined found undefined definition mentioned
    rw [← happly] at owned
    exact (List.getElem?_set_ne hne).trans
      (follows.holds other hother (Workspace.owned_of_apply hother owned))
  · rw [hnone]
    exact List.getElem?_set_self hlt
  · rw [hnone]
    exact ⟨rfl, by simp⟩

theorem refused (follows : desk.Follows) (definition : γ) (owns : List Nat)
    (found : desk.workspace.find? name = some (.owner slot))
    (defined : desk.workspace.slot slot ≠ .undefined) :
    Follows { desk with
      offers := desk.offers ++ [⟨slot, definition, owns, .error .alreadyDefined⟩] } := by
  have hlt : slot < desk.workspace.declarations.length := follows.sound.slot_lt found
  have hsome : desk.offersTo slot ≠ [] := fun h => defined ((follows.offered found).mp h)
  refine follows.offer follows.sound rfl hlt ?_ ?_ ?_
  · exact fun other hother _ owned => follows.holds other hother owned
  · rw [Offer.declaration_append hsome]
    exact follows.holds slot hlt (Workspace.owned_of_find? found rfl)
  · exact (follows.replies slot).refuse hsome rfl

theorem perform (follows : desk.Follows) (change : Change κ γ) : (desk.perform change).Follows := by
  cases hrebinds : change.rebound? with
  | some name =>
    rw [perform_rebinding hrebinds]
    exact follows.rebinding hrebinds
  | none =>
    obtain ⟨name, definition, mentioned, rfl⟩ := Change.eq_define hrebinds
    by_cases howned : ∃ slot, desk.workspace.find? name = some (.owner slot)
    · obtain ⟨slot, found⟩ := howned
      rcases desk.perform_define definition mentioned found with ⟨hundefined, h⟩ | ⟨hdefined, h⟩
      · rw [h]
        exact follows.taken definition mentioned found hundefined
      · rw [h]
        exact follows.refused definition _ found hdefined
    · rwa [perform_unowned definition mentioned fun slot found => howned ⟨slot, found⟩]

theorem performAll (follows : desk.Follows) (changes : List (Change κ γ)) :
    (desk.performAll changes).Follows := by
  induction changes generalizing desk with
  | nil => exact follows
  | cons change rest ih => exact ih (follows.perform change)

theorem perform_again (follows : desk.Follows) (definition : γ) (mentioned : List κ)
    (found : desk.workspace.find? name = some (.owner slot)) (some : desk.offersTo slot ≠ []) :
    desk.perform (.define name definition mentioned) =
      { desk with offers :=
        desk.offers ++
          [⟨slot, definition, desk.workspace.ownedBy mentioned, .error .alreadyDefined⟩] } := by
  rcases desk.perform_define definition mentioned found with ⟨hundefined, -⟩ | ⟨-, h⟩
  · exact absurd ((follows.offered found).mpr hundefined) some
  · exact h

omit [DecidableEq κ] in
theorem isDefined_iff (follows : desk.Follows) (lt : slot < desk.workspace.declarations.length)
    (owned : desk.workspace.isOwned slot = true) :
    desk.workspace.isDefined slot = true ↔ ∃ offer ∈ desk.offersTo slot, offer.reply = .ok () := by
  have htaken := follows.replies slot
  rw [Workspace.isDefined, follows.slot_eq lt owned]
  cases hoffers : desk.offersTo slot with
  | nil => simp [Offer.declaration]
  | cons offer later =>
    rw [hoffers] at htaken
    simp [Offer.declaration, htaken.1]

/-- The owners of a parser are those that names hold and those in the definitions of parsers
that are owned. -/
theorem isOwned_iff (follows : desk.Follows) : desk.workspace.isOwned slot = true ↔
    (∃ name, desk.workspace.find? name = some (.owner slot)) ∨
      ∃ holder, desk.workspace.isOwned holder = true ∧
        ∃ offer, (desk.offersTo holder).head? = some offer ∧ slot ∈ offer.owns := by
  rw [follows.sound.isOwned_iff]
  refine or_congr_right ?_
  constructor
  · rintro ⟨holder, d, hd, howns⟩
    obtain ⟨hlt, -⟩ := List.getElem?_eq_some_iff.mp hd
    have howned : desk.workspace.isOwned holder = true := by
      by_contra hunowned
      rw [follows.sound.settled holder d hd (Bool.eq_false_of_not_eq_true hunowned)] at howns
      cases howns
    cases hd.symm.trans (follows.holds holder hlt howned)
    exact ⟨holder, howned, Offer.mem_owns_iff.mp howns⟩
  · rintro ⟨holder, howned, offer, hhead, howns⟩
    have hlt : holder < desk.workspace.declarations.length := by
      by_contra hle
      rw [follows.offersTo_of_length_le (Nat.le_of_not_lt hle)] at hhead
      cases hhead
    exact ⟨holder, _, follows.holds holder hlt howned, Offer.mem_owns_iff.mpr ⟨offer, hhead, howns⟩⟩

end Follows

/-- Whether a change gives the slot a definition, or tries to. -/
def Defines (desk : Desk κ γ) (slot : Nat) : Change κ γ → Prop
  | .define name _ _ => desk.workspace.find? name = some (.owner slot)
  | _ => False

/-- What a definition does to a workspace, if it does anything, it does to a slot that it is for. -/
theorem perform_define_cases (desk : Desk κ γ) (name : κ) (definition : γ) (mentioned : List κ) :
    (desk.perform (.define name definition mentioned)).workspace = desk.workspace ∨
      ∃ slot, desk.workspace.find? name = some (.owner slot) ∧
        (desk.perform (.define name definition mentioned)).workspace =
          desk.workspace.give slot definition (desk.workspace.ownedBy mentioned) := by
  by_cases howned : ∃ slot, desk.workspace.find? name = some (.owner slot)
  · obtain ⟨slot, found⟩ := howned
    rcases desk.perform_define definition mentioned found with ⟨-, h⟩ | ⟨-, h⟩
    · exact Or.inr ⟨slot, found, congrArg Desk.workspace h⟩
    · exact Or.inl (by rw [h])
  · exact Or.inl (congrArg Desk.workspace (perform_unowned definition mentioned fun slot found =>
      howned ⟨slot, found⟩))

theorem perform_owner {owner : κ} (found : desk.workspace.find? owner = some (.owner slot))
    (apart : change.rebound? ≠ some owner) :
    (desk.perform change).workspace.find? owner = some (.owner slot) := by
  cases hrebinds : change.rebound? with
  | some name =>
    rw [perform_rebinding hrebinds, ← found]
    exact Workspace.apply_find? hrebinds fun h => apart (hrebinds.trans (congrArg some h.symm))
  | none =>
    obtain ⟨name, definition, mentioned, rfl⟩ := Change.eq_define hrebinds
    rcases desk.perform_define_cases name definition mentioned with h | ⟨target, -, h⟩
    · rwa [h]
    · rw [h]
      exact found

theorem perform_slot (lt : slot < desk.workspace.declarations.length)
    (others : ¬ desk.Defines slot change)
    (owned : (desk.perform change).workspace.isOwned slot = true) :
    (desk.perform change).workspace.slot slot = desk.workspace.slot slot := by
  have hd := List.getElem?_eq_getElem lt
  refine (Workspace.slot_of_getElem? ?_).trans (Workspace.slot_of_getElem? hd).symm
  cases hrebinds : change.rebound? with
  | some name =>
    rw [perform_rebinding hrebinds] at owned ⊢
    exact (Workspace.apply_getElem? hrebinds lt owned).trans hd
  | none =>
    obtain ⟨name, definition, mentioned, rfl⟩ := Change.eq_define hrebinds
    rcases desk.perform_define_cases name definition mentioned with h | ⟨target, found, h⟩
    · rwa [h]
    · rw [h]
      refine (List.getElem?_set_ne ?_).trans hd
      rintro rfl
      exact others found

end Desk

/-! ## Tables that agree -/

namespace Grammar

/-- If the grammar is a name, another table gives it the same meaning. -/
def Alike (rules other : Rules σ ν ε) : {α : Type} → Grammar σ ν ε α → Prop
  | _, .rule name => other.slot name = rules.slot name
  | _, .lazy name => other.build name = rules.build name
  | _, _ => True

end Grammar

section Tables

variable [Source τ σ] [Symbol σ] {rules other : Rules σ ν ε} {g : Grammar σ ν ε α}

omit [Source τ σ] in
theorem Grammar.plan_alike (alike : g.Alike rules other) (rounds : Nat) (s : Stream σ) :
    g.plan other rounds s = g.plan rules rounds s := by
  cases g with
  | rule name =>
    change other.slot name = rules.slot name at alike
    rw [plan, plan, alike]
  | lazy name =>
    change other.build name = rules.build name at alike
    rw [plan, plan, alike]
  | _ => rfl

theorem Plan.run_congr {P Q : {β : Type} → Grammar σ ν ε β → Prop} {V : Stream σ → Prop}
    (all : ∀ s, V s) {answer : Stream σ → Message → Plan σ ν ε α} {p : Plan σ ν ε α}
    (lawful : p.Lawful P Q V answer)
    {part part' definition definition' : {β : Type} → Grammar σ ν ε β → Parser τ σ ε β}
    (parts : ∀ {β : Type} (g : Grammar σ ν ε β), P g → part' g = part g)
    (definitions : ∀ {β : Type} (g : Grammar σ ν ε β), Q g → definition' g = definition g) :
    p.run part' definition' = p.run part definition := by
  induction p with
  | done notice outcome => cases notice <;> rfl
  | halt reason => rfl
  | consume s next ih => exact bind_congr fun rest => ih rest (lawful.2 rest (all rest))
  | emit event next ih => exact bind_congr fun _ => ih lawful
  | call hook next ih => exact ih lawful
  | invoke g s next ih =>
    rw [run, run, parts g lawful.1]
    exact bind_congr fun outcome => ih outcome (lawful.2.2.2 outcome (all _))
  | follow g s => exact congrFun (definitions g lawful.1) s

/-- A parse depends on nothing in a table but the names that it can come to. -/
theorem Grammar.parse_alike (alike : g.Throughout rules (Alike rules other)) (fuel : Nat) :
    (g.parse other fuel : Parser τ σ ε α) = g.parse rules fuel := by
  induction fuel generalizing α with
  | zero => rfl
  | succ fuel ih =>
    refine Throughout.induction (motive := fun g =>
      g.parse other (fuel + 1) = g.parse rules (fuel + 1)) ?_ alike
    intro β g throughout parts
    funext s
    rw [parse_eq_run, parse_eq_run, plan_alike throughout.self]
    have hlawful :=
      plan_lawful (V := fun _ => True) rules fuel (s := s) trivial (Or.inr fun _ => trivial) parts
        throughout.definitions
    exact Plan.run_congr (fun _ => trivial) hlawful (fun _ same => same) fun _ h => ih h

end Tables

/-! ## Tables of workspaces -/

/-- The meaning of names when some stand for the slots of a workspace, given how its
definitions are written. -/
def Workspace.table (w : Workspace κ γ) (a : Assembly σ) (written : Nat → γ → Assembled σ) :
    Rules σ (Reference σ) (Event σ) :=
  a.rules fun slot => (w.slot slot).map (written slot)

/-- If the grammar is the name of a slot, nothing has happened to that slot. -/
def Grammar.Undisturbed (w next : Workspace κ γ) :
    {α : Type} → Grammar σ (Reference σ) (Event σ) α → Prop
  | _, .rule (.declared slot) => next.slot slot = w.slot slot
  | _, _ => True

section Parses

theorem Grammar.alike_of_undisturbed {w next : Workspace κ γ} (a : Assembly σ)
    (written : Nat → γ → Assembled σ) (g : Grammar σ (Reference σ) (Event σ) α)
    (undisturbed : g.Undisturbed w next) :
    g.Alike (w.table a written) (next.table a written) := by
  cases g with
  | rule name =>
    cases name with
    | declared slot => exact congrArg (Slot.map (written slot)) undisturbed
    | enclosing | product => rfl
  | lazy name => rfl
  | _ => trivial

variable [Symbol σ]

theorem Desk.Follows.parse_declared [Source τ σ] {desk : Desk κ γ} (follows : desk.Follows)
    {slot : Nat} (lt : slot < desk.workspace.declarations.length) (a : Assembly σ)
    (written : Nat → γ → Assembled σ) (fuel : Nat) (s : Stream σ)
    (session : Session τ σ (Event σ)) :
    (Grammar.rule (.declared slot) : Assembled σ).parse (desk.workspace.table a written)
    (fuel + 1) s session =
      if desk.workspace.isOwned slot then
        match desk.offersTo slot with
        | [] => .ok (.error s (.escalation "recursive parser used before definition"))
            (session.noted (some (.usedBeforeDefinition s.position)))
        | offer :: _ =>
          (written slot offer.definition).parse (desk.workspace.table a written) fuel s session
      else .ok (.error s (.escalation "recursive parser no longer exists"))
        (session.noted (some (.noLongerExists s.position))) := by
  have hslot : (desk.workspace.table a written).slot (.declared slot) =
      (desk.workspace.slot slot).map (written slot) := rfl
  rw [Grammar.parse_rule, hslot]
  cases howned : desk.workspace.isOwned slot with
  | true =>
    rw [if_pos rfl, follows.slot_eq lt howned]
    cases desk.offersTo slot <;> rfl
  | false =>
    rw [follows.sound.dropped lt howned]
    rfl

/-- A draft as a grammar in its place: the drafts before it have been assembled first. -/
def Draft.written (w : Workspace String (Draft σ)) (home : Stream σ) (slot : Nat) (d : Draft σ) :
    Assembled σ :=
  (d.assemble home (Draft.assembleAll home (w.declarations.take slot) Assembly.empty).2).1

theorem Draft.assembleAll_getElem? (home : Stream σ) (declarations : List (Declaration (Draft σ)))
    (slot : Nat) (a : Assembly σ) :
    (Draft.assembleAll home declarations a).1[slot]? = declarations[slot]?.map fun d =>
      d.state.map fun draft =>
        (draft.assemble home (Draft.assembleAll home (declarations.take slot) a).2).1 := by
  induction declarations generalizing slot a with
  | nil => rfl
  | cons d rest ih =>
    obtain ⟨state, owns⟩ := d
    cases slot with
    | zero => cases state <;> rfl
    | succ slot =>
      cases state with
      | undefined | dropped => exact ih slot a
      | defined draft => exact ih slot (draft.assemble home a).2

/-- The table of the drafts in a workspace is a table of the workspace. -/
theorem Draft.exists_rules_eq_table (w : Workspace String (Draft σ)) (home : Stream σ) :
    ∃ a, Draft.rules w home = w.table a (Draft.written w home) := by
  refine ⟨(Draft.assembleAll home w.declarations Assembly.empty).2, ?_⟩
  change Assembly.rules _ _ = Assembly.rules _ _
  congr 1
  funext slot
  rw [Draft.assembleAll_getElem?, Workspace.slot]
  cases w.declarations[slot]? <;> rfl

end Parses

variable [DecidableEq κ]

/-- After any history of declaring, handing out, copying, defining and dropping, with any parses in
between, which change nothing, for each parser that has been declared: The first definition that was
offered to it has been taken, all others have been refused, and offering another one changes nothing
but the record. It is owned as long as a name holds an owner of it, or the definition of a parser
that is owned does. While it is owned, it is defined exactly if an offer has been taken. Any name
for it, an owner or a handle, then parses as the first definition does, or escalates where it is
tried if there is none, and so do the handles and copies that are made from the name. When it is not
owned any more, all its names are handles, and these escalate.

What is done to other parsers leaves it alone. It stays owned as long as a name keeps an owner of
it, it keeps its state as long as it is owned, and its replies are the same as long as nothing has
happened to what its definition refers to. -/
theorem first_definition_followed [Source τ σ] [Symbol σ] (changes : List (Change κ γ)) :
    let desk := Desk.performAll ⟨.empty, []⟩ changes
    let w := desk.workspace
    (∀ name, (desk.perform (.declare name)).workspace.find? name =
      some (.owner w.declarations.length)) ∧
    ∀ slot < w.declarations.length,
      let offers := desk.offersTo slot
      Offer.FirstTaken offers ∧
      (∀ name definition mentioned, w.find? name = some (.owner slot) → offers ≠ [] →
        desk.perform (.define name definition mentioned) =
          { desk with
            offers :=
              desk.offers ++ [⟨slot, definition, w.ownedBy mentioned, .error .alreadyDefined⟩] }) ∧
      (w.isOwned slot = true ↔ (∃ name, w.find? name = some (.owner slot)) ∨
        ∃ holder, w.isOwned holder = true ∧
          ∃ offer, (desk.offersTo holder).head? = some offer ∧ slot ∈ offer.owns) ∧
      (w.isOwned slot = true → (w.isDefined slot = true ↔ ∃ offer ∈ offers, offer.reply = .ok ())) ∧
      (∀ name holding, w.find? name = some holding → holding.slot = slot →
        (∀ copy, (desk.perform (.handle name copy)).workspace.find? copy = some (.handle slot) ∧
          (desk.perform (.clone name copy)).workspace.find? copy = some holding) ∧
        (w.isOwned slot = false → holding = .handle slot) ∧
        ∀ (a : Assembly σ) (written : Nat → γ → Assembled σ) (fuel : Nat) (s : Stream σ)
          (session : Session τ σ (Event σ)),
          (Grammar.rule (.declared holding.slot) : Assembled σ).parse (w.table a written)
            (fuel + 1) s session =
            if w.isOwned slot then
              match offers with
              | [] => .ok (.error s (.escalation "recursive parser used before definition"))
                  (session.noted (some (.usedBeforeDefinition s.position)))
              | offer :: _ =>
                (written slot offer.definition).parse (w.table a written) fuel s session
            else .ok (.error s (.escalation "recursive parser no longer exists"))
              (session.noted (some (.noLongerExists s.position)))) ∧
      ∀ change, ¬ desk.Defines slot change →
        let next := (desk.perform change).workspace
        (∀ owner, w.find? owner = some (.owner slot) → change.rebound? ≠ some owner →
          next.isOwned slot = true) ∧
        (next.isOwned slot = true → next.slot slot = w.slot slot) ∧
        ∀ (a : Assembly σ) (written : Nat → γ → Assembled σ),
          (Grammar.rule (.declared slot) : Assembled σ).Throughout (w.table a written)
            (Grammar.Undisturbed w next) →
          ∀ fuel, (Grammar.parse (next.table a written) fuel (Grammar.rule (.declared slot)) :
            Parser τ σ (Event σ) (Value σ)) = Grammar.parse (w.table a written) fuel (.rule
              (.declared slot)) := by
  intro desk w
  have hfollows : desk.Follows := Desk.Follows.empty.performAll changes
  refine ⟨fun name => Workspace.find?_hold _ name _, ?_⟩
  intro slot hlt offers
  refine ⟨hfollows.replies slot, ?_, hfollows.isOwned_iff, hfollows.isDefined_iff hlt, ?_, ?_⟩
  · intro name definition mentioned found some
    exact hfollows.perform_again definition mentioned found some
  · rintro name holding found rfl
    refine ⟨?_, ?_, ?_⟩
    · intro copy
      constructor
      · exact Workspace.find?_handle found copy
      · exact Workspace.find?_clone found copy
    · intro hunowned
      cases holding with
      | owner slot => cases hunowned.symm.trans (Workspace.owned_of_find? found rfl)
      | handle slot => rfl
    · intro a written fuel s session
      rw [hfollows.parse_declared hlt]
  · intro change others next
    refine ⟨?_, Desk.perform_slot hlt others, ?_⟩
    · intro owner found apart
      exact Workspace.owned_of_find? (Desk.perform_owner found apart) rfl
    · intro a written undisturbed fuel
      exact Grammar.parse_alike (undisturbed.imp (Grammar.alike_of_undisturbed a written)) fuel

/-- A parser is declared, handed out, defined, defined again, and copied before its first owner is
dropped. Its handle parses as the first definition, until the copy is dropped too. A parser that was
declared with it has not been defined. -/
theorem first_definition_followed_drafts :
    let one : Draft Char := ⟨.symbol 'a', []⟩
    let other : Draft Char := ⟨.symbol 'b', []⟩
    let changes : List (Change String (Draft Char)) :=
      [.declare "p", .handle "p" "h", .declare "q", .define "p" one [],
      .define "p" other [], .clone "p" "r", .drop "p"]
    let w := (Desk.performAll ⟨.empty, []⟩ changes).workspace
    let gone := (Desk.performAll ⟨.empty, []⟩ (changes ++ [.drop "r"])).workspace
    let opened : Stream Char × Session (Queue Char) Char (Event Char) :=
      Session.ofWindow (.ofSource ⟨['a']⟩) .start
    let parse (w : Workspace String (Draft Char)) (slot : Nat) :=
      (Grammar.rule (.declared slot) : Assembled Char).parse (Draft.rules w opened.1) 2
        opened.1 opened.2
    w.find? "h" = some (.handle 0) ∧ w.find? "q" = some (.owner 1) ∧
    gone.find? "h" = some (.handle 0) ∧
      parse w 0 = (Draft.written w opened.1 0 one).parse (Draft.rules w opened.1) 1
        opened.1 opened.2 ∧
      (∃ final, parse w 1 =
        .ok (.error opened.1 (.escalation "recursive parser used before definition")) final) ∧
      ∃ final, parse gone 0 =
        .ok (.error opened.1 (.escalation "recursive parser no longer exists")) final := by
  intro one other changes w gone opened parse
  have hhandle : w.find? "h" = some (.handle 0) := by decide +kernel
  have howner : w.find? "q" = some (.owner 1) := by decide +kernel
  have hgone : gone.find? "h" = some (.handle 0) := by decide +kernel
  obtain ⟨a, htable⟩ := Draft.exists_rules_eq_table w opened.1
  obtain ⟨b, hlast⟩ := Draft.exists_rules_eq_table gone opened.1
  obtain ⟨-, hall⟩ := first_definition_followed (τ := Queue Char) (σ := Char) changes
  obtain ⟨-, hafter⟩ :=
    first_definition_followed (τ := Queue Char) (σ := Char) (changes ++ [.drop "r"])
  obtain ⟨-, -, -, -, hdefined, -⟩ := hall 0 (by decide +kernel)
  obtain ⟨-, -, -, -, hundefined, -⟩ := hall 1 (by decide +kernel)
  obtain ⟨-, -, -, -, hdropped, -⟩ := hafter 0 (by decide +kernel)
  refine ⟨hhandle, howner, hgone, ?_, ?_, ?_⟩
  · have h := (hdefined "h" _ hhandle rfl).2.2 a (Draft.written w opened.1) 1 opened.1 opened.2
    rw [← htable, if_pos (by decide +kernel)] at h
    exact h
  · have h := (hundefined "q" _ howner rfl).2.2 a (Draft.written w opened.1) 1 opened.1 opened.2
    rw [← htable, if_pos (by decide +kernel)] at h
    exact ⟨_, h⟩
  · have h := (hdropped "h" _ hgone rfl).2.2 b (Draft.written gone opened.1) 1 opened.1 opened.2
    rw [← hlast, if_neg (by decide +kernel)] at h
    exact ⟨_, h⟩

end Rewind
