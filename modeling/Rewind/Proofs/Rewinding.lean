import Rewind.Proofs.Echo
import Rewind.Proofs.Evaluation

/-!
# Going back

A chain remembers each successor that it has found. So a run that is made again, on a chain that
remembers all that the first run found, finds every stream without a pull (`closed_replays`).
-/
namespace Rewind

variable {τ σ ε : Type} [Source τ σ] [Symbol σ]

namespace Chain

/-- The second chain remembers all that the first has found. -/
def Grows (c d : Chain τ σ) : Prop := ∀ s t, c.Knows s t → d.Knows s t

variable {c d : Chain τ σ}

omit [Source τ σ] [Symbol σ] in
theorem Echoes.grows (h : c.Echoes d) : c.Grows d := by
  intro s t knows
  rw [Knows, h.2]
  exact knows

omit [Source τ σ] in
theorem target_index {step : Stream.Step σ} {following : Option σ} {position : Position}
    (h : step.target following = .ok position) : position.index = step.position.index + 1 := by
  rw [Stream.Step.target] at h
  split at h
  · rw [Position.nextLine] at h
    split at h <;> cases h
    rfl
  · rw [Position.nextColumn] at h
    split at h <;> cases h
    rfl

/-- The thunk of a cell adds a stream, one symbol further on, or meets a fault. -/
theorem advance_shape (c : Chain τ σ) (step : Stream.Step σ) :
    (∃ t window, c.advance step = (.ok t, ⟨window, c.successors.push t.cell⟩) ∧
      t.node = c.successors.size ∧
      t.position.index = step.position.index + 1) ∨
    ∃ fault window, c.advance step = (.error fault, ⟨window, c.successors⟩) := by
  rw [advance]
  dsimp only
  cases htarget : step.target (c.window.look 2).1 with
  | error fault => exact Or.inr ⟨fault, _, rfl⟩
  | ok position =>
    dsimp only
    rw [extend_eq]
    exact Or.inl ⟨_, _, rfl, rfl, target_index htarget⟩

/-- After a stream has been found it is known, and after a fault there is nothing to be had; all
else that was known is known still. -/
theorem consume_remembers (c : Chain τ σ) (s : Stream σ) :
    c.Grows (c.consume s).2 ∧ match c.consume s with
      | (.ok t, found) => found.Knows s t
      | (.error _, broken) => broken.successors.getD s.node .spent = .spent := by
  rcases c.successor_cases s with ⟨t, knows⟩ | ⟨step, hpending⟩ | hspent
  · rw [consume_of_knows knows]
    exact ⟨fun _ _ h => h, knows⟩
  · obtain ⟨hlt, -⟩ := Array.getElem?_eq_some_iff.mp hpending
    have hother : ∀ {u t : Stream σ}, c.Knows u t → u.node ≠ s.node := by
      intro u t knows heq
      rw [Knows, heq, hpending] at knows
      cases knows
    rw [consume_of_pending hpending]
    rcases advance_shape ⟨c.window, c.successors.setIfInBounds s.node .spent⟩ step with
      ⟨t, window, hadvance, -⟩ | ⟨fault, window, hadvance⟩
    · rw [hadvance]
      constructor
      · intro u v knows
        have hne := hother knows
        have hbound : u.node < c.successors.size := (Array.getElem?_eq_some_iff.mp knows).1
        rw [Knows]
        dsimp only
        rw [getElem?_filled hlt, if_neg hne, if_neg (by omega)]
        exact knows
      · dsimp only
        rw [Knows, getElem?_filled hlt, if_pos rfl]
    · rw [hadvance]
      constructor
      · intro u v knows
        rw [Knows]
        dsimp only
        rw [Array.getElem?_setIfInBounds_ne (fun h => hother knows h.symm)]
        exact knows
      · dsimp only
        rw [Array.getD_eq_getD_getElem?, Array.getElem?_setIfInBounds_self_of_lt hlt]
        rfl
  · rw [consume_of_spent hspent]
    exact ⟨fun _ _ h => h, hspent⟩

end Chain

/-- Made again on a chain that remembers all that the run found, it comes to the same end and
changes nothing but the log. Where it halts, it halts again. -/
def Run.Replays {γ : Type} (x : Run τ σ ε γ) : Prop :=
  ∀ session other : Session τ σ ε,
    session.chain.Grows (Run.after (x session)).chain ∧
    (∀ a final, x session = .ok a final → final.chain.Grows other.chain →
      ∃ again, x other = .ok a again ∧ other.chain.Echoes again.chain) ∧
    ∀ reason final, x session = .error reason final → final.chain.Echoes other.chain →
      ∃ reason' again, x other = .error reason' again ∧ other.chain.Echoes again.chain

omit [Source τ σ] [Symbol σ] in
theorem replays_bind {γ δ : Type} {x : Run τ σ ε γ} {f : γ → Run τ σ ε δ} (hx : x.Replays)
    (hf : ∀ a, (f a).Replays) : Run.Replays (x >>= f) := by
  intro session other
  cases hfirst : x session with
  | error reason middle =>
    have hgrows := (hx session other).1
    rw [hfirst] at hgrows
    rw [bind_of_error hfirst]
    refine ⟨hgrows, nofun, ?_⟩
    intro _ final hrun hechoes
    cases hrun
    obtain ⟨reason', again, hagain, hechoes⟩ := (hx session other).2.2 reason middle hfirst hechoes
    exact ⟨reason', again, bind_of_error hagain f, hechoes⟩
  | ok a middle =>
    have hgrows := (hx session other).1
    have hbeyond := (hf a middle other).1
    rw [hfirst] at hgrows
    rw [bind_of_ok hfirst]
    refine ⟨fun s t h => hbeyond s t (hgrows s t h), ?_, ?_⟩
    -- What the first half found the second half did not forget, so that the other chain remembers
    -- it too.
    · intro b final hrun hother
      rw [hrun] at hbeyond
      obtain ⟨again, hagain, hechoes⟩ := (hx session other).2.1 a middle hfirst fun s t h =>
        hother s t (hbeyond s t h)
      obtain ⟨last, hlast, hlasts⟩ :=
        (hf a middle again).2.1 b final hrun fun s t h => hechoes.grows s t (hother s t h)
      exact ⟨last, (bind_of_ok hagain f).trans hlast, hechoes.trans hlasts⟩
    · intro reason final hrun hother
      rw [hrun] at hbeyond
      obtain ⟨again, hagain, hechoes⟩ :=
        (hx session other).2.1 a middle hfirst fun s t h => hother.grows s t (hbeyond s t h)
      obtain ⟨reason', last, hlast, hlasts⟩ :=
        (hf a middle again).2.2 reason final hrun (hother.trans hechoes)
      exact ⟨reason', last, (bind_of_ok hagain f).trans hlast, hechoes.trans hlasts⟩

theorem replays_consume (s : Stream σ) : Run.Replays (Run.consume s : Run τ σ ε (Stream σ)) := by
  intro session other
  obtain ⟨hgrows, hshape⟩ := Chain.consume_remembers session.chain s
  cases hconsume : session.chain.consume s with
  | mk answer after =>
    rw [hconsume] at hgrows hshape
    cases answer with
    | ok t =>
      rw [Run.consume_ok hconsume]
      refine ⟨hgrows, ?_, nofun⟩
      intro b final hrun hother
      cases hrun
      exact ⟨_, Run.consume_ok (Chain.consume_of_knows (hother s t hshape)),
        other.chain.echoes_refl⟩
    | error fault =>
      rw [Run.consume_error hconsume]
      refine ⟨hgrows, nofun, ?_⟩
      intro reason final hrun hother
      cases hrun
      have hspent : other.chain.successors.getD s.node .spent = .spent := by
        rw [hother.2]
        exact hshape
      exact ⟨_, _, Run.consume_error (Chain.consume_of_spent hspent), other.chain.echoes_refl⟩

theorem closed_replays : Run.Closed (Run.Replays : {γ : Type} → Run τ σ ε γ → Prop) := by
  constructor
  · intro γ a session other
    refine ⟨fun _ _ h => h, ?_, nofun⟩
    intro b final hrun _
    cases hrun
    exact ⟨other, rfl, other.chain.echoes_refl⟩
  · intro γ δ x f hx hf
    exact replays_bind hx hf
  · intro γ reason session other
    refine ⟨fun _ _ h => h, nofun, ?_⟩
    intro reason' final hrun _
    exact ⟨_, other, rfl, other.chain.echoes_refl⟩
  · exact replays_consume
  · intro event session other
    refine ⟨fun _ _ h => h, ?_, nofun⟩
    intro b final hrun _
    cases hrun
    exact ⟨_, rfl, other.chain.echoes_refl⟩
  · intro notice session other
    refine ⟨(session.chain.note_echoes notice).grows, ?_, nofun⟩
    intro b final hrun _
    cases hrun
    exact ⟨_, rfl, other.chain.note_echoes notice⟩

variable {α : Type} {ν : Type → Type} {rules : Rules σ ν ε}

theorem parse_replays (fuel : Nat) (g : Grammar σ ν ε α) (s : Stream σ) :
    Run.Replays (g.parse rules fuel s : Run τ σ ε (Outcome σ α)) :=
  Grammar.parse_closed closed_replays fuel g s

theorem Run.after_consume (s : Stream σ) (session : Session τ σ ε) :
    (Run.after (Run.consume s session)).chain = (session.chain.consume s).2 := by
  cases hconsume : session.chain.consume s with
  | mk answer after =>
    cases answer with
    | ok t => rw [Run.consume_ok hconsume, Run.after]
    | error fault => rw [Run.consume_error hconsume, Run.after]

theorem closed_grows (c : Chain τ σ) :
    Run.Closed (Run.Keeps fun session : Session τ σ ε => c.Grows session.chain) := by
  apply Run.closed_keeps
  · intro s session grows u v knows
    rw [Run.after_consume]
    exact (Chain.consume_remembers session.chain s).1 u v (grows u v knows)
  · intro event session grows
    exact grows
  · intro notice session grows u v knows
    exact grows u v knows

/-- What all runs keep is kept by a history. -/
theorem Visit.actAll_keeps {Inv : Session τ σ ε → Prop} (closed : Run.Closed (Run.Keeps Inv))
    {v : Visit τ σ ε} (inv : Inv v.session) (history : List (Nat × Action σ ε)) :
    Inv (v.actAll history).session := by
  induction history generalizing v with
  | nil => exact inv
  | cons step rest ih =>
    have hstep : Inv (v.act step.1 step.2).session := by
      rw [act]
      cases v.held[step.1]? with
      | none => exact inv
      | some s =>
        have hafter := step.2.run_closed closed s v.session inv
        dsimp only
        cases hrun : step.2.run s v.session with
        | ok next session => rwa [hrun] at hafter
        | error reason session => rwa [hrun] at hafter
    exact ih hstep

/-- Nothing is forgotten in a history. -/
theorem Visit.actAll_grows (v : Visit τ σ ε) (history : List (Nat × Action σ ε)) :
    v.session.chain.Grows (v.actAll history).session.chain :=
  actAll_keeps (closed_grows v.session.chain) (fun _ _ knows => knows) history

/-- A parse that came to an end comes to the same end later on, and makes no pull. -/
theorem parse_again {fuel more : Nat} {g : Grammar σ ν ε α} {s : Stream σ}
    {session final : Session τ σ ε} {outcome : Outcome σ α}
    (ended : g.parse rules fuel s session = .ok outcome final) (nodes : List (Stream σ))
    (history : List (Nat × Action σ ε)) (le : fuel ≤ more) :
    ∃ again, g.parse rules more s ((Visit.mk final nodes).actAll history).session =
      .ok outcome again ∧
      again.chain.window.source =
        ((Visit.mk final nodes).actAll history).session.chain.window.source := by
  have hended := Grammar.parse_mono le ended
  obtain ⟨again, hagain, hechoes⟩ :=
    (parse_replays more g s session _).2.1 outcome final hended
      ((Visit.mk final nodes).actAll_grows history)
  exact ⟨again, hagain, hechoes.source_eq⟩

/-- Whatever a parse came to, made again it makes no pull. -/
theorem parse_again_source (fuel : Nat) (g : Grammar σ ν ε α) (s : Stream σ)
    (session : Session τ σ ε) :
    (Run.after
      (g.parse rules fuel s (Run.after (g.parse rules fuel s session)))).chain.window.source =
      (Run.after (g.parse rules fuel s session)).chain.window.source := by
  cases hfirst : g.parse rules fuel s session with
  | ok outcome final =>
    obtain ⟨again, hagain, hsource⟩ := parse_again hfirst [] [] (Nat.le_refl fuel)
    change (Run.after (g.parse rules fuel s final)).chain.window.source = _
    rw [show g.parse rules fuel s final = .ok outcome again from hagain]
    exact hsource
  | error reason final =>
    obtain ⟨reason', again, hagain, hechoes⟩ :=
      (parse_replays fuel g s session final).2.2 reason final hfirst final.chain.echoes_refl
    change (Run.after (g.parse rules fuel s final)).chain.window.source = _
    rw [hagain]
    exact hechoes.source_eq

end Rewind
