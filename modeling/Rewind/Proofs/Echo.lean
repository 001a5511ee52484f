import Rewind.Proofs.Nodes

/-!
# Echoes

Two chains are echoes of each other when nothing but their logs tells them apart. Nothing that is
done to a chain looks at its log, so echoes answer alike and stay echoes.
-/
namespace Rewind

variable {τ σ : Type}

namespace Window

def Echoes (w v : Window τ σ) : Prop := ∃ log, v = { w with log := log }

variable {w v : Window τ σ}

theorem echoes_refl (w : Window τ σ) : w.Echoes w := ⟨w.log, rfl⟩

theorem Echoes.symm (h : w.Echoes v) : v.Echoes w := by
  obtain ⟨log, rfl⟩ := h
  exact ⟨w.log, rfl⟩

theorem Echoes.trans {u : Window τ σ} (h : w.Echoes v) (hv : v.Echoes u) : w.Echoes u := by
  obtain ⟨log, rfl⟩ := h
  obtain ⟨last, rfl⟩ := hv
  exact ⟨last, rfl⟩

theorem note_echoes (w : Window τ σ) (notice : Notice) : w.Echoes (w.note notice) := ⟨_, rfl⟩

theorem compact_echoes (h : w.Echoes v) : w.compact.Echoes v.compact := by
  obtain ⟨log, rfl⟩ := h
  rw [compact, compact]
  by_cases hcursor : w.cursor = 0
  · rw [if_pos hcursor, if_pos hcursor]
    exact ⟨log, rfl⟩
  · rw [if_neg hcursor, if_neg hcursor]
    exact ⟨log, rfl⟩

theorem widen_echoes (h : w.Echoes v) (depth : Nat) : (w.widen depth).Echoes (v.widen depth) := by
  obtain ⟨log, rfl⟩ := h
  rw [widen, widen]
  by_cases hdepth : w.capacity < depth
  · rw [if_pos hdepth, if_pos hdepth]
    exact ⟨_, rfl⟩
  · rw [if_neg hdepth, if_neg hdepth]
    exact ⟨log, rfl⟩

theorem pass_echoes (h : w.Echoes v) (count : Nat) : (w.pass count).Echoes (v.pass count) := by
  obtain ⟨log, rfl⟩ := h
  exact ⟨log, rfl⟩

variable [Source τ σ]

theorem pullOnce_echoes (h : w.Echoes v) : w.pullOnce.Echoes v.pullOnce := by
  obtain ⟨log, rfl⟩ := h
  rw [pullOnce, pullOnce]
  by_cases hempty : (Source.pull w.source (w.capacity - w.staged.size)).symbols.isEmpty = true
  · simp only [hempty, if_true]
    exact ⟨_, rfl⟩
  · simp only [hempty]
    exact ⟨_, rfl⟩

theorem fill_echoes (h : w.Echoes v) (depth rounds : Nat) :
    (w.fill depth rounds).Echoes (v.fill depth rounds) := by
  induction rounds generalizing w v with
  | zero => exact h
  | succ rounds ih =>
    have hpulled := ih (pullOnce_echoes h)
    obtain ⟨log, rfl⟩ := h
    rw [fill, fill]
    by_cases hstop : (w.exhausted || decide (depth ≤ w.staged.size)) = true
    · rw [if_pos hstop, if_pos hstop]
      exact ⟨log, rfl⟩
    · rw [if_neg hstop, if_neg hstop]
      exact hpulled

theorem ensure_echoes (h : w.Echoes v) (depth : Nat) :
    (w.ensure depth).Echoes (v.ensure depth) := by
  have hfilled := fill_echoes (widen_echoes (compact_echoes h) depth) depth depth
  obtain ⟨log, rfl⟩ := h
  rw [ensure, ensure]
  by_cases hdeep : depth ≤ w.buffered
  · rw [if_pos hdeep, if_pos (show depth ≤ buffered { w with log := log } from hdeep)]
    exact ⟨log, rfl⟩
  · rw [if_neg hdeep, if_neg (show ¬ depth ≤ buffered { w with log := log } from hdeep)]
    exact hfilled

theorem look_echoes (h : w.Echoes v) (depth : Nat) :
    (v.look depth).1 = (w.look depth).1 ∧ (w.look depth).2.Echoes (v.look depth).2 := by
  have hensured := ensure_echoes h depth
  refine ⟨?_, hensured⟩
  obtain ⟨log, hlog⟩ := hensured
  rw [look, look, hlog]

end Window

namespace Chain

def Echoes (c d : Chain τ σ) : Prop := c.window.Echoes d.window ∧ d.successors = c.successors

variable {c d : Chain τ σ}

theorem echoes_refl (c : Chain τ σ) : c.Echoes c := ⟨c.window.echoes_refl, rfl⟩

theorem Echoes.symm (h : c.Echoes d) : d.Echoes c := ⟨h.1.symm, h.2.symm⟩

theorem Echoes.trans {e : Chain τ σ} (h : c.Echoes d) (hd : d.Echoes e) : c.Echoes e :=
  ⟨h.1.trans hd.1, hd.2.trans h.2⟩

theorem note_echoes (c : Chain τ σ) (notice : Notice) : c.Echoes (c.note notice) :=
  ⟨c.window.note_echoes notice, rfl⟩

/-- Echoes have the same source. -/
theorem Echoes.source_eq (h : c.Echoes d) : d.window.source = c.window.source := by
  obtain ⟨⟨log, hlog⟩, -⟩ := h
  rw [hlog]

variable [Source τ σ]

theorem extend_echoes (h : c.Echoes d) (position : Position) :
    (d.extend position).1 = (c.extend position).1 ∧
    (c.extend position).2.Echoes (d.extend position).2 := by
  obtain ⟨hseen, hlooked⟩ := Window.look_echoes h.1 1
  rw [extend_eq, extend_eq, h.2, hseen]
  exact ⟨rfl, hlooked, rfl⟩

variable [Symbol σ]

theorem advance_echoes (h : c.Echoes d) (step : Stream.Step σ) :
    (d.advance step).1 = (c.advance step).1 ∧ (c.advance step).2.Echoes (d.advance step).2 := by
  obtain ⟨hseen, hlooked⟩ := Window.look_echoes h.1 2
  have hpassed : Echoes { c with window := (c.window.look 2).2.pass 1 }
      { d with window := (d.window.look 2).2.pass 1 } :=
    ⟨Window.pass_echoes hlooked 1, h.2⟩
  rw [advance, advance]
  dsimp only
  rw [hseen]
  cases step.target (c.window.look 2).1 with
  | error fault => exact ⟨rfl, hpassed⟩
  | ok position =>
    obtain ⟨hstream, hextended⟩ := extend_echoes hpassed position
    refine ⟨congrArg Except.ok hstream, hextended⟩

/-- Moving along an echo leads to the same stream. -/
theorem consume_echoes (h : c.Echoes d) (s : Stream σ) :
    (d.consume s).1 = (c.consume s).1 ∧ (c.consume s).2.Echoes (d.consume s).2 := by
  rw [consume, consume, h.2]
  cases (c.successors.getD s.node .spent).demand with
  | mk answer taken =>
    cases answer with
    | known next => exact ⟨rfl, h⟩
    | refused => exact ⟨rfl, h⟩
    | start step =>
      have hemptied : Echoes { c with successors := c.successors.setIfInBounds s.node taken }
          { d with successors := c.successors.setIfInBounds s.node taken } := ⟨h.1, rfl⟩
      obtain ⟨hresult, hwindow, hsuccessors⟩ := advance_echoes hemptied step
      dsimp only
      generalize
        advance { c with successors := c.successors.setIfInBounds s.node taken } step = x at *
      generalize
        advance { d with successors := c.successors.setIfInBounds s.node taken } step = y at *
      obtain ⟨result, after⟩ := x
      obtain ⟨again, other⟩ := y
      cases hresult
      cases result with
      | error fault => exact ⟨rfl, hwindow, hsuccessors⟩
      | ok next =>
        exact ⟨rfl, hwindow, congrArg (Array.setIfInBounds · s.node (.ready next)) hsuccessors⟩

end Chain
end Rewind
