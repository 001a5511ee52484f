import Rewind.Proofs.Pulling

/-!
# Supplies without an end

A window reads from a source that comes to an end. A supply that does not is read from by way of a
ration. As long as some of it is left afterwards, the ration makes no difference: with any more of
it, the same requests get the same answers and leave the same window, whose source has been asked
for the same symbols (`serveAll_grant`). So what is asked of a window before an endless supply, if
it comes to an end at all, is what is asked of it with a ration that is large enough, and what holds
with every ration holds of the supply: every pull is for the room that there is, and what is said of
it in the log is how it came about (`pulls_fill_room`).
-/
namespace Rewind

variable {τ σ : Type}

/-- The account with so much more of a ration. -/
def Metered.grant {supply : Supply τ σ} (m : Metered (Rationed supply)) (extra : Nat) :
    Metered (Rationed supply) :=
  ⟨⟨m.source.state, m.source.ration + extra⟩, m.calls⟩

/-- A pull that is not cut off brings no more with more of a ration. -/
theorem Metered.pull_grant {supply : Supply τ σ} (m : Metered (Rationed supply)) {max : Nat}
    (less : (supply.draw m.source.state max).1.length < m.source.ration) (extra : Nat) :
    Source.pull (m.grant extra) max =
      { Source.pull m max with source := (Source.pull m max).source.grant extra } := by
  have hall := List.take_of_length_le (Nat.le_of_lt less)
  have hmore :=
    List.take_of_length_le
      (Nat.le_trans (Nat.le_of_lt less) (Nat.le_add_right m.source.ration extra))
  have hleft := Nat.sub_add_comm (m := extra) (Nat.le_of_lt less)
  simp only [Source.pull, grant, hall, hmore, hleft]

namespace Window

section

variable [Source τ σ] {w : Window τ σ}

theorem pullOnce_size_le (w : Window τ σ) : w.pullOnce.size ≤ w.size := by
  have hpulled := Source.size_pull_le w.source (w.capacity - w.staged.size)
  simp only [size, buffered, pullOnce_source, pullOnce_staged, pullOnce_cursor, Array.size_append,
    List.size_toArray]
  omega

theorem fill_size_le (depth rounds : Nat) (w : Window τ σ) :
    (fill depth rounds w).size ≤ w.size := by
  induction rounds generalizing w with
  | zero => exact Nat.le_refl _
  | succ rounds ih =>
    rw [fill]
    split
    · exact Nat.le_refl _
    · exact Nat.le_trans (ih w.pullOnce) w.pullOnce_size_le

/-- To look ahead brings no new symbols. -/
theorem look_size_le (w : Window τ σ) (depth : Nat) : (w.look depth).2.size ≤ w.size := by
  change (w.ensure depth).size ≤ w.size
  rw [ensure]
  split
  · exact Nat.le_refl _
  · have hbuffered : (w.compact.widen depth).buffered = w.buffered := by
      rw [← length_unread w, ← unread_compact, length_unread, buffered,
        (w.compact.widen_kept depth).2.2.1,
        (w.compact.widen_kept depth).2.2.2, buffered]
    have hsize : (w.compact.widen depth).size = w.size := by
      rw [size, hbuffered, (w.compact.widen_kept depth).1, w.compact_kept.1, size]
    exact hsize ▸ fill_size_le depth depth (w.compact.widen depth)

/-- One symbol that is seen and passed is one less. -/
theorem look_pass_size_lt {a : σ} {v : Window τ σ} (seen : w.look 1 = (some a, v)) :
    (v.pass 1).size < w.size := by
  have hle := w.look_size_le 1
  have hthere : v.staged[v.cursor]? = some a := by
    have hfound : (w.look 1).1 = some a := by rw [seen]
    simpa [look, show w.ensure 1 = v from congrArg Prod.snd seen] using hfound
  obtain ⟨hlt, -⟩ := Array.getElem?_eq_some_iff.mp hthere
  rw [seen] at hle
  simp only [size, buffered, pass] at hle ⊢
  omega

end

variable {supply : Supply τ σ} {w : Window (Metered (Rationed supply)) σ}

/-- What is left of the ration. -/
def ration (w : Window (Metered (Rationed supply)) σ) : Nat := w.source.source.ration

/-- The window with so much more of a ration. -/
def grant (w : Window (Metered (Rationed supply)) σ) (extra : Nat) :
    Window (Metered (Rationed supply)) σ :=
  { w with source := w.source.grant extra }

theorem grant_calls (w : Window (Metered (Rationed supply)) σ) (extra : Nat) :
    (w.grant extra).source.calls = w.source.calls := rfl

theorem grant_size (w : Window (Metered (Rationed supply)) σ) (extra : Nat) :
    (w.grant extra).size = w.size + extra := (Nat.add_assoc _ _ _).symm

theorem compact_grant (w : Window (Metered (Rationed supply)) σ) (extra : Nat) :
    (w.grant extra).compact = w.compact.grant extra := by
  by_cases hcursor : w.cursor = 0 <;> simp [compact, grant, hcursor]

theorem widen_grant (w : Window (Metered (Rationed supply)) σ) (depth extra : Nat) :
    (w.grant extra).widen depth = (w.widen depth).grant extra := by
  by_cases hgrows : w.capacity < depth <;> simp [widen, note, grant, hgrows]

theorem pullOnce_ration_le (w : Window (Metered (Rationed supply)) σ) :
    w.pullOnce.ration ≤ w.ration := by
  rw [ration, pullOnce_source]
  exact Nat.sub_le _ _

theorem fill_ration_le (depth rounds : Nat) (w : Window (Metered (Rationed supply)) σ) :
    (fill depth rounds w).ration ≤ w.ration := by
  induction rounds generalizing w with
  | zero => exact Nat.le_refl _
  | succ rounds ih =>
    rw [fill]
    split
    · exact Nat.le_refl _
    · exact Nat.le_trans (ih w.pullOnce) w.pullOnce_ration_le

/-- Nothing that is asked of a window adds to the ration. -/
theorem Leads.ration_le {v : Window (Metered (Rationed supply)) σ} {capacity : Nat}
    (h : w.Leads v capacity) :
    v.ration ≤ w.ration := by
  obtain ⟨⟨moves, horderly, rfl⟩, -⟩ := h
  refine moveAll_keeps (P := fun u => u.ration ≤ w.ration) ?_ (Nat.le_refl _) horderly
    (List.prefix_refl moves)
  intro u step hu _
  cases step with
  | compact => rwa [move, ration, u.compact_kept.1]
  | widen depth => rwa [move, ration, (u.widen_kept depth).1]
  | pull => exact Nat.le_trans u.pullOnce_ration_le hu
  | pass count => exact hu

/-- A pull that leaves some of the ration was not cut off. -/
theorem pullOnce_grant (left : 0 < w.pullOnce.ration) (extra : Nat) :
    (w.grant extra).pullOnce = w.pullOnce.grant extra := by
  have hless : (supply.draw w.source.source.state (w.capacity - w.staged.size)).1.length <
      w.source.source.ration := by
    rw [ration, pullOnce_source] at left
    exact Nat.lt_of_sub_pos left
  have hpull := Metered.pull_grant w.source hless extra
  simp only [pullOnce, grant, hpull]
  split <;> rfl

theorem fill_grant {depth rounds : Nat} (left : 0 < (fill depth rounds w).ration) (extra : Nat) :
    fill depth rounds (w.grant extra) = (fill depth rounds w).grant extra := by
  induction rounds generalizing w with
  | zero => rfl
  | succ rounds ih =>
    rw [fill] at left ⊢
    rw [fill]
    by_cases hdone : (w.exhausted || decide (depth ≤ w.staged.size)) = true
    · rw [if_pos hdone]
      exact if_pos hdone
    · rw [if_neg hdone] at left ⊢
      have hpulled := Nat.lt_of_lt_of_le left (fill_ration_le depth rounds w.pullOnce)
      rw [← ih left, ← pullOnce_grant hpulled]
      exact if_neg hdone

theorem ensure_grant {depth : Nat} (left : 0 < (w.ensure depth).ration) (extra : Nat) :
    (w.grant extra).ensure depth = (w.ensure depth).grant extra := by
  rw [ensure] at left ⊢
  rw [ensure]
  by_cases hdeep : depth ≤ w.buffered
  · rw [if_pos hdeep]
    exact if_pos hdeep
  · rw [if_neg hdeep] at left ⊢
    rw [← fill_grant left, ← widen_grant, ← compact_grant]
    exact if_neg hdeep

theorem look_grant {depth : Nat} {found : Option σ} {v : Window (Metered (Rationed supply)) σ}
    (seen : w.look depth = (found, v)) (left : 0 < v.ration) (extra : Nat) :
    (w.grant extra).look depth = (found, v.grant extra) := by
  obtain ⟨rfl, rfl⟩ := Prod.mk.inj seen
  have hensure := ensure_grant left extra
  simp only [look, hensure]
  rfl

theorem peek_grant {depth : Nat} {answer : Except Refusal (Option σ)}
    {v : Window (Metered (Rationed supply)) σ} (answered : w.peek depth = (answer, v))
    (left : 0 < v.ration) (extra : Nat) :
    (w.grant extra).peek depth = (answer, v.grant extra) := by
  by_cases hzero : depth = 0
  · subst hzero
    cases answered
    rfl
  by_cases hdeep : deepest < depth
  · rw [peek_deep _ hdeep] at answered ⊢
    cases answered
    rfl
  · rw [peek_eq hzero hdeep] at answered ⊢
    cases hseen : w.look depth with
    | mk found u =>
      rw [hseen] at answered
      cases answered
      rw [look_grant hseen left]

theorem read_grant {depth : Nat} (left : 0 < (w.read depth).2.ration) (extra : Nat) :
    (w.grant extra).read depth = ((w.read depth).1, (w.read depth).2.grant extra) := by
  rw [read] at left ⊢
  cases hfound : w.peek depth with
  | mk answer after =>
    have hleft : 0 < after.ration := by
      rw [hfound] at left
      rcases answer with refusal | _ | s <;> exact left
    rw [read, hfound, peek_grant hfound hleft]
    rcases answer with refusal | _ | s <;> rfl

/-- Read to the end with more of a ration, and with more rounds for it. -/
theorem collectAll_grant (sound : w.Sound) {rounds more : Nat} {all : List σ}
    (enough : w.size < rounds) (atLeast : rounds ≤ more)
    (left : 0 < (collectAll rounds all w).2.ration) (extra : Nat) :
    collectAll more all (w.grant extra) =
      ((collectAll rounds all w).1, (collectAll rounds all w).2.grant extra) := by
  induction rounds generalizing w more all with
  | zero => exact absurd enough (Nat.not_lt_zero _)
  | succ rounds ih =>
    obtain ⟨more, rfl⟩ : ∃ k, more = k + 1 := ⟨more - 1, by omega⟩
    have hlook := look_next_leads sound
    rw [collectAll] at left ⊢
    rw [collectAll]
    cases hseen : w.look 1 with
    | mk found v =>
      rw [hseen] at left hlook
      cases found with
      | none => rw [look_grant hseen left]
      | some s =>
        have hpassed := hlook.keeping (v.pass_leads 1)
        have hsound := hpassed.sound sound
        have hless := look_pass_size_lt hseen
        have hleft := Nat.lt_of_lt_of_le left (collectAll_leads hsound rounds (s :: all)).ration_le
        rw [look_grant hseen hleft]
        exact ih hsound (by omega) (by omega) left

variable [Symbol σ]

/-- Read a line with more of a ration, and with more rounds for it. -/
theorem collectLine_grant (sound : w.Sound) {rounds more : Nat} {line : List σ}
    (enough : w.size < rounds) (atLeast : rounds ≤ more)
    (left : 0 < (collectLine rounds line w).2.ration) (extra : Nat) :
    collectLine more line (w.grant extra) =
      ((collectLine rounds line w).1, (collectLine rounds line w).2.grant extra) := by
  induction rounds generalizing w more line with
  | zero => exact absurd enough (Nat.not_lt_zero _)
  | succ rounds ih =>
    obtain ⟨more, rfl⟩ : ∃ k, more = k + 1 := ⟨more - 1, by omega⟩
    have hlook := look_next_leads sound
    rw [collectLine] at left ⊢
    rw [collectLine]
    cases hseen : w.look 1 with
    | mk found v =>
      rw [hseen] at left hlook
      cases found with
      | none => rw [look_grant hseen left]
      | some s =>
        have hpassed := hlook.keeping (v.pass_leads 1)
        have hsound := hpassed.sound sound
        dsimp only at left ⊢
        by_cases hfeed : Symbol.isLineFeed s = true
        · rw [if_pos hfeed] at left ⊢
          rw [look_grant hseen left]
          exact if_pos hfeed
        by_cases hreturn : Symbol.isCarriageReturn s = true
        · have hagain := look_next_leads hsound
          rw [if_neg hfeed, if_pos hreturn] at left ⊢
          cases hnext : (v.pass 1).look 1 with
          | mk following u =>
            rw [hnext] at left hagain
            -- whether or not the line feed is passed, what is left is what the second look leaves
            have hu : 0 < u.ration := by
              rcases following with _ | t
              · exact left
              · dsimp only at left
                split at left <;> exact left
            have hsecond : ((v.grant extra).pass 1).look 1 = (following, u.grant extra) :=
              look_grant hnext hu extra
            rw [look_grant hseen (Nat.lt_of_lt_of_le hu hagain.ration_le)]
            dsimp only
            rw [if_neg hfeed, if_pos hreturn, hsecond]
            rcases following with _ | t
            · rfl
            · dsimp only
              split <;> rfl
        · rw [if_neg hfeed, if_neg hreturn] at left ⊢
          have hless := look_pass_size_lt hseen
          have hleft :=
            Nat.lt_of_lt_of_le left (collectLine_leads hsound rounds (s :: line)).ration_le
          rw [look_grant hseen hleft]
          dsimp only
          rw [if_neg hfeed, if_neg hreturn]
          exact ih hsound (by omega) (by omega) left

theorem serve_grant (sound : w.Sound) {request : Request} (left : 0 < (w.serve request).2.ration)
    (extra : Nat) :
    (w.grant extra).serve request = ((w.serve request).1, (w.serve request).2.grant extra) := by
  have hsize := w.grant_size extra
  cases request with
  | peek depth =>
    have hpeek : (w.grant extra).peek depth = ((w.peek depth).1, (w.peek depth).2.grant extra) :=
      peek_grant rfl left extra
    simp only [serve, hpeek]
  | read depth => simp only [serve, read_grant left]
  | readLine =>
    simp only [serve, readLine]
    rw [collectLine_grant sound (Nat.lt_succ_self _) (by omega) left]
  | readToEnd =>
    simp only [serve, readToEnd]
    rw [collectAll_grant sound (Nat.lt_succ_self _) (by omega) left]

/-- With more of a ration that was not used up, the same requests get the same answers. -/
theorem serveAll_grant (sound : w.Sound) {requests : List Request}
    (left : 0 < (w.serveAll requests).2.ration) (extra : Nat) :
    (w.grant extra).serveAll requests =
      ((w.serveAll requests).1, (w.serveAll requests).2.grant extra) := by
  induction requests generalizing w with
  | nil => rfl
  | cons request rest ih =>
    have hsound := (serve_leads sound request).sound sound
    have hrest : 0 < ((w.serve request).2.serveAll rest).2.ration := left
    have hserved := Nat.lt_of_lt_of_le hrest (serveAll_leads hsound rest).ration_le
    simp only [serveAll, serve_grant sound hserved, ih hsound hrest]

end Window

/-- The form of a window and its pulls. Before any source and after any requests, the capacity is
the greatest of 1, the initial one and the depths that were accepted. The way there is a list of
moves, and at each moment of it the cursor is within the staged symbols, these are within the
capacity, and what is staged already is not pulled for. Each pull is made for the room that is left
beside the unread symbols, and there is some. None comes after one that brought nothing. So the end
of the source is reported at most once, and each report of growth starts at the capacity that the
one before ended with.

All this holds of supplies without an end, as far as the requests come to one: where some of a
ration is left, any larger ration is opened as the same window, and the requests get the same
answers and leave the same window, with the same calls. -/
theorem pulls_fill_room [Symbol σ] (capacity : Nat) (requests : List Request) :
    (∀ {τ : Type} [Source τ σ] (source : τ) (window : Window (Metered τ) σ),
      Window.withCapacity (Metered.ofSource source) capacity = .ok window →
      let after := (window.serveAll requests).2
      after.capacity = (requests.filterMap Request.accepted).foldl max (max 1 capacity) ∧
      (∃ moves : List Window.Move, after = window.moveAll moves ∧
        (∀ before, before <+: moves →
          let now := window.moveAll before
          now.cursor ≤ now.staged.size ∧ now.staged.size ≤ now.capacity ∧
          ∀ depth, depth ≤ now.buffered → (now.look depth).2 = now ∧ (now.peek depth).2 = now ∧
            (now.read depth).2.source = now.source) ∧
        ∀ i call, after.source.calls[i]? = some call →
          ∃ before, before ++ [.pull] <+: moves ∧
            let now := window.moveAll before
            now.source.calls.size = i ∧ now.buffered < now.capacity ∧
            call.1 = now.capacity - now.buffered ∧ 1 ≤ call.1) ∧
      (∀ i call, after.source.calls[i]? = some call → call.2 = 0 →
        i + 1 = after.source.calls.size) ∧
      (Reticent source → exhaustions after.log ≤ 1 ∧
        Rises (max 1 capacity) (growths after.log) after.capacity)) ∧
    ∀ {τ : Type} (supply : Supply τ σ) (state : τ) (ration : Nat)
      (window : Window (Metered (Rationed supply)) σ),
      Window.withCapacity (Metered.ofSource ⟨state, ration⟩) capacity = .ok window →
      0 < (window.serveAll requests).2.ration → ∀ extra,
        Window.withCapacity (Metered.ofSource ⟨state, ration + extra⟩) capacity =
          .ok (window.grant extra) ∧
        (window.grant extra).serveAll requests =
          ((window.serveAll requests).1, (window.serveAll requests).2.grant extra) := by
  constructor
  · intro τ _ source window opened after
    have hstart := (Window.withCapacity_eq_ok.mp opened).2
    have hsound := Window.sound_withCapacity opened
    obtain ⟨⟨moves, horderly, hmoves⟩, hcapacity⟩ := Window.serveAll_leads hsound requests
    refine ⟨?_, ⟨moves, hmoves.symm, ?_, ?_⟩, ?_, ?_⟩
    · rwa [Window.capacity_withCapacity opened] at hcapacity
    · intro before hbefore now
      have hnow : now.Sound :=
        Window.moveAll_keeps (P := Window.Sound) (fun _ m h _ => Window.move_sound h m) hsound
          horderly hbefore
      exact ⟨hnow.cursor_le, hnow.size_le, fun depth h =>
        ⟨Window.look_of_le_buffered h, Window.peek_of_le_buffered h, Window.read_of_le_buffered h⟩⟩
    · intro i call hcall
      have hnone : window.source.calls.size = 0 := by rw [hstart]; rfl
      rw [show after = window.moveAll moves from hmoves.symm] at hcall
      obtain ⟨before, ⟨rest, rfl⟩, hi, hasked⟩ :=
        Window.call_of_moveAll window moves (by omega) hcall
      have hdue := (Window.orderly_append.mp (Window.orderly_append.mp horderly).1).2
      obtain ⟨⟨-, hcursor, hroom⟩, -⟩ := hdue
      have hbuffered := Window.buffered_of_cursor hcursor
      exact ⟨before, List.prefix_append _ rest, hi, by omega, by omega, by omega⟩
    · intro i call hcall hnone
      have hfresh : window.Spends := by
        rw [hstart]
        simp [Window.Spends, Metered.ofSource]
      exact (Window.serveAll_keeps Window.move_spends hsound hfresh requests i call hcall hnone).2
    · intro reticent
      have hfresh : window.Reports (max 1 capacity) := by
        rw [hstart]
        exact ⟨rfl, rfl, reticent.metered⟩
      have hreports := Window.serveAll_keeps Window.move_reports hsound hfresh requests
      refine ⟨?_, hreports.rises⟩
      rw [hreports.once]
      exact Bool.toNat_le _
  · intro τ supply state ration window opened left extra
    obtain ⟨storage, hstart⟩ := Window.withCapacity_eq_ok.mp opened
    refine ⟨Window.withCapacity_eq_ok.mpr ⟨storage, by rw [hstart]; rfl⟩, ?_⟩
    exact Window.serveAll_grant (Window.sound_withCapacity opened) left extra

/-- An endless supply before a window for one symbol. Two lookaheads widen it, a look that is
refused does not, and reading to the end goes on until the ration is used up. The lookaheads alone
leave some of it, so that they make the same calls before a ration that is larger by any number. -/
theorem pulls_fill_room_endless :
    let source : Metered (Rationed (Supply.endless 'a')) := .ofSource ⟨(), 4⟩
    let window : Window (Metered (Rationed (Supply.endless 'a'))) Char :=
      ⟨source, #[], 0, 1, false, #[]⟩
    let after := (window.serveAll [.peek 2, .read 3, .peek 0, .readToEnd]).2
    Window.withCapacity source 1 = .ok window ∧ after.capacity = 3 ∧ exhaustions after.log ≤ 1 ∧
      growths after.log = [(1, 2), (2, 3)] ∧
      after.source.calls = #[(2, 1), (1, 1), (1, 1), (3, 1), (3, 0)] ∧
      0 < (window.serveAll [.peek 2, .read 3]).2.ration ∧
      ∀ extra, ((window.grant extra).serveAll [.peek 2, .read 3]).2.source.calls =
        #[(2, 1), (1, 1), (1, 1)] := by
  intro source window after
  have opened : Window.withCapacity source 1 = .ok window := rfl
  have left : 0 < (window.serveAll [.peek 2, .read 3]).2.ration := by decide
  obtain ⟨hall, -⟩ := pulls_fill_room (σ := Char) 1 [.peek 2, .read 3, .peek 0, .readToEnd]
  obtain ⟨-, hendless⟩ := pulls_fill_room (σ := Char) 1 [.peek 2, .read 3]
  obtain ⟨hcapacity, -, -, hlog⟩ := hall _ window opened
  obtain ⟨honce, -⟩ := hlog ⟨fun _ => True, trivial, fun _ _ _ => ⟨nofun, trivial⟩⟩
  refine ⟨opened, hcapacity, honce, by decide, by decide, left, fun extra => ?_⟩
  have hcalls : (window.serveAll [.peek 2, .read 3]).2.source.calls =
      #[(2, 1), (1, 1), (1, 1)] := by
    decide
  rw [(hendless _ () 4 window opened left extra).2, Window.grant_calls, hcalls]

end Rewind
