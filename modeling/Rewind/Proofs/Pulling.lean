import Mathlib.Data.List.Induction
import Rewind.Proofs.Reading

/-!
# How a window pulls

Whatever is asked of a window, it makes four moves only: it drops what was read, it widens, it
pulls, and it passes symbols. A pull is due only in a window that has dropped what was read, that
has room, and whose source has not run dry. A request is a list of moves that are due one after
another (`serve_leads`), so what a due move keeps is kept by any requests, and holds at every moment
of them (`moveAll_keeps`): the cursor stays within the staged symbols and these within the capacity
(`move_sound`), no pull comes after one that brought nothing (`move_spends`), and the log tells how
the capacity came about (`move_reports`).
-/
namespace Rewind

variable {τ σ : Type}

/-- A supply of symbols, which need not come to an end. -/
structure Supply (τ σ : Type) where
  draw : τ → Nat → List σ × τ
  length_draw_le : ∀ s max, (draw s max).1.length ≤ max

/-- The same symbol for ever, one at a time. -/
def Supply.endless (a : σ) : Supply Unit σ where
  draw _ max := (List.replicate (min 1 max) a, ())
  length_draw_le _ max := by
    simp only [List.length_replicate]
    omega

/-- A supply that is cut off after so many symbols. What is asked of a window takes finitely
many symbols of its source if it comes to an end, and with a ration that is larger nothing of
it is cut off. -/
structure Rationed (supply : Supply τ σ) where
  state : τ
  ration : Nat

instance {supply : Supply τ σ} : Source (Rationed supply) σ where
  pull s max :=
    let drawn := supply.draw s.state max
    ⟨drawn.1.take s.ration, [], ⟨drawn.2, s.ration - drawn.1.length⟩⟩
  size s := s.ration
  length_pull_le s max :=
    Nat.le_trans (List.length_take_le' _ _) (supply.length_draw_le s.state max)
  size_pull_le s max := by
    simp only [List.length_take]
    omega

/-- The lookahead that a request asks for and is not refused. -/
def Request.accepted : Request → Option Nat
  | .peek depth | .read depth => if 1 ≤ depth ∧ depth ≤ Window.deepest then some depth else none
  | .readLine | .readToEnd => none

namespace Notice

/-- Where the window grew, its capacity before and after. -/
def growth : Notice → Option (Nat × Nat)
  | windowGrew before after => some (before, after)
  | _ => none

def isExhaustion : Notice → Bool
  | sourceExhausted _ => true
  | _ => false

end Notice

def growths (log : Array Notice) : List (Nat × Nat) := log.toList.filterMap Notice.growth

def exhaustions (log : Array Notice) : Nat := log.toList.countP Notice.isExhaustion

/-- A source that leaves it to the window to report on the window. -/
def Reticent [Source τ σ] (source : τ) : Prop :=
  ∃ quiet : τ → Prop, quiet source ∧ ∀ s, quiet s → ∀ max,
    (∀ notice ∈ (Source.pull s max).notices, notice.growth = none ∧ notice.isExhaustion = false) ∧
      quiet (Source.pull s max).source

/-- The steps lead from one number to the other, each up from where the one before ended. -/
def Rises (start : Nat) : List (Nat × Nat) → Nat → Prop
  | [], stop => start = stop
  | (before, after) :: rest, stop => before = start ∧ before < after ∧ Rises after rest stop

theorem Rises.append {start middle stop : Nat} {steps more : List (Nat × Nat)}
    (first : Rises start steps middle) (second : Rises middle more stop) :
    Rises start (steps ++ more) stop := by
  induction steps generalizing start with
  | nil =>
    cases first
    exact second
  | cons step rest ih =>
    obtain ⟨hstart, hup, hrest⟩ := first
    exact ⟨hstart, hup, ih hrest⟩

namespace Window

inductive Move where
  | compact
  | widen (depth : Nat)
  | pull
  | pass (count : Nat)

variable [Source τ σ]

def move (w : Window τ σ) : Move → Window τ σ
  | .compact => w.compact
  | .widen depth => w.widen depth
  | .pull => w.pullOnce
  | .pass count => w.pass count

def moveAll (w : Window τ σ) (moves : List Move) : Window τ σ := moves.foldl move w

/-- A window pulls only after it has dropped what was read, only into room that it has, and never
again after a pull that brought nothing. -/
def Due (w : Window τ σ) : Move → Prop
  | .pull => w.exhausted = false ∧ w.cursor = 0 ∧ w.staged.size < w.capacity
  | _ => True

/-- Each move is due when it is made. -/
def Orderly (w : Window τ σ) : List Move → Prop
  | [] => True
  | m :: rest => w.Due m ∧ (w.move m).Orderly rest

/-- The form of a window: what was passed is staged, and what is staged has room. -/
structure Sound (w : Window τ σ) : Prop where
  cursor_le : w.cursor ≤ w.staged.size
  size_le : w.staged.size ≤ w.capacity
  capacity_pos : 1 ≤ w.capacity

/-- Due moves lead from one window to the other, which has the given capacity. -/
structure Leads (w after : Window τ σ) (capacity : Nat) : Prop where
  orderly : ∃ moves, w.Orderly moves ∧ w.moveAll moves = after
  capacity_eq : after.capacity = capacity

variable {w v u : Window τ σ} {c : Nat}

theorem moveAll_append (w : Window τ σ) (first second : List Move) :
    w.moveAll (first ++ second) = (w.moveAll first).moveAll second := by
  simp [moveAll]

theorem orderly_append {first second : List Move} :
    w.Orderly (first ++ second) ↔ w.Orderly first ∧ (w.moveAll first).Orderly second := by
  induction first generalizing w with
  | nil => simp [Orderly, moveAll]
  | cons m rest ih => simp [Orderly, moveAll, ih, and_assoc]

/-- What each due move keeps holds at every moment of an orderly list of moves. -/
theorem moveAll_keeps {P : Window τ σ → Prop} (keeps : ∀ v m, P v → v.Due m → P (v.move m))
    {moves : List Move} (start : P w) (orderly : w.Orderly moves) {before : List Move}
    (h : before <+: moves) :
    P (w.moveAll before) := by
  obtain ⟨rest, rfl⟩ := h
  have hbefore := (orderly_append.mp orderly).1
  clear orderly
  induction before generalizing w with
  | nil => exact start
  | cons m before ih =>
    obtain ⟨hdue, hthen⟩ := hbefore
    exact ih (keeps w m start hdue) hthen

/-! ### What one pull does -/

theorem pullOnce_source (w : Window τ σ) :
    w.pullOnce.source = (Source.pull w.source (w.capacity - w.staged.size)).source := by
  simp only [pullOnce]
  split <;> rfl

theorem pullOnce_staged (w : Window τ σ) :
    w.pullOnce.staged = w.staged ++
      (Source.pull w.source (w.capacity - w.staged.size)).symbols.toArray := by
  simp only [pullOnce]
  split <;> rfl

theorem pullOnce_exhausted (w : Window τ σ) : w.pullOnce.exhausted =
    (w.exhausted || (Source.pull w.source (w.capacity - w.staged.size)).symbols.isEmpty) := by
  simp only [pullOnce]
  split <;> simp_all

theorem size_pullOnce_le (h : w.staged.size ≤ w.capacity) :
    w.pullOnce.staged.size ≤ w.capacity := by
  have hpulled := Source.length_pull_le w.source (w.capacity - w.staged.size)
  simp only [pullOnce_staged, Array.size_append, List.size_toArray]
  omega

theorem move_sound (sound : w.Sound) (m : Move) : (w.move m).Sound := by
  obtain ⟨hcursor, hsize, hpos⟩ := sound
  cases m with
  | compact =>
    have hcapacity := w.compact_kept.2.2
    have hless := w.size_compact_le
    exact ⟨by simp [move, compact_cursor], by simp only [move]; omega, by simp only [move]; omega⟩
  | widen depth =>
    obtain ⟨-, -, hsame, hstaged⟩ := w.widen_kept depth
    have hwide := w.widen_capacity depth
    constructor <;> simp only [move, hsame, hstaged, hwide] <;> omega
  | pull =>
    have hstaged := w.pullOnce_staged
    have hroom := size_pullOnce_le hsize
    constructor
    · simp only [move, pullOnce_cursor, hstaged, Array.size_append]
      omega
    · simpa only [move, pullOnce_capacity] using hroom
    · simpa only [move, pullOnce_capacity] using hpos
  | pass count => exact ⟨Nat.min_le_right _ _, hsize, hpos⟩

omit [Source τ σ] in
theorem sound_withCapacity [Stored σ] {source : τ} {capacity : Nat}
    (opened : withCapacity source capacity = .ok w) : w.Sound := by
  obtain ⟨-, rfl⟩ := withCapacity_eq_ok.mp opened
  exact ⟨Nat.le_refl _, Nat.zero_le _, Nat.le_max_left _ _⟩

/-! ### Requests are orderly lists of moves -/

theorem Leads.refl (w : Window τ σ) : w.Leads w w.capacity := ⟨⟨[], trivial, rfl⟩, rfl⟩

theorem Leads.trans {d : Nat} (first : w.Leads v c) (second : v.Leads u d) : w.Leads u d := by
  obtain ⟨⟨moves, horderly, rfl⟩, -⟩ := first
  obtain ⟨⟨more, hthen, rfl⟩, hcapacity⟩ := second
  exact ⟨⟨moves ++ more, orderly_append.mpr ⟨horderly, hthen⟩, w.moveAll_append moves more⟩,
    hcapacity⟩

/-- Moves that leave the capacity alone can come after any. -/
theorem Leads.keeping (first : w.Leads v c) (second : v.Leads u v.capacity) : w.Leads u c :=
  ⟨(first.trans second).orderly, second.capacity_eq.trans first.capacity_eq⟩

theorem Leads.sound (h : w.Leads v c) (sound : w.Sound) : v.Sound := by
  obtain ⟨⟨moves, horderly, rfl⟩, -⟩ := h
  exact moveAll_keeps (P := Sound) (fun _ m hsound _ => move_sound hsound m) sound horderly
    (List.prefix_refl moves)

theorem move_leads (w : Window τ σ) {m : Move} (due : w.Due m) :
    w.Leads (w.move m) (w.move m).capacity :=
  ⟨⟨[m], ⟨due, trivial⟩, rfl⟩, rfl⟩

theorem pass_leads (w : Window τ σ) (count : Nat) : w.Leads (w.pass count) w.capacity :=
  w.move_leads (m := .pass count) trivial

/-- The loop pulls while the window has less than is wanted, and then it has room. -/
theorem fill_leads {depth : Nat} (rounds : Nat) (cursor : w.cursor = 0)
    (wide : depth ≤ w.capacity) :
    w.Leads (fill depth rounds w) w.capacity := by
  induction rounds generalizing w with
  | zero => exact .refl w
  | succ rounds ih =>
    rw [fill]
    split
    · exact .refl w
    · rename_i hmore
      rw [Bool.or_eq_true, decide_eq_true_eq, not_or, Bool.not_eq_true] at hmore
      have hdue : w.Due .pull := ⟨hmore.1, cursor, by omega⟩
      have hcapacity := w.pullOnce_capacity
      have hpulled : w.Leads w.pullOnce w.capacity := by
        simpa only [move, hcapacity] using w.move_leads hdue
      exact hpulled.keeping (ih (w.pullOnce_cursor.trans cursor) (by omega))

/-- Growth is skipped where enough is staged. What is staged fits, so the capacity is then deep
enough already. -/
theorem look_leads (sound : w.Sound) (depth : Nat) :
    w.Leads (w.look depth).2 (max w.capacity depth) := by
  change w.Leads (w.ensure depth) _
  rw [ensure]
  by_cases hdeep : depth ≤ w.buffered
  · have hfits := sound.size_le
    have hsame : max w.capacity depth = w.capacity := by
      rw [buffered] at hdeep
      omega
    rw [if_pos hdeep, hsame]
    exact .refl w
  · rw [if_neg hdeep]
    have hcompact := w.move_leads (m := .compact) trivial
    have hwiden := w.compact.move_leads (m := .widen depth) trivial
    have hcapacity : (w.compact.widen depth).capacity = max w.capacity depth := by
      rw [widen_capacity, w.compact_kept.2.2]
    have hcursor : (w.compact.widen depth).cursor = 0 := by
      rw [(w.compact.widen_kept depth).2.2.1, compact_cursor]
    have hwide : depth ≤ (w.compact.widen depth).capacity := by
      rw [hcapacity]
      exact Nat.le_max_right _ _
    rw [← hcapacity]
    exact (hcompact.trans hwiden).keeping (fill_leads depth hcursor hwide)

theorem look_next_leads (sound : w.Sound) : w.Leads (w.look 1).2 w.capacity := by
  have hlook := look_leads sound 1
  rwa [Nat.max_eq_left sound.capacity_pos] at hlook

theorem peek_leads (sound : w.Sound) (depth : Nat) :
    w.Leads (w.peek depth).2 ((Request.peek depth).accepted.elim w.capacity (max w.capacity)) := by
  by_cases hzero : depth = 0
  · subst hzero
    exact .refl w
  by_cases hdeep : deepest < depth
  · rw [peek_deep w hdeep, Request.accepted, if_neg (by omega)]
    exact .refl w
  · rw [peek_eq hzero hdeep, Request.accepted, if_pos (by omega)]
    exact look_leads sound depth

theorem read_leads (sound : w.Sound) (depth : Nat) :
    w.Leads (w.read depth).2 ((Request.read depth).accepted.elim w.capacity (max w.capacity)) := by
  have hpeek := peek_leads sound depth
  rw [read]
  cases hfound : w.peek depth with
  | mk answer after =>
    rw [hfound] at hpeek
    cases answer with
    | error refusal => exact hpeek
    | ok found =>
      cases found with
      | none => exact hpeek
      | some s => exact hpeek.keeping (after.pass_leads depth)

theorem collectAll_leads (sound : w.Sound) (rounds : Nat) (all : List σ) :
    w.Leads (collectAll rounds all w).2 w.capacity := by
  induction rounds generalizing w all with
  | zero => exact .refl w
  | succ rounds ih =>
    have hlook := look_next_leads sound
    rw [collectAll]
    cases hseen : w.look 1 with
    | mk found v =>
      rw [hseen] at hlook
      cases found with
      | none => exact hlook
      | some s =>
        have hpassed := hlook.keeping (v.pass_leads 1)
        exact hpassed.keeping (ih (hpassed.sound sound) (s :: all))

variable [Symbol σ]

theorem collectLine_leads (sound : w.Sound) (rounds : Nat) (line : List σ) :
    w.Leads (collectLine rounds line w).2 w.capacity := by
  induction rounds generalizing w line with
  | zero => exact .refl w
  | succ rounds ih =>
    have hlook := look_next_leads sound
    rw [collectLine]
    cases hseen : w.look 1 with
    | mk found v =>
      rw [hseen] at hlook
      cases found with
      | none => exact hlook
      | some s =>
        have hpassed := hlook.keeping (v.pass_leads 1)
        dsimp only
        by_cases hfeed : Symbol.isLineFeed s = true
        · rw [if_pos hfeed]
          exact hpassed
        by_cases hreturn : Symbol.isCarriageReturn s = true
        · have hagain := hpassed.keeping (look_next_leads (hpassed.sound sound))
          rw [if_neg hfeed, if_pos hreturn]
          cases hnext : (v.pass 1).look 1 with
          | mk following v =>
            rw [hnext] at hagain
            cases following with
            | none => exact hagain
            | some t =>
              dsimp only
              split
              · exact hagain.keeping (v.pass_leads 1)
              · exact hagain
        · rw [if_neg hfeed, if_neg hreturn]
          exact hpassed.keeping (ih (hpassed.sound sound) (s :: line))

theorem serve_leads (sound : w.Sound) (request : Request) :
    w.Leads (w.serve request).2 (request.accepted.elim w.capacity (max w.capacity)) := by
  cases request with
  | peek depth => exact peek_leads sound depth
  | read depth => exact read_leads sound depth
  | readLine => exact collectLine_leads sound (w.size + 1) []
  | readToEnd => exact collectAll_leads sound (w.size + 1) []

/-- Any requests lead to the capacity that is the greatest of the one before and the depths that
were accepted. -/
theorem serveAll_leads (sound : w.Sound) (requests : List Request) :
    w.Leads (w.serveAll requests).2
      ((requests.filterMap Request.accepted).foldl max w.capacity) := by
  induction requests generalizing w with
  | nil => exact .refl w
  | cons request rest ih =>
    have hserved := serve_leads sound request
    have hrest := hserved.trans (ih (hserved.sound sound))
    change w.Leads ((w.serve request).2.serveAll rest).2 _
    cases hasked : request.accepted <;> simpa [hserved.capacity_eq, hasked] using hrest

/-- What each due move keeps, any requests keep. -/
theorem serveAll_keeps {P : Window τ σ → Prop} (keeps : ∀ v m, P v → v.Due m → P (v.move m))
    (sound : w.Sound) (start : P w) (requests : List Request) : P (w.serveAll requests).2 := by
  obtain ⟨⟨moves, horderly, hmoves⟩, -⟩ := serveAll_leads sound requests
  rw [← hmoves]
  exact moveAll_keeps keeps start horderly (List.prefix_refl moves)

/-! ### The account of the pulls -/

section

omit [Symbol σ]

/-- Only the last pull may have brought nothing, and then the window knows. -/
def Spends (w : Window (Metered τ) σ) : Prop :=
  ∀ i call, w.source.calls[i]? = some call → call.2 = 0 → w.exhausted = true ∧
  i + 1 = w.source.calls.size

theorem calls_pullOnce (w : Window (Metered τ) σ) : w.pullOnce.source.calls =
    w.source.calls.push (w.capacity - w.staged.size,
      (Source.pull w.source (w.capacity - w.staged.size)).symbols.length) := by
  rw [pullOnce_source]
  rfl

theorem calls_move (w : Window (Metered τ) σ) {step : Move} (other : step ≠ .pull) :
    (w.move step).source.calls = w.source.calls := by
  cases step with
  | compact => rw [move, w.compact_kept.1]
  | widen depth => rw [move, (w.widen_kept depth).1]
  | pull => exact absurd rfl other
  | pass count => rfl

theorem exhausted_move (w : Window τ σ) {step : Move} (other : step ≠ .pull) :
    (w.move step).exhausted = w.exhausted := by
  cases step with
  | compact => exact w.compact_kept.2.1
  | widen depth => exact (w.widen_kept depth).2.1
  | pull => exact absurd rfl other
  | pass count => rfl

theorem move_spends (w : Window (Metered τ) σ) (step : Move) (spends : w.Spends)
    (due : w.Due step) :
    (w.move step).Spends := by
  intro i call hcall hnone
  by_cases hpull : step = .pull
  · subst hpull
    obtain ⟨hmore, -, -⟩ := due
    simp only [move, calls_pullOnce, pullOnce_exhausted, Array.size_push] at hcall ⊢
    by_cases hi : i = w.source.calls.size
    · subst hi
      obtain rfl : _ = call := by simpa using hcall
      exact ⟨by simp [List.eq_nil_of_length_eq_zero hnone], rfl⟩
    · -- an earlier pull that brought nothing would have left the window exhausted
      rw [Array.getElem?_push, if_neg hi] at hcall
      obtain ⟨hover, -⟩ := spends i call hcall hnone
      rw [hmore] at hover
      cases hover
  · rw [calls_move w hpull] at hcall ⊢
    rw [exhausted_move w hpull]
    exact spends i call hcall hnone

/-- Each call that was accounted for was made by a pull among the moves, for the room
that there was. -/
theorem call_of_moveAll (w : Window (Metered τ) σ) (moves : List Move) {i : Nat} {call : Nat × Nat}
    (later : w.source.calls.size ≤ i) (h : (w.moveAll moves).source.calls[i]? = some call) :
    ∃ before, before ++ [.pull] <+: moves ∧ (w.moveAll before).source.calls.size = i ∧
      call.1 = (w.moveAll before).capacity - (w.moveAll before).staged.size := by
  induction moves using List.reverseRecOn with
  | nil =>
    obtain ⟨hlt, -⟩ := Array.getElem?_eq_some_iff.mp h
    exact absurd hlt (Nat.not_lt.mpr later)
  | append_singleton moves step ih =>
    have hwiden : ∀ before : List Move, before ++ [Move.pull] <+: moves →
        before ++ [Move.pull] <+: moves ++ [step] :=
      fun before hprefix => hprefix.trans (List.prefix_append moves [step])
    rw [moveAll_append] at h
    change ((w.moveAll moves).move step).source.calls[i]? = some call at h
    by_cases hpull : step = .pull
    · subst hpull
      rw [move, calls_pullOnce, Array.getElem?_push] at h
      by_cases hi : i = (w.moveAll moves).source.calls.size
      · rw [if_pos hi] at h
        obtain rfl := Option.some.inj h
        exact ⟨moves, List.prefix_refl _, hi.symm, rfl⟩
      · rw [if_neg hi] at h
        obtain ⟨before, hprefix, hrest⟩ := ih h
        exact ⟨before, hwiden before hprefix, hrest⟩
    · rw [calls_move _ hpull] at h
      obtain ⟨before, hprefix, hrest⟩ := ih h
      exact ⟨before, hwiden before hprefix, hrest⟩

/-! ### The account of the log -/

/-- The window has reported how it came to its capacity, and that the source ran dry if it did. -/
structure Reports (start : Nat) (w : Window τ σ) : Prop where
  rises : Rises start (growths w.log) w.capacity
  once : exhaustions w.log = w.exhausted.toNat
  reticent : Reticent w.source

omit [Source τ σ] in
theorem log_compact (w : Window τ σ) : w.compact.log = w.log := by
  by_cases hcursor : w.cursor = 0 <;> simp [compact, hcursor]

theorem log_pullOnce (w : Window τ σ) : w.pullOnce.log =
    w.log ++ (Source.pull w.source (w.capacity - w.staged.size)).notices.toArray ++
      if (Source.pull w.source (w.capacity - w.staged.size)).symbols.isEmpty then
        #[.sourceExhausted w.pullOnce.staged.size]
      else #[] := by
  simp only [pullOnce]
  split <;> simp [note]

theorem growths_append (log more : Array Notice) :
    growths (log ++ more) = growths log ++ growths more := by
  simp [growths]

theorem exhaustions_append (log more : Array Notice) :
    exhaustions (log ++ more) = exhaustions log + exhaustions more := by
  simp [exhaustions]

/-- What a reticent source reports adds nothing to either account. -/
theorem reticent_pull {source : τ} (reticent : Reticent source) (max : Nat) :
    growths (Source.pull source max).notices.toArray = [] ∧
      exhaustions (Source.pull source max).notices.toArray = 0 ∧
      Reticent (Source.pull source max).source := by
  obtain ⟨quiet, hquiet, hkeeps⟩ := reticent
  obtain ⟨hnotices, hafter⟩ := hkeeps source hquiet max
  refine ⟨List.filterMap_eq_nil_iff.mpr fun notice h =>
    (hnotices notice h).1, ?_, quiet, hafter, hkeeps⟩
  rw [exhaustions, List.countP_eq_zero]
  intro notice h
  simp [(hnotices notice h).2]

theorem move_reports {start : Nat} (w : Window τ σ) (step : Move) (reports : w.Reports start)
    (due : w.Due step) :
    (w.move step).Reports start := by
  obtain ⟨hrises, honce, hreticent⟩ := reports
  cases step with
  | compact =>
    obtain ⟨hsource, hexhausted, hcapacity⟩ := w.compact_kept
    constructor <;> simpa only [move, log_compact, hsource, hexhausted, hcapacity]
  | widen depth =>
    by_cases hgrows : w.capacity < depth
    · have hwidened : w.widen depth = { w.note (.windowGrew w.capacity depth) with
          capacity := depth } := if_pos hgrows
      rw [move, hwidened]
      refine ⟨?_, ?_, hreticent⟩
      · have hstep : Rises w.capacity [(w.capacity, depth)] depth := ⟨rfl, hgrows, rfl⟩
        simpa [note, growths, Notice.growth] using hrises.append hstep
      · simpa [note, exhaustions, Notice.isExhaustion] using honce
    · have hkept : w.widen depth = w := if_neg hgrows
      rw [move, hkept]
      exact ⟨hrises, honce, hreticent⟩
  | pull =>
    obtain ⟨hmore, -, -⟩ := due
    obtain ⟨hgrowths, hexhaustions, hafter⟩ := reticent_pull hreticent (w.capacity - w.staged.size)
    rw [hmore] at honce
    refine ⟨?_, ?_, by rwa [move, pullOnce_source]⟩
    · rw [move, log_pullOnce, pullOnce_capacity, growths_append, growths_append, hgrowths,
        List.append_nil]
      split <;> simpa [growths, List.filterMap_cons, Notice.growth] using hrises
    · rw [move, log_pullOnce, pullOnce_exhausted, exhaustions_append, exhaustions_append,
        hexhaustions, honce, hmore]
      cases (Source.pull w.source (w.capacity - w.staged.size)).symbols.isEmpty <;>
        simp [exhaustions, Notice.isExhaustion]
  | pass count => exact ⟨hrises, honce, hreticent⟩

/-! ### What is staged already -/

/-- What is there already is not pulled for. -/
theorem look_of_le_buffered {depth : Nat} (h : depth ≤ w.buffered) : (w.look depth).2 = w :=
  if_pos h

theorem peek_of_le_buffered {depth : Nat} (h : depth ≤ w.buffered) : (w.peek depth).2 = w := by
  by_cases hzero : depth = 0
  · rw [hzero, peek_zero]
  by_cases hdeep : deepest < depth
  · rw [peek_deep w hdeep]
  · rw [peek_eq hzero hdeep, look_of_le_buffered h]

theorem read_of_le_buffered {depth : Nat} (h : depth ≤ w.buffered) :
    (w.read depth).2.source = w.source := by
  have hpeek := peek_of_le_buffered h
  rw [read]
  cases hfound : w.peek depth with
  | mk answer after =>
    rw [hfound] at hpeek
    cases hpeek
    rcases answer with refusal | _ | s <;> rfl

end

end Window

theorem Reticent.metered [Source τ σ] {source : τ} (reticent : Reticent source) :
    Reticent (Metered.ofSource source) := by
  obtain ⟨quiet, hquiet, hkeeps⟩ := reticent
  exact ⟨fun m => quiet m.source, hquiet, fun m hm max => hkeeps m.source hm max⟩

end Rewind
