import Rewind.Cell

/-!
# Values that are computed at most once

A delayed value starts as its task or as the value itself. From outside it is forced, asked whether
it has been forced, and shown, in any order, and while its task runs the task can force it or ask
about it as well (`Use`, `Cell.Task`).

The task never finds anything in its own cell (`run_spent`), so what it comes to is settled before
it is started (`Task.alone`). A cell whose task has been started holds the value, or it holds
nothing and the task has failed (`Origin.Explains`). From there on nothing changes any more. The
main theorem is `delayed_computed_once`.
-/
namespace Rewind.Cell

variable {α : Type}

/-! ## Tasks and their own cells -/

/-- What a task comes to that is told its own cell is not forced, and cannot force it. -/
def Task.alone : Task α → Except Fault α
  | value a => .ok a
  | raise message => .error (.raised message)
  | force _ => .error .forcedWhileComputing
  | probe next => (next false).alone

theorem run_spent (task : Task α) : task.run spent = task.alone := by
  induction task with
  | value | raise | force => rfl
  | probe next ih => exact ih false

/-! ## Cells in use -/

inductive Use where
  | force
  | probe
  | describe

/-- A force gives the value or panics with a message. -/
inductive Reply (α : Type) where
  | forced (result : Except String α)
  | probed (computed : Bool)
  | described (text : String)

/-- A cell, how often its task has been started, and what it has replied so far. -/
structure Watch (α : Type) where
  cell : Cell (Task α) α
  starts : Nat
  replies : List (Reply α)

/-- How a cell is made. -/
inductive Origin (α : Type) where
  | new (task : Task α)
  | ready (value : α)

def Origin.watch : Origin α → Watch α
  | new task => ⟨pending task, 0, []⟩
  | ready a => ⟨.ready a, 0, []⟩

section

variable [Describe α]

def Watch.use (watch : Watch α) : Use → Watch α
  | .force =>
    let forced := watch.cell.force
    let result := forced.result.mapError Fault.message
    ⟨forced.cell, watch.starts + forced.started.toNat, watch.replies ++ [.forced result]⟩
  | .probe => { watch with replies := watch.replies ++ [.probed watch.cell.isForced] }
  | .describe => { watch with replies := watch.replies ++ [.described (describe watch.cell)] }

def Watch.useAll (watch : Watch α) (uses : List Use) : Watch α :=
  uses.foldl use watch

/-- The replies of a cell that holds a value. -/
def answer (a : α) : Use → Reply α
  | .force => .forced (.ok a)
  | .probe => .probed true
  | .describe => .described (Describe.tagged "Delayed" (describe a))

/-- The replies of a cell that has lost its task. -/
def refusal : Use → Reply α
  | .force => .forced (.error "delayed value forced while it was being computed")
  | .probe => .probed false
  | .describe => .described "Delayed(<pending>)"

theorem use_ready {watch : Watch α} {a : α} (holds : watch.cell = .ready a) (u : Use) :
    watch.use u = { watch with replies := watch.replies ++ [answer a u] } := by
  cases watch
  cases holds
  cases u <;> rfl

theorem use_spent {watch : Watch α} (lost : watch.cell = spent) (u : Use) :
    watch.use u = { watch with replies := watch.replies ++ [refusal u] } := by
  cases watch
  cases lost
  cases u <;> rfl

/-- A cell that every use leaves as it is replies to all of them in the same way. -/
theorem useAll_settled {cell : Cell (Task α) α} {reply : Use → Reply α}
    (settled : ∀ watch : Watch α, watch.cell = cell → ∀ u,
      watch.use u = { watch with replies := watch.replies ++ [reply u] })
    {watch : Watch α} (holds : watch.cell = cell) (uses : List Use) :
    watch.useAll uses = { watch with replies := watch.replies ++ uses.map reply } := by
  induction uses generalizing watch with
  | nil => simp [Watch.useAll]
  | cons u uses ih =>
    have hnext := settled watch holds u
    change (watch.use u).useAll uses = _
    rw [ih (by rw [hnext]; exact holds), hnext]
    simp

/-- Whether a cell has been forced shows in its replies. -/
theorem exists_forced_useAll (watch : Watch α) (uses : List Use) :
    (∃ result, .forced result ∈ (watch.useAll uses).replies) ↔
      (∃ result, .forced result ∈ watch.replies) ∨ .force ∈ uses := by
  induction uses generalizing watch with
  | nil => simp [Watch.useAll]
  | cons u uses ih =>
    change (∃ result, .forced result ∈ ((watch.use u).useAll uses).replies) ↔ _
    rw [ih]
    cases u <;> simp [Watch.use]

omit [Describe α] in
/-- The force that starts the task. -/
theorem force_pending (task : Task α) : (pending task).force = match task.alone with
    | .ok a => ⟨.ok a, true, .ready a⟩
    | .error fault => ⟨.error fault, true, spent⟩ := by
  rw [← run_spent]
  rfl

end

/-! ## What a cell holds -/

/-- How a cell that was made in this way comes to hold what it does. -/
inductive Origin.Explains : Origin α → Watch α → Prop
  | given (a : α) {replies : List (Reply α)} :
    (∀ result, .forced result ∈ replies → result = .ok a) →
      Explains (.ready a) ⟨.ready a, 0, replies⟩
  | unforced (task : Task α) {replies : List (Reply α)} : (∀ result, .forced result ∉ replies) →
      Explains (.new task) ⟨pending task, 0, replies⟩
  | computed {task : Task α} {a : α} {replies : List (Reply α)} : .forced (.ok a) ∈ replies →
      (∀ result, .forced result ∈ replies → result = .ok a) →
      Explains (.new task) ⟨.ready a, 1, replies⟩
  | failed {task : Task α} {message : String} {replies : List (Reply α)} :
    .forced (.error message) ∈ replies →
      (∀ a, .forced (.ok a) ∉ replies) → Explains (.new task) ⟨spent, 1, replies⟩

namespace Origin.Explains

variable [Describe α] {origin : Origin α} {watch : Watch α}

omit [Describe α] in
theorem start (origin : Origin α) : origin.Explains origin.watch := by
  cases origin with
  | new task => exact unforced task (by simp)
  | ready a => exact given a (by simp)

theorem forced_answer {a : α} {replies : List (Reply α)}
    (same : ∀ result, .forced result ∈ replies → result = .ok a) (u : Use) :
    ∀ result, .forced result ∈ replies ++ [answer a u] → result = .ok a := by
  intro result mem
  rcases List.mem_append.mp mem with hold | hnew
  · exact same result hold
  · cases u <;> simp_all [answer]

/-- A cell that has been asked once more still holds what it holds for one of these reasons. -/
theorem use (explains : origin.Explains watch) (u : Use) : origin.Explains (watch.use u) := by
  cases explains with
  | given a same =>
    rw [use_ready rfl]
    exact given a (forced_answer same u)
  | computed there same =>
    rw [use_ready rfl]
    exact computed (List.mem_append_left _ there) (forced_answer same u)
  | failed there none =>
    rw [use_spent rfl]
    exact failed (List.mem_append_left _ there) fun a => by cases u <;> simp [refusal, none a]
  | unforced task none =>
    cases u with
    | force =>
      rw [Watch.use, force_pending]
      cases task.alone with
      | ok a =>
        refine computed (List.mem_append_right _ (List.mem_singleton_self _)) ?_
        rintro result mem
        rcases List.mem_append.mp mem with hold | hnew
        · exact absurd hold (none result)
        · cases List.mem_singleton.mp hnew
          rfl
      | error fault =>
        refine failed (List.mem_append_right _ (List.mem_singleton_self _)) ?_
        rintro a mem
        rcases List.mem_append.mp mem with hold | hnew
        · exact none _ hold
        · cases List.mem_singleton.mp hnew
    | probe | describe => exact unforced task (by simp [none])

theorem useAll (explains : origin.Explains watch) (uses : List Use) :
    origin.Explains (watch.useAll uses) := by
  induction uses generalizing watch with
  | nil => exact explains
  | cons u uses ih => exact ih (explains.use u)

omit [Describe α] in
theorem ready_of_forced (explains : origin.Explains watch) {a : α}
    (mem : .forced (.ok a) ∈ watch.replies) :
    watch.cell = .ready a := by
  cases explains with
  | given b same | computed there same =>
    cases same _ mem
    rfl
  | unforced task none => exact absurd mem (none _)
  | failed there none => exact absurd mem (none a)

omit [Describe α] in
theorem spent_of_forced (explains : origin.Explains watch) {message : String}
    (mem : .forced (.error message) ∈ watch.replies) : watch.cell = spent := by
  cases explains with
  | given b same | computed there same => cases same _ mem
  | unforced task none => exact absurd mem (none _)
  | failed there none => rfl

omit [Describe α] in
theorem starts_le (explains : origin.Explains watch) : watch.starts ≤ 1 := by
  cases explains <;> simp

omit [Describe α] in
theorem isForced_iff (explains : origin.Explains watch) :
    watch.cell.isForced = true ↔ (∃ a, origin = .ready a) ∨
    ∃ a, .forced (.ok a) ∈ watch.replies := by
  cases explains with
  | given a same => simp [isForced]
  | unforced task none | failed there none => simp [isForced, none]
  | @computed task a replies there same => simpa [isForced] using ⟨a, there⟩

omit [Describe α] in
/-- The first force starts the task. -/
theorem starts_eq_one_iff {task : Task α} (explains : (Origin.new task).Explains watch) :
    watch.starts = 1 ↔ ∃ result, .forced result ∈ watch.replies := by
  cases explains with
  | unforced task none => simp [none]
  | computed there same | failed there none => simpa using ⟨_, there⟩

theorem force_first {task : Task α} (explains : (Origin.new task).Explains watch)
    (first : ∀ result, .forced result ∉ watch.replies) :
    (watch.use .force).replies = watch.replies ++
      [.forced (task.alone.mapError Fault.message)] := by
  cases explains with
  | computed there same | failed there none => exact absurd there (first _)
  | unforced task none =>
    rw [Watch.use, force_pending]
    cases task.alone <;> rfl

end Origin.Explains

/-- Whatever is done to a delayed value from outside, and whatever its task does with it: the task
is started at most once, by the first force, and comes to what it comes to if it finds its own cell
not forced. All forces that return give one value. The cell is forced exactly if it was made with
its value or a force has returned. Once a force has returned, the cell replies with that value for
good; once a force has failed, it refuses for good, and stays unforced. -/
theorem delayed_computed_once [Describe α] (origin : Origin α) (uses : List Use) :
    let watch := origin.watch.useAll uses
    watch.starts ≤ 1 ∧
    (∀ task, origin = .new task → (watch.starts = 1 ↔ .force ∈ uses) ∧
      (.force ∉ uses →
        (watch.use .force).replies = watch.replies ++
          [.forced (task.alone.mapError Fault.message)])) ∧
    (∀ a b, .forced (.ok a) ∈ watch.replies → .forced (.ok b) ∈ watch.replies → a = b) ∧
    (watch.cell.isForced = true ↔ (∃ a, origin = .ready a) ∨ ∃ a, .forced (.ok a) ∈ watch.replies) ∧
    ∀ later,
      (∀ a, .forced (.ok a) ∈ watch.replies →
        (watch.useAll later).replies = watch.replies ++ later.map (answer a)) ∧
      ∀ message, .forced (.error message) ∈ watch.replies →
        (watch.useAll later).cell.isForced = false ∧
        (watch.useAll later).replies = watch.replies ++ later.map refusal := by
  intro watch
  have hexplains : origin.Explains watch := (Origin.Explains.start origin).useAll uses
  refine ⟨hexplains.starts_le, ?_, ?_, hexplains.isForced_iff, ?_⟩
  · rintro task rfl
    have hnone : ¬ ∃ result, .forced result ∈ (Origin.new task).watch.replies := by
      simp [Origin.watch]
    have hforced := (exists_forced_useAll (Origin.new task).watch uses).trans (or_iff_right hnone)
    refine ⟨hexplains.starts_eq_one_iff.trans hforced, ?_⟩
    intro first
    exact hexplains.force_first fun result mem => first (hforced.mp ⟨result, mem⟩)
  · rintro a b ha hb
    have hsame := (hexplains.ready_of_forced ha).symm.trans (hexplains.ready_of_forced hb)
    cases hsame
    rfl
  · intro later
    constructor
    · intro a ha
      rw [useAll_settled (fun _ => use_ready) (hexplains.ready_of_forced ha)]
    · intro message hmessage
      have hlost := hexplains.spent_of_forced hmessage
      rw [useAll_settled (fun _ => use_spent) hlost]
      exact ⟨by rw [hlost, isForced], rfl⟩

end Rewind.Cell
