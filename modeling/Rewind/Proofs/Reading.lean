import Mathlib.Algebra.Group.Nat.Defs
import Rewind.Proofs.Lookahead

/-!
# Reading through a window

A tape is a list with a cursor: what stands before the cursor has been passed, the rest is unread. A
tape has no window and no source. Whatever is asked of a window before an honest source, one request
after another, is answered as the tape answers it (`serveAll_eq_tape`), and what the window has
passed, what is unread in it and what the source still has make up the list.
-/
namespace Rewind

/-- What can be asked of a window. -/
inductive Request where
  | peek (depth : Nat)
  | read (depth : Nat)
  | readLine
  | readToEnd

/-- What a request is answered with. -/
inductive Reading (σ : Type) where
  | one (found : Except Refusal (Option σ))
  | many (symbols : List σ)

variable {τ σ : Type}

namespace Window

variable [Source τ σ] [Symbol σ]

def serve (w : Window τ σ) : Request → Reading σ × Window τ σ
  | .peek depth => match w.peek depth with | (found, w) => (.one found, w)
  | .read depth => match w.read depth with | (found, w) => (.one found, w)
  | .readLine => match w.readLine with | (line, w) => (.many line, w)
  | .readToEnd => match w.readToEnd with | (all, w) => (.many all, w)

/-- Serves requests in order. -/
def serveAll (w : Window τ σ) : List Request → List (Reading σ) × Window τ σ
  | [] => ([], w)
  | request :: rest =>
    match w.serve request with
    | (answer, w) => match w.serveAll rest with | (answers, w) => (answer :: answers, w)

end Window

structure Tape (σ : Type) where
  passed : List σ
  unread : List σ

namespace Tape

def ofList (x : List σ) : Tape σ := ⟨[], x⟩

def pass (t : Tape σ) (count : Nat) : Tape σ :=
  ⟨t.passed ++ t.unread.take count, t.unread.drop count⟩

def peek (t : Tape σ) (depth : Nat) : Except Refusal (Option σ) :=
  if depth = 0 then .error .zeroLookahead
  else if Window.deepest < depth then .error (.lookaheadTooDeep depth)
  else .ok t.unread[depth - 1]?

/-- The number of symbols that a read passes: all up to the one that it finds. -/
def passedByRead (t : Tape σ) (depth : Nat) : Nat :=
  match t.peek depth with
  | .ok (some _) => depth
  | _ => 0

variable [Symbol σ]

def endsLine (s : σ) : Bool := Symbol.isLineFeed s || Symbol.isCarriageReturn s

/-- The symbols before the first terminator. -/
def line (x : List σ) : List σ := x.takeWhile (!endsLine ·)

/-- The number of symbols of the terminator that a list begins with. -/
def terminator : List σ → Nat
  | [] => 0
  | a :: rest => if Symbol.isCarriageReturn a && rest.head?.any Symbol.isLineFeed then 2 else 1

/-- The number of symbols of the first line and its terminator. -/
def passedByLine (x : List σ) : Nat := (line x).length + terminator (x.drop (line x).length)

def serve (t : Tape σ) : Request → Reading σ × Tape σ
  | .peek depth => (.one (t.peek depth), t)
  | .read depth => (.one (t.peek depth), t.pass (t.passedByRead depth))
  | .readLine => (.many (line t.unread), t.pass (passedByLine t.unread))
  | .readToEnd => (.many t.unread, t.pass t.unread.length)

def serveAll (t : Tape σ) : List Request → List (Reading σ) × Tape σ
  | [] => ([], t)
  | request :: rest =>
    match t.serve request with
    | (answer, t) => match t.serveAll rest with | (answers, t) => (answer :: answers, t)

omit [Symbol σ] in
theorem whole_pass (t : Tape σ) (count : Nat) :
    (t.pass count).passed ++ (t.pass count).unread = t.passed ++ t.unread := by
  simp [pass]

theorem whole_serve (t : Tape σ) (request : Request) :
    (t.serve request).2.passed ++ (t.serve request).2.unread = t.passed ++ t.unread := by
  cases request with
  | peek depth => rfl
  | read depth => exact t.whole_pass _
  | readLine => exact t.whole_pass _
  | readToEnd => exact t.whole_pass _

theorem whole_serveAll (t : Tape σ) (requests : List Request) :
    (t.serveAll requests).2.passed ++ (t.serveAll requests).2.unread = t.passed ++ t.unread := by
  induction requests generalizing t with
  | nil => rfl
  | cons request rest ih => exact (ih (t.serve request).2).trans (t.whole_serve request)

theorem passedByLine_feed {a : σ} (feed : Symbol.isLineFeed a = true) (x : List σ) :
    line (a :: x) = [] ∧ passedByLine (a :: x) = 1 := by
  have hother : Symbol.isCarriageReturn a = false := by
    have heq : a = Symbol.lineFeed := of_decide_eq_true feed
    simp [Symbol.isCarriageReturn, heq, Symbol.lineFeed_ne_carriageReturn]
  simp [line, passedByLine, terminator, endsLine, feed, hother]

theorem passedByLine_return {a : σ} (ret : Symbol.isCarriageReturn a = true) (x : List σ) :
    line (a :: x) = [] ∧
      passedByLine (a :: x) = if x.head?.any Symbol.isLineFeed then 2 else 1 := by
  simp [line, passedByLine, terminator, endsLine, ret]

theorem passedByLine_plain {a : σ} (feed : ¬ Symbol.isLineFeed a = true)
    (ret : ¬ Symbol.isCarriageReturn a = true) (x : List σ) :
    line (a :: x) = a :: line x ∧ passedByLine (a :: x) = passedByLine x + 1 := by
  have hline : line (a :: x) = a :: line x := by simp [line, endsLine, feed, ret]
  refine ⟨hline, ?_⟩
  rw [passedByLine, passedByLine, hline, List.length_cons, List.drop_succ_cons]
  omega

end Tape

section

variable [Source τ σ] {left : τ → List σ → Prop}

/-- Pulled for one symbol, a source hands out the next one. -/
theorem Serves.pull_cons (serves : Serves left) {source : τ} {a : σ} {rest : List σ}
    (h : left source (a :: rest)) :
    (Source.pull source 1).symbols = [a] ∧ left (Source.pull source 1).source rest := by
  obtain ⟨n, hn, hsome, hsymbols, hleft⟩ := serves source (a :: rest) h 1 (Nat.le_refl 1)
  have hone : n = 1 := by
    have := hsome (List.cons_ne_nil a rest)
    omega
  subst hone
  exact ⟨hsymbols, hleft⟩

theorem Serves.pull_nil (serves : Serves left) {source : τ} (h : left source []) :
    (Source.pull source 1).symbols = [] := by
  obtain ⟨n, -, -, hsymbols, -⟩ := serves source [] h 1 (Nat.le_refl 1)
  simpa using hsymbols

/-- A source has no more symbols than its size says. -/
theorem Serves.length_le_size (serves : Serves left) {x : List σ} {source : τ} (h : left source x) :
    x.length ≤ Source.size source := by
  induction x generalizing source with
  | nil => exact Nat.zero_le _
  | cons a rest ih =>
    obtain ⟨hsymbols, hleft⟩ := serves.pull_cons h
    have hsize := Source.size_pull_le source 1
    have hrest := ih hleft
    rw [hsymbols] at hsize
    simp only [List.length_cons, List.length_nil] at hsize ⊢
    omega

/-- A source is honest for one list only. -/
theorem Honest.unique {x y : List σ} {source : τ} (hx : Honest source x) (hy : Honest source y) :
    y = x := by
  induction x generalizing y source with
  | nil =>
    have hnone := serves_honest.pull_nil hx
    cases y with
    | nil => rfl
    | cons b more =>
      obtain ⟨hsome, -⟩ := serves_honest.pull_cons hy
      simp [hnone] at hsome
  | cons a rest ih =>
    obtain ⟨hfirst, hrest⟩ := serves_honest.pull_cons hx
    cases y with
    | nil =>
      have hnone := serves_honest.pull_nil hy
      simp [hnone] at hfirst
    | cons b more =>
      obtain ⟨hsecond, hmore⟩ := serves_honest.pull_cons hy
      have hsame : a = b := by simpa [hfirst] using hsecond
      rw [ih hrest hmore, hsame]

namespace Window

variable {w : Window τ σ} {x : List σ}

/-- The size of a window is enough for all that it holds. -/
theorem length_le_size (serves : Serves left) (h : w.Holds left x) : x.length ≤ w.size := by
  obtain ⟨rest, hsplit, hrest, -⟩ := h.split
  have hlength := serves.length_le_size hrest
  rw [hsplit, List.length_append, length_unread, size]
  omega

theorem look_none (serves : Serves left) (h : w.Holds left []) :
    w.look 1 = (none, (w.look 1).2) ∧ (w.look 1).2.Holds left [] :=
  ⟨Prod.ext (look_eq serves h (Nat.le_refl 1)) rfl, (look_holds serves h 1).1⟩

/-- The first symbol is seen, and can be passed. -/
theorem look_some {a : σ} (serves : Serves left) (h : w.Holds left (a :: x)) :
    w.look 1 = (some a, (w.look 1).2) ∧ ((w.look 1).2.pass 1).Holds left x := by
  obtain ⟨hseen, hreached, -⟩ := look_holds serves h 1
  have hthere := hreached.le_buffered hseen (by simp)
  exact ⟨Prod.ext (look_eq serves h (Nat.le_refl 1)) rfl, pass_holds hseen hthere⟩

theorem peek_eq {depth : Nat} (hzero : depth ≠ 0) (hdeep : ¬ deepest < depth) :
    w.peek depth = (.ok (w.look depth).1, (w.look depth).2) := by
  rw [peek, if_neg hzero, if_neg hdeep]

/-- What is refused changes nothing. -/
theorem peek_zero (w : Window τ σ) : w.peek 0 = (.error .zeroLookahead, w) := rfl

theorem peek_deep (w : Window τ σ) {depth : Nat} (hdeep : deepest < depth) :
    w.peek depth = (.error (.lookaheadTooDeep depth), w) := by
  rw [peek, if_neg (by omega), if_pos hdeep]

/-- Peeking finds the symbol of the list and passes none. The symbols up to one that was found are
in the window. -/
theorem peek_holds (serves : Serves left) {t : Tape σ} (h : w.Holds left t.unread) (depth : Nat) :
    (w.peek depth).1 = t.peek depth ∧ (w.peek depth).2.Holds left t.unread ∧
      ∀ s, t.peek depth = .ok (some s) → depth ≤ (w.peek depth).2.buffered := by
  rw [Tape.peek]
  by_cases hzero : depth = 0
  · rw [if_pos hzero, hzero, peek_zero]
    exact ⟨rfl, h, nofun⟩
  by_cases hdeep : deepest < depth
  · rw [if_neg hzero, if_pos hdeep, peek_deep w hdeep]
    exact ⟨rfl, h, nofun⟩
  rw [if_neg hzero, if_neg hdeep, peek_eq hzero hdeep]
  obtain ⟨hseen, hreached, -⟩ := look_holds serves h depth
  refine ⟨congrArg Except.ok (look_eq serves h (by omega)), hseen, ?_⟩
  intro s hs
  have hthere : t.unread[depth - 1]? = some s := Except.ok.inj hs
  have hlt := (List.getElem?_eq_some_iff.mp hthere).1
  exact hreached.le_buffered hseen (by omega)

/-- Reading passes the symbols up to the one that it finds, and none where it finds none. -/
theorem read_holds (serves : Serves left) {t : Tape σ} (h : w.Holds left t.unread) (depth : Nat) :
    (w.read depth).1 = t.peek depth ∧
    (w.read depth).2.Holds left (t.pass (t.passedByRead depth)).unread := by
  obtain ⟨hfound, hholds, hthere⟩ := peek_holds serves h depth
  rw [read, Tape.passedByRead]
  cases hpeek : w.peek depth with
  | mk answer after =>
    rw [hpeek] at hfound hholds hthere
    rw [← hfound] at hthere ⊢
    cases answer with
    | error refusal => exact ⟨rfl, hholds⟩
    | ok found =>
      cases found with
      | none => exact ⟨rfl, hholds⟩
      | some s => exact ⟨rfl, pass_holds hholds (hthere s rfl)⟩

variable [Symbol σ]

theorem collectLine_holds (serves : Serves left) {rounds : Nat} (h : w.Holds left x)
    (enough : x.length < rounds) (before : List σ) :
    (collectLine rounds before w).1 = before.reverse ++ Tape.line x ∧
      (collectLine rounds before w).2.Holds left (x.drop (Tape.passedByLine x)) := by
  induction x generalizing w before rounds with
  | nil =>
    obtain ⟨rounds, rfl⟩ : ∃ less, rounds = less + 1 := ⟨rounds - 1, by simp at enough; omega⟩
    obtain ⟨hlook, hholds⟩ := look_none serves h
    rw [collectLine, hlook]
    exact ⟨by simp [Tape.line], by simpa using hholds⟩
  | cons a x ih =>
    obtain ⟨rounds, rfl⟩ : ∃ less, rounds = less + 1 := ⟨rounds - 1, by simp at enough; omega⟩
    obtain ⟨hlook, hpassed⟩ := look_some serves h
    rw [collectLine, hlook]
    dsimp only
    by_cases hfeed : Symbol.isLineFeed a = true
    · obtain ⟨hline, hcount⟩ := Tape.passedByLine_feed hfeed x
      rw [if_pos hfeed, hline, hcount, List.append_nil]
      exact ⟨rfl, hpassed⟩
    by_cases hreturn : Symbol.isCarriageReturn a = true
    · obtain ⟨hline, hcount⟩ := Tape.passedByLine_return hreturn x
      rw [if_neg hfeed, if_pos hreturn, hline, hcount, List.append_nil]
      -- The symbol after a carriage return has to be looked at, which may move the window.
      cases x with
      | nil =>
        obtain ⟨hnext, hholds⟩ := look_none serves hpassed
        rw [hnext]
        exact ⟨rfl, hholds⟩
      | cons b rest =>
        obtain ⟨hnext, hafter⟩ := look_some serves hpassed
        rw [hnext]
        refine ⟨rfl, ?_⟩
        by_cases hpair : Symbol.isLineFeed b = true
        · simpa [hpair] using hafter
        · simpa [hpair] using (look_holds serves hpassed 1).1
    · obtain ⟨hline, hcount⟩ := Tape.passedByLine_plain hfeed hreturn x
      have hfewer : x.length < rounds := by simpa using enough
      obtain ⟨hrest, hholds⟩ := ih hpassed hfewer (a :: before)
      rw [if_neg hfeed, if_neg hreturn, hline, hcount, hrest]
      exact ⟨by simp, by simpa using hholds⟩

omit [Symbol σ] in
theorem collectAll_holds (serves : Serves left) {rounds : Nat} (h : w.Holds left x)
    (enough : x.length < rounds) (before : List σ) :
    (collectAll rounds before w).1 = before.reverse ++ x ∧
    (collectAll rounds before w).2.Holds left [] := by
  induction x generalizing w before rounds with
  | nil =>
    obtain ⟨rounds, rfl⟩ : ∃ less, rounds = less + 1 := ⟨rounds - 1, by simp at enough; omega⟩
    obtain ⟨hlook, hholds⟩ := look_none serves h
    rw [collectAll, hlook]
    exact ⟨by simp, hholds⟩
  | cons a x ih =>
    obtain ⟨rounds, rfl⟩ : ∃ less, rounds = less + 1 := ⟨rounds - 1, by simp at enough; omega⟩
    obtain ⟨hlook, hpassed⟩ := look_some serves h
    have hfewer : x.length < rounds := by simpa using enough
    obtain ⟨hrest, hholds⟩ := ih hpassed hfewer (a :: before)
    rw [collectAll, hlook]
    dsimp only
    rw [hrest]
    exact ⟨by simp, hholds⟩

/-- One request is answered as the tape answers it, and the window holds what the tape
has unread. -/
theorem serve_holds (serves : Serves left) {t : Tape σ} (h : w.Holds left t.unread)
    (request : Request) :
    (w.serve request).1 = (t.serve request).1 ∧
    (w.serve request).2.Holds left (t.serve request).2.unread := by
  have hroom := length_le_size serves h
  cases request with
  | peek depth =>
    obtain ⟨hfound, hholds, -⟩ := peek_holds serves h depth
    exact ⟨congrArg Reading.one hfound, hholds⟩
  | read depth =>
    obtain ⟨hfound, hholds⟩ := read_holds serves h depth
    exact ⟨congrArg Reading.one hfound, hholds⟩
  | readLine =>
    obtain ⟨hline, hholds⟩ := collectLine_holds serves h (Nat.lt_succ_of_le hroom) []
    exact ⟨congrArg Reading.many hline, hholds⟩
  | readToEnd =>
    obtain ⟨hall, hholds⟩ := collectAll_holds serves h (Nat.lt_succ_of_le hroom) []
    refine ⟨congrArg Reading.many hall, ?_⟩
    change (collectAll (w.size + 1) [] w).2.Holds left (t.unread.drop t.unread.length)
    rwa [List.drop_length]

/-- A history of requests leaves the window with what the tape has unread. -/
theorem serveAll_holds (serves : Serves left) (requests : List Request) {t : Tape σ}
    (h : w.Holds left t.unread) :
    (w.serveAll requests).1 = (t.serveAll requests).1 ∧
      (w.serveAll requests).2.Holds left (t.serveAll requests).2.unread := by
  induction requests generalizing w t with
  | nil => exact ⟨rfl, h⟩
  | cons request rest ih =>
    obtain ⟨hanswer, hholds⟩ := serve_holds serves h request
    obtain ⟨hanswers, hafter⟩ := ih hholds
    exact ⟨List.cons_eq_cons.mpr ⟨hanswer, hanswers⟩, hafter⟩

end Window
end

/-- Whatever the capacity and the pulls, a window before an honest source answers any requests as a
tape of the whole list does. What has been passed, what is unread in the window and what the source
still has are the list at all times, and a request for no symbol or for one too deep changes
nothing. -/
theorem serveAll_eq_tape [Source τ σ] [Symbol σ] {source : τ} {x : List σ} {capacity : Nat}
    {window : Window τ σ} (honest : Honest source x)
    (opened : Window.withCapacity source capacity = .ok window) (requests : List Request) :
    let tape := ((Tape.ofList x).serveAll requests).2
    let after := (window.serveAll requests).2
    (window.serveAll requests).1 = ((Tape.ofList x).serveAll requests).1 ∧
    (∃ rest, (∀ other, Honest after.source other ↔ other = rest) ∧
      tape.unread = after.unread ++ rest ∧ tape.passed ++ after.unread ++ rest = x) ∧
    (after.peek 0 = (.error .zeroLookahead, after) ∧
      after.read 0 = (.error .zeroLookahead, after)) ∧
    ∀ depth, 2 ^ 20 < depth → after.peek depth = (.error (.lookaheadTooDeep depth), after) ∧
      after.read depth = (.error (.lookaheadTooDeep depth), after) := by
  intro tape after
  have hopened : window.Holds Honest (Tape.ofList x).unread :=
    Window.holds_withCapacity opened honest
  obtain ⟨hanswers, hholds⟩ := Window.serveAll_holds serves_honest requests hopened
  obtain ⟨rest, hunread, hrest, -⟩ := hholds.split
  refine ⟨hanswers, ⟨rest, ?_, hunread, ?_⟩, ⟨rfl, rfl⟩, ?_⟩
  · intro other
    constructor
    · exact fun hother => hrest.unique hother
    · rintro rfl
      exact hrest
  · rw [List.append_assoc, ← hunread]
    exact Tape.whole_serveAll _ requests
  · intro depth hdeep
    have hpeek := after.peek_deep hdeep
    exact ⟨hpeek, by rw [Window.read, hpeek]⟩

/-- Two lines and what comes after them, with room for one symbol, from a source that breaks the
pair at the end of the first line: one symbol is looked at from afar, the lines are read, and a look
too deep is refused. -/
theorem serveAll_eq_tape_lines :
    let source : Pieces Char := ⟨[['a', '\r'], ['\n', 'b', '\n'], ['c']]⟩
    let window : Window (Pieces Char) Char := ⟨source, #[], 0, 1, false, #[]⟩
    let requests : List Request := [.peek 4, .readLine, .read 2, .read 0, .readToEnd]
    Honest source ['a', '\r', '\n', 'b', '\n', 'c'] ∧ Window.withCapacity source 0 = .ok window ∧
      (window.serveAll requests).1 =
        [.one (.ok (some 'b')), .many ['a'], .one (.ok (some '\n')), .one (.error .zeroLookahead),
          .many ['c']] ∧
      (window.serveAll requests).2.peek (2 ^ 20 + 1) =
        (.error (.lookaheadTooDeep (2 ^ 20 + 1)), (window.serveAll requests).2) := by
  intro source window requests
  have honest : Honest source ['a', '\r', '\n', 'b', '\n', 'c'] := honest_pieces (by decide)
  have opened : Window.withCapacity source 0 = .ok window := rfl
  obtain ⟨hanswers, -, -, hdeep⟩ := serveAll_eq_tape honest opened requests
  refine ⟨honest, opened, ?_, (hdeep (2 ^ 20 + 1) (by decide)).1⟩
  rw [hanswers]
  rfl

end Rewind
