import Rewind.Proofs.Rewinding

/-!
# Walks

A walk takes steps along a chain, each from any of the streams that it has come to so far. Whatever
the order of the steps, the window is where a straight walk to the furthest of these streams would
have left it, and the source has handed out each symbol once, no more of them than the window has
room for beyond that stream (`walk_reads_once`).
-/
namespace Rewind

variable {τ σ ε : Type}

/-! ## Accounts -/

section

variable [Source τ σ]

/-- What a source hands out when it is pulled from so many times, each time for so many symbols. -/
def handed (source : τ) : List Nat → List (List σ)
  | [] => []
  | max :: rest => (Source.pull source max).symbols :: handed (Source.pull source max).source rest

/-- The source after so many pulls. -/
def pulled (source : τ) (requests : List Nat) : τ :=
  requests.foldl (fun source max => (Source.pull source max).source) source

theorem handed_append (source : τ) (requests : List Nat) (max : Nat) :
    handed source (requests ++ [max]) = handed source requests ++
      [(Source.pull (pulled source requests) max).symbols] := by
  induction requests generalizing source with
  | nil => rfl
  | cons first rest ih =>
    rw [List.cons_append, handed, ih, handed]
    rfl

theorem pulled_append (source : τ) (requests : List Nat) (max : Nat) :
    pulled source (requests ++ [max]) = (Source.pull (pulled source requests) max).source := by
  rw [pulled, List.foldl_append]
  rfl

namespace Metered

/-- The requests in the account. -/
def requests (m : Metered τ) : List Nat := m.calls.toList.map Prod.fst

/-- The account is right: it tells what the source was asked for and how much it handed out, which
is so much of the list in order, and the source has the rest. -/
structure Accounts (source : τ) (x : List σ) (m : Metered τ) (rest : List σ) : Prop where
  source_eq : m.source = pulled source m.requests
  counts : m.calls.toList.map Prod.snd = (handed source m.requests).map List.length
  handed_eq : (handed source m.requests).flatten = x.take m.symbolCount
  count_le : m.symbolCount ≤ x.length
  rest_eq : rest = x.drop m.symbolCount
  honest : Honest m.source rest

theorem accounts_ofSource {source : τ} {x : List σ} (honest : Honest source x) :
    Accounts source x (ofSource source) x :=
  ⟨rfl, rfl, rfl, Nat.zero_le _, rfl, honest⟩

theorem accounts_serves (source : τ) (x : List σ) : Serves (Accounts source x) := by
  intro m rest h max hmax
  obtain ⟨n, hn, hsome, hsymbols, hleft⟩ := serves_honest m.source rest h.honest max hmax
  refine ⟨n, hn, hsome, hsymbols, ?_⟩
  change Accounts source x ⟨(Source.pull m.source max).source, m.calls.push (max, _)⟩ (rest.drop n)
  have hrequests : requests ⟨(Source.pull m.source max).source,
      m.calls.push (max, (Source.pull m.source max).symbols.length)⟩ = m.requests ++ [max] := by
    rw [requests, requests, Array.toList_push, List.map_append]
    rfl
  have hcount : symbolCount ⟨(Source.pull m.source max).source,
      m.calls.push (max, (Source.pull m.source max).symbols.length)⟩ =
        m.symbolCount + (Source.pull m.source max).symbols.length := by
    rw [symbolCount, Array.foldl_push]
    rfl
  have hlength : (Source.pull m.source max).symbols.length = min n rest.length := by
    rw [hsymbols, List.length_take]
  have hrest := congrArg List.length h.rest_eq
  rw [List.length_drop] at hrest
  have hle := h.count_le
  constructor
  · rw [hrequests, pulled_append, ← h.source_eq]
  · rw [hrequests, handed_append, List.map_append, ← h.counts, ← h.source_eq, Array.toList_push,
      List.map_append]
    rfl
  · rw [hrequests, hcount, handed_append, List.flatten_append, h.handed_eq, ← h.source_eq,
      List.take_add, ← h.rest_eq,
      List.flatten_singleton, hlength, ← List.take_eq_take_min]
    exact congrArg (x.take m.symbolCount ++ ·) hsymbols
  · rw [hcount]
    omega
  · rw [hcount, ← List.drop_drop, ← h.rest_eq, hlength]
    by_cases hn : n ≤ rest.length
    · rw [Nat.min_eq_left hn]
    · rw [Nat.min_eq_right (by omega), List.drop_length, List.drop_of_length_le (by omega)]
  · exact hleft

/-- What was handed out is what has been passed and what is in the window. -/
theorem accounts_window {source : τ} {x : List σ} {w : Window (Metered τ) σ} {place : Nat}
    (h : w.Holds (Accounts source x) (x.drop place)) (le : place ≤ x.length) :
    w.source.calls.toList.map Prod.snd = (handed source w.source.requests).map List.length ∧
      (handed source w.source.requests).flatten = x.take w.source.symbolCount ∧
      x.take w.source.symbolCount = x.take place ++ w.unread ∧
      w.source.symbolCount ≤ place + w.capacity := by
  obtain ⟨rest, hsplit, haccounts, -⟩ := h.split
  rw [haccounts.rest_eq] at hsplit
  have htaken : x.take w.source.symbolCount = x.take place ++ w.unread := by
    refine (List.append_left_inj (x.drop w.source.symbolCount)).mp ?_
    rw [List.append_assoc, ← hsplit, List.take_append_drop, List.take_append_drop]
  have hlength := congrArg List.length htaken
  have hbound := haccounts.count_le
  have hunread := h.length_unread_le
  simp only [List.length_append, List.length_take] at hlength
  exact ⟨haccounts.counts, haccounts.handed_eq, htaken, by omega⟩

end Metered

end

/-! ## Steps in any order -/

/-- A chain and the streams that it has led to so far, each with the number of steps to it
from the first. -/
structure Walk (τ σ : Type) where
  chain : Chain τ σ
  held : List (Nat × Stream σ)

namespace Walk

/-- The place of the furthest stream. -/
def furthest (w : Walk τ σ) : Nat := w.held.foldl (fun place visit => max place visit.2.node) 0

variable [Source τ σ]

def ofWindow (window : Window τ σ) (start : Position) : Walk τ σ :=
  match Chain.ofWindow window start with
  | (stream, chain) => ⟨chain, [(0, stream)]⟩

variable [Symbol σ]

/-- Takes a step from one of the streams. -/
def step (w : Walk τ σ) (i : Nat) : Except Fault (Walk τ σ) :=
  match w.held[i]? with
  | none => .ok w
  | some (count, s) =>
    match w.chain.consume s with
    | (.ok next, chain) => .ok ⟨chain, w.held ++ [(count + 1, next)]⟩
    | (.error fault, _) => .error fault

def stepAll : Walk τ σ → List Nat → Except Fault (Walk τ σ)
  | w, [] => .ok w
  | w, i :: rest =>
    match w.step i with
    | .ok w => w.stepAll rest
    | .error fault => .error fault

/-- The chain reaches to the furthest stream of the walk, and its window is where a straight walk to
it would have left the window that the input was opened in. -/
structure Follows (left : τ → List σ → Prop) (input : Input σ) (window : Window τ σ) (w : Walk τ σ)
    (last : Stream σ) : Prop where
  reaches : w.chain.Reaches left input last
  window_eq : w.chain.window = window.walk last.node
  furthest_eq : w.furthest = last.node
  place_eq : ∀ visit ∈ w.held, input.place visit.1 = .ok visit.2
  node_le : ∀ visit ∈ w.held, visit.2.node ≤ last.node

variable {left : τ → List σ → Prop} {input : Input σ} {window : Window τ σ} {w after : Walk τ σ}

theorem follows_ofWindow (serves : Serves left) (h : window.Holds left input.symbols) :
    (ofWindow window input.start).Follows left input window input.first := by
  obtain ⟨hfirst, hreaches, hwindow⟩ := Chain.reaches_ofWindow serves h
  have hheld : (ofWindow window input.start).held = [(0, input.first)] := by
    rw [ofWindow, ← hfirst]
  refine ⟨hreaches, hwindow, ?_, ?_, ?_⟩
  · rw [furthest, hheld]
    rfl
  · intro visit hvisit
    rw [hheld] at hvisit
    rw [List.mem_singleton.mp hvisit]
    rfl
  · intro visit hvisit
    rw [hheld] at hvisit
    rw [List.mem_singleton.mp hvisit]

omit [Source τ σ] [Symbol σ] in
theorem furthest_append (chain found : Chain τ σ) (held : List (Nat × Stream σ)) (count : Nat)
    (next : Stream σ) :
    (Walk.mk found (held ++ [(count, next)])).furthest =
      max (Walk.mk chain held).furthest next.node := by
  rw [furthest, List.foldl_append]
  rfl

/-- A walk that comes to one more stream. -/
theorem Follows.append {last now t : Stream σ} (h : w.Follows left input window last)
    {chain : Chain τ σ} {count : Nat} (reaches : chain.Reaches left input now)
    (window_eq : chain.window = window.walk now.node)
    (furthest_eq : now.node = max last.node t.node) (place_eq : input.place count = .ok t) :
    (Walk.mk chain (w.held ++ [(count, t)])).Follows left input window now := by
  constructor
  · exact reaches
  · exact window_eq
  · rw [furthest_append w.chain, h.furthest_eq, furthest_eq]
  · intro visit hvisit
    rcases List.mem_append.mp hvisit with hold | hnew
    · exact h.place_eq visit hold
    · rw [List.mem_singleton.mp hnew]
      exact place_eq
  · intro visit hvisit
    rcases List.mem_append.mp hvisit with hold | hnew
    · have := h.node_le visit hold
      omega
    · rw [List.mem_singleton.mp hnew]
      dsimp only
      omega

theorem step_follows (serves : Serves left) {last : Stream σ} (h : w.Follows left input window last)
    {i : Nat} (stepped : w.step i = .ok after) : ∃ now, after.Follows left input window now := by
  rw [step] at stepped
  cases hat : w.held[i]? with
  | none =>
    rw [hat] at stepped
    cases stepped
    exact ⟨last, h⟩
  | some visit =>
    obtain ⟨count, s⟩ := visit
    rw [hat] at stepped
    have hmem : (count, s) ∈ w.held := List.mem_of_getElem? hat
    have hplace : input.place count = .ok s := h.place_eq _ hmem
    have hs : input.Has s := (Input.place_spec hplace).2.2
    have hsucc : input.place (count + 1) = input.place (s.node + 1) :=
      (Input.place_succ hplace).trans (Input.place_succ hs).symm
    dsimp only at stepped
    rcases Chain.consume_cases serves h.reaches s with ⟨t, hconsume, hnext, hle⟩ |
      ⟨t, found, hconsume, hnext, hlast, hnode, hfound, hwindow⟩ | ⟨fault, broken, hconsume, -⟩
    · rw [hconsume] at stepped
      cases stepped
      exact ⟨last, h.append h.reaches h.window_eq (by omega) (hsucc.trans hnext)⟩
    · rw [hconsume] at stepped
      cases stepped
      have hstride : found.window = window.walk t.node := by
        rw [hwindow, h.window_eq, hnode, Window.walk]
      exact ⟨t, h.append hfound hstride (by omega) (hsucc.trans hnext)⟩
    · rw [hconsume] at stepped
      cases stepped

theorem stepAll_follows (serves : Serves left) {last : Stream σ}
    (h : w.Follows left input window last) {steps : List Nat}
    (walked : w.stepAll steps = .ok after) : ∃ now, after.Follows left input window now := by
  induction steps generalizing w last with
  | nil =>
    cases walked
    exact ⟨last, h⟩
  | cons i rest ih =>
    rw [stepAll] at walked
    cases hstep : w.step i with
    | error fault =>
      rw [hstep] at walked
      cases walked
    | ok middle =>
      rw [hstep] at walked
      obtain ⟨now, hnow⟩ := step_follows serves h hstep
      exact ih hnow walked

/-- The end of the input leads to itself. -/
theorem Follows.knows_end {last s : Stream σ} (h : w.Follows left input window last) {count : Nat}
    (held : (count, s) ∈ w.held) (ends : s.current = none) : w.chain.Knows s s := by
  have hs : input.Has s := (Input.place_spec (h.place_eq _ held)).2.2
  have hlast := h.reaches.has_last
  have hover : input.symbols.length ≤ s.node :=
    List.getElem?_eq_none_iff.mp (hs.current_eq.symm.trans ends)
  have hle : s.node ≤ last.node := h.node_le _ held
  have hsame : s = last := hs.eq_of_node hlast (by have := hlast.node_le; omega)
  subst hsame
  rcases h.reaches.frontier with ⟨hcell, -⟩ | ⟨-, fault, hfault⟩
  · rw [Chain.Knows, hcell, Stream.cell, ends]
  · rw [Input.next_end ends] at hfault
    cases hfault

end Walk

/-- Whatever the order of the steps: streams that are equally many steps from the first are the same
node, the end leads to itself, and the window is a function of the place of the furthest stream. The
source has handed out the symbols in order, each once, at most the larger of the capacity and two
beyond that place. A parse that is made again at one of the streams makes no pull, also where other
things were done in between. -/
theorem walk_reads_once [Source τ σ] [Symbol σ] {source : τ} {capacity : Nat}
    {window : Window (Metered τ) σ} (input : Input σ) (honest : Honest source input.symbols)
    (opened : Window.withCapacity (Metered.ofSource source) capacity = .ok window)
    (steps : List Nat) {w : Walk (Metered τ) σ}
    (walked : (Walk.ofWindow window input.start).stepAll steps = .ok w) :
    (∀ i s, (i, s) ∈ w.held →
      s.node = min i input.symbols.length ∧ s.current = input.symbols[s.node]? ∧
      (∀ t, (i, t) ∈ w.held → s.isSame t ∧ s = t) ∧
      (s.isEnd → w.chain.consume s = (.ok s, w.chain))) ∧
    w.chain.window = window.walk w.furthest ∧
    (let account := w.chain.window.source;
      account.calls.toList.map Prod.snd = (handed source account.requests).map List.length ∧
      (handed source account.requests).flatten = input.symbols.take account.symbolCount ∧
      input.symbols.take account.symbolCount =
        input.symbols.take w.furthest ++ w.chain.window.unread ∧
      account.symbolCount ≤ w.furthest + max capacity 2) ∧
    ∀ {ν : Type → Type} {ε α : Type} (rules : Rules σ ν ε) (g : Grammar σ ν ε α) (fuel i : Nat)
      (s : Stream σ) (events : Array ε), (i, s) ∈ w.held →
      (let first := Run.after (g.parse rules fuel s ⟨w.chain, events⟩);
        (Run.after (g.parse rules fuel s first)).chain.window.source = first.chain.window.source) ∧
      ∀ (outcome : Outcome σ α) (final : Session (Metered τ) σ ε),
        g.parse rules fuel s ⟨w.chain, events⟩ = .ok outcome final →
        ∀ (nodes : List (Stream σ)) (between : List (Nat × Action σ ε)) (more : Nat), fuel ≤ more →
          ∃ again, g.parse rules more s ((Visit.mk final nodes).actAll between).session =
            .ok outcome again ∧
            again.chain.window.source =
              ((Visit.mk final nodes).actAll between).session.chain.window.source := by
  have serves := Metered.accounts_serves source input.symbols
  have hholds : window.Holds (Metered.Accounts source input.symbols) input.symbols :=
    Window.holds_withCapacity opened (Metered.accounts_ofSource honest)
  obtain ⟨last, hfollows⟩ :=
    Walk.stepAll_follows serves (Walk.follows_ofWindow serves hholds) walked
  have hle : last.node ≤ input.symbols.length := hfollows.reaches.has_last.node_le
  refine ⟨?_, ?_, ?_, ?_⟩
  · intro i s held
    have hplace : input.place i = .ok s := hfollows.place_eq _ held
    obtain ⟨hnode, hcurrent, -⟩ := Input.place_spec hplace
    refine ⟨hnode, hcurrent, ?_, ?_⟩
    · intro t ht
      have hsame : s = t := Except.ok.inj (hplace.symm.trans (hfollows.place_eq _ ht))
      exact ⟨decide_eq_true (congrArg Stream.node hsame), hsame⟩
    · intro ends
      exact Chain.consume_of_knows (hfollows.knows_end held (Option.isNone_iff_eq_none.mp ends))
  · rw [hfollows.furthest_eq]
    exact hfollows.window_eq
  · obtain ⟨hwindow, hnarrow⟩ := Window.walk_holds serves hholds hle
    rw [← hfollows.window_eq] at hwindow hnarrow
    have hcapacity : window.capacity = max 1 capacity := Window.capacity_withCapacity opened
    obtain ⟨hcounts, hhanded, htaken, hcount⟩ := Metered.accounts_window hwindow hle
    rw [hfollows.furthest_eq]
    exact ⟨hcounts, hhanded, htaken, by omega⟩
  · intro ν ε α rules g fuel i s events held
    refine ⟨parse_again_source fuel g s _, ?_⟩
    intro outcome final ended nodes between more le
    exact parse_again ended nodes between le

/-- Two steps from the first of three streams and one step from the second, with room
for one symbol. -/
theorem walk_reads_once_thrice :
    ∃ w, (Walk.ofWindow ⟨Metered.ofSource (Pieces.mk [['a'], ['b', 'c']]), #[], 0, 1, false, #[]⟩
      .start).stepAll
      [0, 0, 1] = .ok w ∧ w.furthest = 2 ∧ w.chain.window.source.symbolCount ≤ 4 := by
  have honest : Honest (Pieces.mk [['a'], ['b', 'c']]) ['a', 'b', 'c'] := honest_pieces (by decide)
  obtain ⟨w, walked⟩ : ∃ w, (Walk.ofWindow
      ⟨Metered.ofSource (Pieces.mk [['a'], ['b', 'c']]), #[], 0, 1, false, #[]⟩ .start).stepAll [0,
        0, 1] = .ok w :=
    ⟨_, rfl⟩
  have opened : Window.withCapacity (σ := Char)
      (Metered.ofSource (Pieces.mk [['a'], ['b', 'c']])) 1 =
      .ok ⟨Metered.ofSource (Pieces.mk [['a'], ['b', 'c']]), #[], 0, 1, false, #[]⟩ := rfl
  obtain ⟨-, -, ⟨-, -, -, hcount⟩, -⟩ :=
    walk_reads_once ⟨['a', 'b', 'c'], .start⟩ honest opened _ walked
  cases walked
  exact ⟨_, rfl, rfl, hcount⟩

end Rewind
