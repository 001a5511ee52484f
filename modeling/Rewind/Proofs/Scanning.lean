import Rewind.Proofs.Matching

/-!
# Scanning for a delimiter

To read up to a delimiter is to take symbols one by one as long as the delimiter is not ahead, and
then the delimiter (`Grammar.upTo`). What is taken are the symbols before the first place where
the delimiter stands (`textBefore`), also where it begins to stand several times over and breaks
off, since looking ahead takes nothing. The loop meets one symbol a round and stops where it
should (`many_comes`).
-/
namespace Rewind

/-- The symbols before the first place where the delimiter stands, all where it stands nowhere. -/
def textBefore {σ : Type} [DecidableEq σ] (delimiter : List σ) : List σ → List σ
  | [] => []
  | a :: y => if delimiter <+: a :: y then [] else a :: textBefore delimiter y

section

variable {σ : Type} [DecidableEq σ] {delimiter y : List σ}

theorem textBefore_eq_nil (h : delimiter <+: y) : textBefore delimiter y = [] := by
  cases y <;> simp_all [textBefore]

/-- Where the delimiter stands first, so many symbols come before it. -/
theorem textBefore_eq_take {k : Nat} (stands : delimiter <+: y.drop k)
    (first : ∀ j < k, ¬ delimiter <+: y.drop j) :
    textBefore delimiter y = y.take k ∧ k ≤ y.length := by
  induction k generalizing y with
  | zero => simpa using textBefore_eq_nil stands
  | succ k ih =>
    have hnot : ¬ delimiter <+: y := by simpa using first 0 (Nat.succ_pos k)
    cases y with
    | nil => exact absurd stands hnot
    | cons a y =>
      have hrest :=
        ih (y := y) stands fun j hj => by simpa using first (j + 1) (Nat.succ_lt_succ hj)
      simpa [textBefore, hnot] using hrest

theorem textBefore_eq_self (absent : ¬ delimiter <:+: y) : textBefore delimiter y = y := by
  induction y with
  | nil => rfl
  | cons a y ih =>
    have hnot : ¬ delimiter <+: a :: y := fun h => absent h.isInfix
    have hrest := ih fun h => absent (h.trans (List.infix_cons (List.infix_refl y)))
    simp [textBefore, hnot, hrest]

theorem textBefore_isPrefix (delimiter y : List σ) : textBefore delimiter y <+: y := by
  induction y with
  | nil => exact List.prefix_refl []
  | cons a y ih =>
    rw [textBefore]
    split
    · exact List.nil_prefix
    · exact List.cons_prefix_cons.mpr ⟨rfl, ih⟩

end

variable {τ ε : Type} [Source τ Char] {left : τ → List Char → Prop} {input : Input Char}

/-- One symbol, unless the delimiter begins with it. -/
def Grammar.anyBefore {ν : Type → Type} (delimiter : String) : Grammar Char ν ε Char :=
  .keepRight (.notAhead (.text delimiter)) .any

/-- Everything up to the delimiter, and the delimiter. -/
def Grammar.upTo {ν : Type → Type} (delimiter : String) : Grammar Char ν ε (List Char) :=
  .keepLeft (.many (.anyBefore delimiter)) (.text delimiter)

namespace Parser

def text (expected : String) : Parser τ Char ε String :=
  map (fun _ => expected) (literal expected.toList)

def anyBefore (delimiter : String) : Parser τ Char ε Char :=
  keepRight (notAhead (text delimiter)) any

end Parser

section

variable (serves : Serves left) (fits : ∀ i ≤ input.symbols.length, (input.position i).Fits)
  (delimiter : String)

include serves fits

theorem text_comes {i : Nat} (le : i ≤ input.symbols.length)
    (stands : delimiter.toList <+: input.symbols.drop i) :
    Run.Comes left input i
      (Parser.text delimiter (input.node i) : Run τ Char ε (Outcome Char String))
      (.success delimiter (input.node (i + delimiter.toList.length))) := by
  have hliteral := literal_comes (τ := τ) (ε := ε) serves fits delimiter.toList le
  rw [if_pos stands] at hliteral
  exact map_comes (s := input.node i) (fun _ => delimiter) hliteral

theorem text_comes_failure {i : Nat} (le : i ≤ input.symbols.length)
    (absent : ¬ delimiter.toList <+: input.symbols.drop i) :
    Run.Comes left input i
      (Parser.text delimiter (input.node i) : Run τ Char ε (Outcome Char String))
      (.failure (input.node i)) := by
  have hliteral := literal_comes (τ := τ) (ε := ε) serves fits delimiter.toList le
  rw [if_neg absent] at hliteral
  exact map_comes (s := input.node i) (fun _ => delimiter) hliteral

/-- At the delimiter there is nothing to take. -/
theorem anyBefore_comes_failure {i : Nat} (le : i ≤ input.symbols.length)
    (stands : delimiter.toList <+: input.symbols.drop i) :
    Run.Comes left input i
      (Parser.anyBefore delimiter (input.node i) : Run τ Char ε (Outcome Char Char))
      (.failure (input.node i)) :=
  keepRight_comes_failure (s := input.node i)
    (notAhead_comes_failure (text_comes serves fits delimiter le stands))

/-- Elsewhere one symbol is taken, and the look ahead leaves no mark. -/
theorem anyBefore_comes {i : Nat} (lt : i < input.symbols.length)
    (absent : ¬ delimiter.toList <+: input.symbols.drop i) :
    Run.Comes left input i
      (Parser.anyBefore delimiter (input.node i) : Run τ Char ε (Outcome Char Char))
      (.success input.symbols[i] (input.node (i + 1))) :=
  keepRight_comes (s := input.node i)
    (notAhead_comes_success (text_comes_failure serves fits delimiter (Nat.le_of_lt lt) absent))
    (any_comes serves fits lt)

theorem anyBefore_comes_end {i : Nat} (ends : i = input.symbols.length) :
    Run.Comes left input i
      (Parser.anyBefore delimiter (input.node i) : Run τ Char ε (Outcome Char Char))
      (.failure (input.node i)) := by
  by_cases stands : delimiter.toList <+: input.symbols.drop i
  · exact anyBefore_comes_failure serves fits delimiter (Nat.le_of_eq ends) stands
  · exact keepRight_comes (s := input.node i)
      (notAhead_comes_success (text_comes_failure serves fits delimiter (Nat.le_of_eq ends) stands))
      (any_comes_end (Nat.le_of_eq ends.symm))

/-- The induction is on the symbols that are left; a round takes the first of them or
is the last. -/
theorem many_comes {fuel i : Nat} {y : List Char} (le : i ≤ input.symbols.length)
    (rest : input.symbols.drop i = y) (enough : y.length < fuel) (values : List Char) :
    Run.Comes left input i
      (Parser.manyFrom (Parser.anyBefore delimiter) fuel values (input.node i) :
        Run τ Char ε (Outcome Char (List Char)))
      (.success (values.reverse ++ textBefore delimiter.toList y)
        (input.node (i + (textBefore delimiter.toList y).length))) := by
  induction y generalizing i fuel values with
  | nil =>
    obtain ⟨fuel, rfl⟩ : ∃ less, fuel = less + 1 := ⟨fuel - 1, by omega⟩
    have hends : i = input.symbols.length := by
      have := List.drop_eq_nil_iff.mp rest
      omega
    simpa [textBefore] using manyFrom_comes_stop (s := input.node i)
      (anyBefore_comes_end serves fits delimiter hends)
  | cons a y ih =>
    obtain ⟨fuel, rfl⟩ : ∃ less, fuel = less + 1 := ⟨fuel - 1, by omega⟩
    have hlt : i < input.symbols.length := by
      rw [← Nat.not_le, ← List.drop_eq_nil_iff, rest]
      exact List.cons_ne_nil a y
    by_cases stands : delimiter.toList <+: a :: y
    · have hstop :=
        anyBefore_comes_failure (τ := τ) (ε := ε) serves fits delimiter le (by rwa [rest])
      simpa [textBefore, stands] using manyFrom_comes_stop (s := input.node i) hstop
    · have htaken := anyBefore_comes (τ := τ) (ε := ε) serves fits delimiter hlt (by rwa [rest])
      rw [List.drop_eq_getElem_cons hlt] at rest
      obtain ⟨rfl, hrest⟩ := List.cons.inj rest
      have hmoved : (input.node (i + 1)).position.index ≠ (input.node i).position.index := by
        simp only [Input.node, Input.position_index hlt, Input.position_index le]
        omega
      have hmore := ih hlt hrest (by simpa using enough) (input.symbols[i] :: values)
      have hwhole := manyFrom_comes_more (s := input.node i) htaken hmoved hmore
      simpa [textBefore, stands, Nat.add_assoc, Nat.add_comm 1] using hwhole

/-- The delimiter is there after what comes before it, or the input is over. -/
theorem upTo_comes {ν : Type → Type} (rules : Rules Char ν ε) {fuel i : Nat}
    (le : i ≤ input.symbols.length) (enough : input.symbols.length < fuel) :
    let y := input.symbols.drop i
    let taken := textBefore delimiter.toList y
    Run.Comes left input i
      ((Grammar.upTo delimiter).parse rules (fuel + 1) (input.node i) : Run τ Char ε
        (Outcome Char (List Char)))
      (if delimiter.toList <+: y.drop taken.length then
        .success taken (input.node (i + taken.length + delimiter.toList.length))
      else .failure (input.node (i + taken.length))) := by
  intro y taken
  have hlength : taken.length ≤ y.length := (textBefore_isPrefix delimiter.toList y).length_le
  have hy : y.length = input.symbols.length - i := List.length_drop
  have hwithin : i + taken.length ≤ input.symbols.length := by omega
  have hmany := many_comes (τ := τ) (ε := ε) serves fits delimiter le (Eq.refl y)
    (show y.length < fuel by omega) []
  have hafter : y.drop taken.length = input.symbols.drop (i + taken.length) := List.drop_drop
  rw [hafter]
  by_cases stands : delimiter.toList <+: input.symbols.drop (i + taken.length)
  · rw [if_pos stands]
    exact keepLeft_comes (s := input.node i) hmany (text_comes serves fits delimiter hwithin stands)
  · rw [if_neg stands]
    exact keepLeft_comes (s := input.node i) hmany
      (text_comes_failure serves fits delimiter hwithin stands)

end

/-- Whatever was done before, and at whatever node of a text whose positions fit: with fuel enough,
reading up to a delimiter succeeds where the delimiter stands in the rest of the text, with the
symbols before the first place where it does, and leaves the node after it. Where the delimiter does
not stand in the rest of the text, it fails at the end. -/
theorem upTo_finds_first {source : τ} {capacity : Nat} {window : Window τ Char} (input : Input Char)
    (honest : Honest source input.symbols)
    (opened : Window.withCapacity source capacity = .ok window)
    (fits : ∀ i ≤ input.symbols.length, (input.position i).Fits)
    (history : List (Nat × Action Char ε)) {s : Stream Char}
    (node : ((Visit.ofWindow window input.start).actAll history).session.chain.Node
      (Chain.ofWindow window input.start).1 s)
    (delimiter : String) {ν : Type → Type} (rules : Rules Char ν ε) {fuel : Nat}
    (enough : input.symbols.length + 2 ≤ fuel) :
    let y := input.symbols.drop s.node
    let d := delimiter.toList
    let session := ((Visit.ofWindow window input.start).actAll history).session
    let result := (Grammar.upTo delimiter).parse rules fuel s session
    (∀ k, d <+: y.drop k → (∀ j < k, ¬ d <+: y.drop j) →
      ∃ final, result = .ok (.success (y.take k) (input.node (s.node + k + d.length))) final) ∧
    (¬ d <:+: y → ∃ final, result = .ok (.failure (input.node input.symbols.length)) final) := by
  intro y d session result
  obtain ⟨hs, hnode, last, hreaches, hle⟩ := Visit.node_of_history fits honest opened history node
  obtain ⟨rounds, rfl⟩ : ∃ rounds, fuel = rounds + 1 := ⟨fuel - 1, by omega⟩
  have hrounds : input.symbols.length < rounds := by omega
  obtain ⟨far, -, hfinds⟩ := upTo_comes (τ := τ) serves_honest fits delimiter rules hs hrounds
  obtain ⟨final, now, hresult, -⟩ := hfinds session last hreaches hle
  rw [hnode] at hresult
  constructor
  · intro k stands first
    obtain ⟨htaken, hk⟩ := textBefore_eq_take stands first
    have hlength : (y.take k).length = k := List.length_take_of_le hk
    refine ⟨final, hresult.trans ?_⟩
    rw [htaken, hlength, if_pos stands]
  · intro absent
    have htaken := textBefore_eq_self absent
    have hnot : ¬ d <+: [] := fun h => absent (h.trans List.nil_prefix).isInfix
    have hends : s.node + y.length = input.symbols.length := by
      simp only [y, List.length_drop]
      omega
    refine ⟨final, hresult.trans ?_⟩
    rw [htaken, List.drop_length, if_neg hnot, hends]

/-- A delimiter that begins to stand, breaks off and then stands, and one that begins to stand twice
and never does, in a text that comes in two pieces and of which some has been looked at. -/
theorem upTo_finds_first_broken :
    let window : Window (Pieces Char) Char :=
      ⟨Pieces.mk [['a', '*'], ['*', '/', 'b']], #[], 0, 1, false, #[]⟩
    let first : Stream Char := (Chain.ofWindow window .start).1
    let session : Session (Pieces Char) Char Unit :=
      ((Visit.ofWindow window .start).actAll [(0, .consume)]).session
    let upTo : String → Grammar Char (fun _ => Empty) Unit (List Char) := Grammar.upTo
    (∃ final, (upTo "*/").parse Rules.none 7 first session =
      .ok (.success ['a', '*'] ⟨4, some 'b', ⟨1, 5, 4⟩⟩) final) ∧
      ∃ final, (upTo "*-").parse Rules.none 7 first session =
        .ok (.failure ⟨5, none, ⟨1, 6, 5⟩⟩) final := by
  intro window first session upTo
  have honest : Honest (Pieces.mk [['a', '*'], ['*', '/', 'b']]) ['a', '*', '*', '/', 'b'] :=
    honest_pieces (by decide)
  have opened : Window.withCapacity (Pieces.mk [['a', '*'], ['*', '/', 'b']]) 1 = .ok window := rfl
  have fits : ∀ i ≤ 5, ((Input.mk ['a', '*', '*', '/', 'b'] .start).position i).Fits := by
    decide +kernel
  have scanned := fun delimiter =>
    upTo_finds_first ⟨['a', '*', '*', '/', 'b'], .start⟩ honest opened fits
    [(0, .consume)] (Or.inl rfl) delimiter (ε := Unit)
      (ν := fun _ => Empty) Rules.none (Nat.le_refl 7)
  constructor
  · exact (scanned "*/").1 2 (by decide) (by decide)
  · exact (scanned "*-").2 (by decide)

end Rewind
