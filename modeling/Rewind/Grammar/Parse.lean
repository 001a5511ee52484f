import Rewind.Grammar
import Rewind.Parser.Choice
import Rewind.Parser.Observe
import Rewind.Parser.Recovery
import Rewind.Parser.Repeat
import Rewind.Parser.Sequence
import Rewind.Parser.Token

/-!
What grammars mean as parsers. Fuel bounds how deep names are followed and how many rounds an
open-ended repetition makes; a parse that comes to an end comes to the same end with more fuel.
-/
namespace Rewind.Grammar

variable {τ σ ε : Type} {ν : Type → Type} [Source τ σ] [Symbol σ]

/-- The parser of a grammar, given the number of rounds of a repetition and the parsers
of the names. -/
def parseWith (fuel : Nat) (rule lazy : {α : Type} → ν α → Parser τ σ ε α) :
    {α : Type} → Grammar σ ν ε α → Parser τ σ ε α
  | _, .any => Parser.any
  | _, .satisfy accepts => Parser.satisfy accepts
  | _, .symbol expected => Parser.symbol expected
  | _, .literal expected => Parser.literal expected
  | _, .endOfInput => Parser.endOfInput
  | _, .succeed value => Parser.succeed value
  | _, .fail => Parser.fail
  | _, .error text => Parser.error text
  | _, .cut text => Parser.cut text
  | _, .orElse p q => Parser.orElse (parseWith fuel rule lazy p) (parseWith fuel rule lazy q)
  | _, .choiceOf _ parts => Parser.choice (List.ofFn fun i => parseWith fuel rule lazy (parts i))
  | _, .optional p => Parser.optional (parseWith fuel rule lazy p)
  | _, .lookAhead p => Parser.lookAhead (parseWith fuel rule lazy p)
  | _, .notAhead p => Parser.notAhead (parseWith fuel rule lazy p)
  | _, .filter accepts p => Parser.filter accepts (parseWith fuel rule lazy p)
  | _, .map f p => Parser.map f (parseWith fuel rule lazy p)
  | _, .ignore p => Parser.ignore (parseWith fuel rule lazy p)
  | _, .bind p next =>
    Parser.bind (parseWith fuel rule lazy p) fun value => parseWith fuel rule lazy (next value)
  | _, .pair p q => Parser.pair (parseWith fuel rule lazy p) (parseWith fuel rule lazy q)
  | _, .keepLeft p q => Parser.keepLeft (parseWith fuel rule lazy p) (parseWith fuel rule lazy q)
  | _, .keepRight p q => Parser.keepRight (parseWith fuel rule lazy p) (parseWith fuel rule lazy q)
  | _, .between opening p closing =>
    Parser.between (parseWith fuel rule lazy opening) (parseWith fuel rule lazy p)
      (parseWith fuel rule lazy closing)
  | _, .sequenceOf _ parts =>
    Parser.sequence (List.ofFn fun i => parseWith fuel rule lazy (parts i))
  | _, @exactly _ _ _ _ _ p count => Parser.exactly (parseWith fuel rule lazy p) count
  | _, .many p => Parser.many fuel (parseWith fuel rule lazy p)
  | _, @atLeast _ _ _ _ _ p count => Parser.atLeast fuel (parseWith fuel rule lazy p) count
  | _, .separated p separator =>
    Parser.separated fuel (parseWith fuel rule lazy p) (parseWith fuel rule lazy separator)
  | _, .label text p => Parser.label text (parseWith fuel rule lazy p)
  | _, .commit text p => Parser.commit text (parseWith fuel rule lazy p)
  | _, .attempt p => Parser.attempt (parseWith fuel rule lazy p)
  | _, .boundary p => Parser.boundary (parseWith fuel rule lazy p)
  | _, .spanned p => Parser.spanned (parseWith fuel rule lazy p)
  | _, .inspect observe p => Parser.inspect observe (parseWith fuel rule lazy p)
  | _, .rule name => rule name
  | _, .lazy name => lazy name
  | _, .scripted script => fun s => (script s).run

/-- Leaves the events of building a lazy grammar, in order. -/
def emitAll : List ε → Run τ σ ε Unit
  | [] => pure ()
  | event :: rest => do
    Run.emit event
    emitAll rest

def parse (rules : Rules σ ν ε) : Nat → {α : Type} → Grammar σ ν ε α → Parser τ σ ε α
  | 0, _, _ => fun _ => Run.outOfFuel
  | fuel + 1, _, g =>
    parseWith fuel
      (fun name =>
        match rules.slot name with
        | .undefined => Parser.undefinedRule
        | .dropped => Parser.droppedRule
        | .defined definition => parse rules fuel definition)
      (fun name s => do
        let product := rules.build name
        emitAll product.events
        parse rules fuel product.grammar s)
      g

section

variable {α : Type} [Stored α] {count : Nat} (rules : Rules σ ν ε) (fuel : Nat)

/-- A repetition stops before anything is parsed if there is no storage for its values. -/
theorem exactly_parse_of_full (full : ¬ HasStorage α count) (p : Grammar σ ν ε α) (s : Stream σ)
    (session : Session τ σ ε) :
    (exactly p count).parse rules (fuel + 1) s session =
      .error (.fault .capacityOverflow) session := by
  change Parser.exactly (p.parse rules (fuel + 1)) count s session = _
  rw [Parser.exactly_of_full full]
  rfl

theorem atLeast_parse_of_full (full : ¬ HasStorage α count) (p : Grammar σ ν ε α) (s : Stream σ)
    (session : Session τ σ ε) :
    (atLeast p count).parse rules (fuel + 1) s session =
      .error (.fault .capacityOverflow) session := by
  change Parser.atLeast fuel (p.parse rules (fuel + 1)) count s session = _
  rw [Parser.atLeast_of_full full]
  rfl

end

/-- Parses at the top level, where escalations become ordinary errors. -/
def run (rules : Rules σ ν ε) (fuel : Nat) {α : Type} (g : Grammar σ ν ε α) : Parser τ σ ε α :=
  Parser.boundary (g.parse rules fuel)

/-- Parses at the top level for a result. A failure is reported where the parse started. -/
def runResult (rules : Rules σ ν ε) (fuel : Nat) {α : Type} (g : Grammar σ ν ε α) (s : Stream σ) :
    Run τ σ ε (Except ParseError (α × Stream σ)) := do
  match ← g.run rules fuel s with
  | .failure _ => return .error (.noMatch s.position)
  | outcome => return outcome.result

end Rewind.Grammar
