import Rewind.Position
import Rewind.Symbol

/-!
Values of grammars that are put together while a program runs, when no type of their own is known
for them. Every value can be read as text and as a number.
-/
namespace Rewind

inductive Value (σ : Type) where
  | unit
  | symbol (s : σ)
  | text (text : String)
  | int (n : Int)
  | list (values : List (Value σ))
  | pair (first second : Value σ)
  | none
  | some (value : Value σ)
  | spanned (value : Value σ) (span : Span)

namespace Value

/-- Eight words: the widest value has a span of six, beside a value elsewhere and its kind. -/
instance {σ : Type} : Stored (Value σ) := ⟨64, by decide⟩

variable {σ : Type}

mutual

/-- Whether every span in a value has a length. -/
def spansHold : Value σ → Bool
  | unit | symbol _ | text _ | int _ | none => true
  | list values => allSpansHold values
  | pair first second => first.spansHold && second.spansHold
  | some value => value.spansHold
  | spanned value span => value.spansHold && span.length.isOk

def allSpansHold : List (Value σ) → Bool
  | [] => true
  | value :: rest => value.spansHold && allSpansHold rest

end

def first : Value σ → Value σ
  | pair first _ => first
  | v => v

def second : Value σ → Value σ
  | pair _ second => second
  | v => v

def isSome : Value σ → Bool
  | some _ => true
  | _ => false

variable [Symbol σ]

mutual

/-- The characters that a value shows, in order. -/
def glyphs : Value σ → List Char
  | unit => []
  | symbol s => [Symbol.glyph s]
  | text t => t.toList
  | int n => (toString n).toList
  | list values => glyphsOfAll values
  | pair first second => first.glyphs ++ second.glyphs
  | none => []
  | some value => value.glyphs
  | spanned value _ => value.glyphs

def glyphsOfAll : List (Value σ) → List Char
  | [] => []
  | value :: rest => value.glyphs ++ glyphsOfAll rest

end

def toText (v : Value σ) : String := String.ofList v.glyphs

/-- The number that the decimal digits among some characters write, all others left out. -/
def digitsValue (cs : List Char) : Nat :=
  cs.foldl (fun n c => if c.isDigit then 10 * n + (c.toNat - '0'.toNat) else n) 0

def toInt : Value σ → Int
  | int n => n
  | v => digitsValue v.glyphs

/-- The number that a value gives to count by. A negative number counts as the word
that holds it. -/
def toCount (v : Value σ) : Nat := (v.toInt % wordLimit).toNat

/-- The number of values of a list, of characters of anything else. -/
def length : Value σ → Nat
  | list values => values.length
  | v => v.glyphs.length

def isEven (v : Value σ) : Bool := v.toInt % 2 = 0

def isNonempty (v : Value σ) : Bool := !v.glyphs.isEmpty

/-- Applies the operator of the given name. Any name but the first three divides, toward zero, and a
division by zero gives zero. -/
def operate (operator : String) (a b : Int) : Int :=
  if operator = "+" then a + b
  else if operator = "-" then a - b
  else if operator = "*" then a * b
  else a.tdiv b

/-- One more operator and operand. -/
def operateStep (n : Int) : Value σ → Int
  | pair operator operand => operate operator.toText n operand.toInt
  | _ => n

/-- Calculates from the left: a first number, and a list of operators with their operands. -/
def calculate : Value σ → Int
  | pair first (list steps) => steps.foldl operateStep first.toInt
  | v => v.first.toInt

end Value

/-- The ways to convert a value. -/
inductive Conversion where
  | text
  | int
  | increment
  | unit
  | length
  | first
  | second
  | constant (n : Int)
  | calculate

def Conversion.apply {σ : Type} [Symbol σ] (c : Conversion) (v : Value σ) : Value σ :=
  match c with
  | text => .text v.toText
  | int => .int v.toInt
  | increment => .int (v.toInt + 1)
  | unit => .unit
  | length => .int v.length
  | first => v.first
  | second => v.second
  | constant n => .int n
  | calculate => .int v.calculate

/-- The questions that can be asked of a value. -/
inductive Criterion where
  | always
  | never
  | even
  | nonempty
  | present
  | among (texts : List String)
  | outside (texts : List String)
  | atMost (n : Int)

def Criterion.accepts {σ : Type} [Symbol σ] (c : Criterion) (v : Value σ) : Bool :=
  match c with
  | always => true
  | never => false
  | even => v.isEven
  | nonempty => v.isNonempty
  | present => v.isSome
  | among texts => v.toText ∈ texts
  | outside texts => v.toText ∉ texts
  | atMost n => v.toInt ≤ n

end Rewind
