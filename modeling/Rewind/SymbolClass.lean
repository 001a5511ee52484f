import Rewind.Symbol

/-!
Classes of symbols. The named classes hold ASCII symbols only, in characters and bytes alike.
-/
namespace Rewind

inductive SymbolClass (σ : Type) where
  | digit
  | lower
  | upper
  | alpha
  | alnum
  | hex
  | space
  | always
  | never
  | among (symbols : List σ)
  | outside (symbols : List σ)
  /-- The symbols whose codes lie between two numbers, these included. -/
  | range (low high : Nat)

namespace SymbolClass

def between (low high : Char) (code : Nat) : Bool := low.toNat ≤ code && code ≤ high.toNat

def isDigit (code : Nat) : Bool := between '0' '9' code

def isLower (code : Nat) : Bool := between 'a' 'z' code

def isUpper (code : Nat) : Bool := between 'A' 'Z' code

def isHex (code : Nat) : Bool := isDigit code || between 'a' 'f' code || between 'A' 'F' code

def isSpace (code : Nat) : Bool := [' ', '\t', '\n', '\r'].any fun c => c.toNat = code

def accepts {σ : Type} [Symbol σ] (k : SymbolClass σ) (s : σ) : Bool :=
  let code := Symbol.code s
  match k with
  | digit => isDigit code
  | lower => isLower code
  | upper => isUpper code
  | alpha => isLower code || isUpper code
  | alnum => isLower code || isUpper code || isDigit code
  | hex => isHex code
  | space => isSpace code
  | always => true
  | never => false
  | among symbols => s ∈ symbols
  | outside symbols => s ∉ symbols
  | range low high => low ≤ code && code ≤ high

end SymbolClass
end Rewind
