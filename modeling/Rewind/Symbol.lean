import Rewind.Storage

/-!
The units of an input. A symbol type names its line feed and its carriage return, which is all that
position tracking asks of it, and gives each symbol a code and a character to be shown with.
-/
namespace Rewind

class Symbol (σ : Type) extends Stored σ where
  decEq : DecidableEq σ
  lineFeed : σ
  carriageReturn : σ
  lineFeed_ne_carriageReturn : lineFeed ≠ carriageReturn
  /-- The number that character classes and ranges compare. -/
  code : σ → Nat
  /-- The character that stands for the symbol in text. -/
  glyph : σ → Char
  /-- The symbols that spell a text. -/
  spell : String → List σ

instance {σ : Type} [Symbol σ] : DecidableEq σ := Symbol.decEq

namespace Symbol

instance : Symbol Char where
  decEq := inferInstance
  lineFeed := '\n'
  carriageReturn := '\r'
  lineFeed_ne_carriageReturn := by decide
  code := Char.toNat
  glyph := id
  spell := String.toList

instance : Symbol UInt8 where
  decEq := inferInstance
  lineFeed := 10
  carriageReturn := 13
  lineFeed_ne_carriageReturn := by decide
  code := UInt8.toNat
  glyph b := Char.ofNat b.toNat
  spell s := s.toUTF8.toList

variable {σ : Type} [Symbol σ]

def isLineFeed (s : σ) : Bool := s = lineFeed

def isCarriageReturn (s : σ) : Bool := s = carriageReturn

end Symbol
end Rewind
