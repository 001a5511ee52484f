/-!
The descriptive text of values: records as `Name { field: value }`, characters and strings between
quotes with everything escaped that would not show.
-/
namespace Rewind

class Describe (α : Type) where
  describe : α → String

export Describe (describe)

namespace Describe

/-- A record with at least one field. -/
def record (name : String) (fields : List (String × String)) : String :=
  name ++ " \x7b " ++ ", ".intercalate (fields.map fun f => f.1 ++ ": " ++ f.2) ++ " \x7d"

/-- A name applied to one value. -/
def tagged (name value : String) : String := name ++ "(" ++ value ++ ")"

/-- The blocks that hold controls, format characters, blanks other than the space, combining marks
and private use. A character of these does not show by itself. -/
def hiddenBlocks : List (Nat × Nat) :=
  [(0x00, 0x1f), (0x7f, 0xa0), (0xad, 0xad), (0x300, 0x36f), (0x600, 0x605), (0x61c, 0x61c),
    (0x6dd, 0x6dd),
   (0x70f, 0x70f), (0x1680, 0x1680), (0x180b, 0x180f), (0x1ab0, 0x1ace), (0x1dc0, 0x1dff),
     (0x2000, 0x200f),
   (0x2028, 0x202f), (0x205f, 0x206f), (0x20d0, 0x20f0), (0x3000, 0x3000), (0xe000, 0xf8ff),
     (0xfe00, 0xfe0f),
   (0xfe20, 0xfe2f), (0xfeff, 0xfeff), (0xfff0, 0xfffb), (0xfffe, 0xffff), (0xe0000, 0x10ffff)]

def isHidden (c : Char) : Bool :=
  hiddenBlocks.any fun b => b.1 ≤ c.toNat && c.toNat ≤ b.2

def hexDigits (n : Nat) : List Char := Nat.toDigits 16 n

/-- The written form of a character between two quotes of the given kind. -/
def escape (quote c : Char) : List Char :=
  if c = '\n' then ['\\', 'n']
  else if c = '\r' then ['\\', 'r']
  else if c = '\t' then ['\\', 't']
  else if c = '\x00' then ['\\', '0']
  else if c = '\\' then ['\\', '\\']
  else if c = quote then ['\\', quote]
  else if isHidden c then ['\\', 'u', '\x7b'] ++ hexDigits c.toNat ++ ['\x7d']
  else [c]

def quotedChar (c : Char) : String :=
  String.ofList ('\'' :: escape '\'' c ++ ['\''])

def quotedString (s : String) : String :=
  String.ofList ('"' :: s.toList.flatMap (escape '"') ++ ['"'])

instance : Describe Char := ⟨quotedChar⟩
instance : Describe String := ⟨quotedString⟩
instance : Describe UInt8 := ⟨fun b => toString b.toNat⟩
instance : Describe Nat := ⟨toString⟩
instance : Describe Int := ⟨toString⟩
instance : Describe Bool := ⟨fun b => if b then "true" else "false"⟩

instance {α : Type} [Describe α] : Describe (Option α) :=
  ⟨fun | none => "None" | some a => tagged "Some" (describe a)⟩

end Describe
end Rewind
