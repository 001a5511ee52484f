/-!
Decoding of UTF-8. Bytes stand for text when they split into well-formed sequences: of the shortest
form, below 0x110000 and outside the surrogates.
-/
namespace Rewind.Utf8

def isTail (b : UInt8) : Bool := 0x80 ≤ b && b ≤ 0xbf

/-- The payload of a continuation byte. -/
def tailBits (b : UInt8) : Nat := b.toNat % 64

/-- Whether `b` may be the second byte of a three-byte sequence that starts with `a`. -/
def secondOfThree (a b : UInt8) : Bool :=
  if a = 0xe0 then 0xa0 ≤ b && b ≤ 0xbf
  else if a = 0xed then 0x80 ≤ b && b ≤ 0x9f
  else 0xe1 ≤ a && a ≤ 0xef && isTail b

/-- Whether `b` may be the second byte of a four-byte sequence that starts with `a`. -/
def secondOfFour (a b : UInt8) : Bool :=
  if a = 0xf0 then 0x90 ≤ b && b ≤ 0xbf
  else if a = 0xf4 then 0x80 ≤ b && b ≤ 0x8f
  else 0xf1 ≤ a && a ≤ 0xf3 && isTail b

/-- The text that the bytes stand for, none where they are not well-formed. -/
def decode : List UInt8 → Option (List Char)
  | [] => some []
  | a :: rest =>
    if a < 0x80 then (decode rest).map (Char.ofNat a.toNat :: ·)
    else
      match rest with
      | [] => none
      | b :: rest =>
        if 0xc2 ≤ a && a ≤ 0xdf && isTail b then
          (decode rest).map (Char.ofNat (a.toNat % 32 * 64 + tailBits b) :: ·)
        else
          match rest with
          | [] => none
          | c :: rest =>
            if secondOfThree a b && isTail c then
              (decode rest).map
                (Char.ofNat (a.toNat % 16 * 4096 + tailBits b * 64 + tailBits c) :: ·)
            else
              match rest with
              | [] => none
              | d :: rest =>
                if secondOfFour a b && isTail c && isTail d then
                  (decode rest).map
                    (Char.ofNat (a.toNat % 8 * 262144 + tailBits b * 4096 + tailBits c * 64 +
                      tailBits d) :: ·)
                else none

/-- No character is shorter than a byte. -/
theorem length_le_of_decode {bytes : List UInt8} {cs : List Char} (h : decode bytes = some cs) :
    cs.length ≤ bytes.length := by
  fun_induction decode bytes generalizing cs <;> simp_all
  all_goals
    obtain ⟨ds, hd, rfl⟩ := h
    have := ‹∀ {cs : List Char}, decode _ = some cs → _› hd
    simp only [List.length_cons]
    omega

end Rewind.Utf8
