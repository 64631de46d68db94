/-!
# Decoding UTF-8

Bytes become characters by the table of well-formed sequences. A byte that does not belong to such a
sequence becomes the replacement character U+FFFD, and decoding goes on with the byte after it.
-/

namespace Lox.Text

/-- The replacement character. -/
def replacement : Char := Char.ofNat 0xFFFD

/-- A continuation byte. -/
def isTail (b : UInt8) : Bool := 0x80 ≤ b && b ≤ 0xBF

/-- The six bits a continuation byte carries. -/
def tailBits (b : UInt8) : Nat := b.toNat % 64

/-- The bounds of the byte after a lead byte of a sequence of three. They exclude forms that are
longer than need be, and surrogates. -/
def secondOfThree (lead b : UInt8) : Bool :=
  if lead = 0xE0 then 0xA0 ≤ b && b ≤ 0xBF
  else if lead = 0xED then 0x80 ≤ b && b ≤ 0x9F
  else isTail b

/-- The bounds of the byte after a lead byte of a sequence of four. They exclude forms that are
longer than need be, and values above U+10FFFF. -/
def secondOfFour (lead b : UInt8) : Bool :=
  if lead = 0xF0 then 0x90 ≤ b && b ≤ 0xBF
  else if lead = 0xF4 then 0x80 ≤ b && b ≤ 0x8F
  else isTail b

/-- The first character of some bytes, and how many bytes after the lead it takes. -/
def decodeChar (lead : UInt8) (rest : List UInt8) : Char × Nat :=
  if lead < 0x80 then (Char.ofNat lead.toNat, 0)
  else if 0xC2 ≤ lead && lead ≤ 0xDF then
    match rest with
    | b :: _ =>
      if isTail b then (Char.ofNat (lead.toNat % 32 * 64 + tailBits b), 1) else (replacement, 0)
    | _ => (replacement, 0)
  else if 0xE0 ≤ lead && lead ≤ 0xEF then
    match rest with
    | b :: c :: _ =>
      if secondOfThree lead b && isTail c then
        (Char.ofNat (lead.toNat % 16 * 4096 + tailBits b * 64 + tailBits c), 2)
      else (replacement, 0)
    | _ => (replacement, 0)
  else if 0xF0 ≤ lead && lead ≤ 0xF4 then
    match rest with
    | b :: c :: d :: _ =>
      if secondOfFour lead b && isTail c && isTail d then
        (Char.ofNat (lead.toNat % 8 * 262144 + tailBits b * 4096 + tailBits c * 64 + tailBits d), 3)
      else (replacement, 0)
    | _ => (replacement, 0)
  else (replacement, 0)

/-- The characters of a list of bytes. -/
def decodeBytes : List UInt8 → List Char
  | [] => []
  | lead :: rest =>
    let (c, n) := decodeChar lead rest
    c :: decodeBytes (rest.drop n)
termination_by bytes => bytes.length
decreasing_by simp only [List.length_drop, List.length_cons]; omega

/-- The text that some bytes stand for. -/
def decodeUtf8 (bytes : ByteArray) : String := String.ofList (decodeBytes bytes.toList)

end Lox.Text
