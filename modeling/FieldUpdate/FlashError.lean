import FieldUpdate.Bytes

namespace FieldUpdate

inductive FlashError
  /-- An empty, misaligned or oversized page, or a misaligned erase. -/
  | invalidPage
  /-- The image's reset vector cannot be moved. -/
  | unsupportedVector
  /-- The target lies outside the writable part. -/
  | outOfRange
  /-- Status bits raised by the flash controller. -/
  | hardware (bits : UInt16)
  deriving DecidableEq

def setBits (bits : UInt16) : List Nat := (List.range 16).filter bits.toNat.testBit

/-- The number of set bits (15 at most) in the upper half, the lowest one's index in the lower. -/
def condenseBits (bits : UInt16) : UInt8 :=
  match setBits bits with
  | [] => 0x10
  | first :: rest => (16 * min (rest.length + 1) 15 + first).toUInt8

namespace FlashError

def code : FlashError → UInt8
  | invalidPage => 1
  | unsupportedVector => 2
  | outOfRange => 3
  | hardware bits => condenseBits bits

def message : FlashError → String
  | invalidPage => "invalid page write"
  | unsupportedVector => "reset vector is not a relative jump"
  | outOfRange => "address outside writable flash"
  | hardware bits =>
    let digit (unit : Nat) : Char := Nat.digitChar (bits.toNat / unit % 0x10)
    "flash controller error 0x" ++ String.ofList [digit 0x1000, digit 0x100, digit 0x10, digit 1]

end FlashError

end FieldUpdate
