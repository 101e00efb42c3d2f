import FieldUpdate.Bytes

namespace FieldUpdate

/-- Re-targets an instruction moved by a signed number of bytes; `none` if it cannot be moved. -/
abbrev Relocation := UInt16 → Int → Option UInt16

namespace Relocation

/-- Relative jumps and calls carry a 12-bit displacement in words, which wraps. -/
def relativeJump : Relocation := fun word offset =>
  if word &&& 0xe000 = 0xc000 then
    let jump := (word &&& 0x0fff) + UInt16.ofInt (offset.tdiv 2)
    some ((word &&& 0xf000) ||| (jump &&& 0x0fff))
  else none

def plainAddress : Relocation := fun word offset => some (word + UInt16.ofInt offset)

def immovable : Relocation := fun _ _ => none

end Relocation

/-- The slot that holds the image's reset vector, and how a vector moves there and back. -/
structure VectorSlot where
  address : UInt16
  relocate : Relocation

namespace VectorSlot

def toSlot (s : VectorSlot) (vector : UInt16) : Option UInt16 :=
  s.relocate vector (-(s.address.toNat : Int))

def fromSlot (s : VectorSlot) (stored : UInt16) : Option UInt16 :=
  s.relocate stored s.address.toNat

end VectorSlot

end FieldUpdate
