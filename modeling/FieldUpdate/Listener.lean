import FieldUpdate.Frame

namespace FieldUpdate

structure Listener where
  /-- What the masked bits of an address have to be. -/
  initial : UInt8
  mask : UInt8
  assigned : Option UInt8
  deriving DecidableEq

namespace Listener

/-- Listens on the 7-bit addresses that share their top `bits` bits with `initial`. -/
def range (initial bits : UInt8) : Listener :=
  let mask := ~~~(0x7f >>> (min bits 7)) &&& 0x7f
  ⟨initial &&& mask, mask, none⟩

/-- The general call reaches every device. -/
def hears (l : Listener) (address : UInt8) : Bool :=
  address == generalCallAddress ||
    match l.assigned with
    | some own => address == own
    | none => address &&& l.mask == l.initial

def assign (l : Listener) (address : UInt8) : Listener := { l with assigned := some address }

def release (l : Listener) : Listener := { l with assigned := none }

def heard (l : Listener) : List UInt8 := ((List.range 256).map Nat.toUInt8).filter l.hears

end Listener

end FieldUpdate
