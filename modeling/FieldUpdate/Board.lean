import FieldUpdate.Listener

namespace FieldUpdate

def protocolVersion : UInt16 := 0x0101

def loaderVersion : UInt8 := 1

def highestAddress : UInt8 := 0x7f

/-- The core clock of the interface board in hertz. -/
def coreClock : Nat := 8000000

def logBaud : Nat := 38400

structure Board where
  /-- What a host filters on; zero is its wildcard. -/
  hardwareType : UInt8
  initialAddress : UInt8
  /-- How many top bits of an address have to be those of `initialAddress`. -/
  initialBits : UInt8
  /-- Where flash holds the descriptor. -/
  descriptorOffset : UInt16
  deriving DecidableEq

namespace Board

def interface : Board := ⟨1, 0x08, 4, 0x1fe0⟩

def hopper : Board := ⟨2, 0x08, 4, 0x7fe0⟩

instance : Inhabited Board := ⟨interface⟩

/-- What a board listens to before it is assigned an address. -/
def listener (b : Board) : Listener := Listener.range b.initialAddress b.initialBits

end Board

end FieldUpdate
