import FieldUpdate.Checksum
import FieldUpdate.Command

namespace FieldUpdate

/-- The longest frame in either direction, and the longest payload a command takes. -/
def maxFrame : Nat := 32

/-- The address that every device listens to and none answers. -/
def generalCallAddress : UInt8 := 0

inductive Framing
  /-- Over command and payload, for buses whose hardware selects the receiver. -/
  | crc8
  /-- Over destination address, command and payload, for lines shared by all devices. -/
  | crc16
  deriving DecidableEq

namespace Framing

def trailerLength : Framing → Nat
  | crc8 => 1
  | crc16 => 2

def replyOverhead (f : Framing) : Nat := 2 + f.trailerLength

/-- On a shared line a corrupt frame may belong to another device, so it is not answered. -/
def dropsCorrupt : Framing → Bool
  | crc8 => false
  | crc16 => true

/-- The checksum of `body` as it is sent to or from `address`, low byte first. -/
def trailer (f : Framing) (address : UInt8) (body : Bytes) : Bytes :=
  match f with
  | crc8 => [Checksum.crc8 body]
  | crc16 => wordBytes (Checksum.crc16 (address :: body))

def enclose (f : Framing) (address : UInt8) (body : Bytes) : Bytes :=
  body ++ f.trailer address body

/-- True when `frame`, its checksum included, leaves nothing in the register. -/
def intact (f : Framing) (address : UInt8) (frame : Bytes) : Bool :=
  match f with
  | crc8 => Checksum.crc8 frame == 0
  | crc16 => Checksum.crc16 (address :: frame) == 0

theorem trailer_length (f : Framing) (address : UInt8) (body : Bytes) :
    (f.trailer address body).length = f.trailerLength := by
  cases f <;> rfl

theorem enclose_length (f : Framing) (address : UInt8) (body : Bytes) :
    (f.enclose address body).length = body.length + f.trailerLength := by
  rw [enclose, List.length_append, trailer_length]

/-- Encloses the first `len` bytes of `buffer` in place and gives the length of the frame. -/
def encloseIn (f : Framing) (address : UInt8) (buffer : Bytes) (len : Nat) :
    Checked (Nat × Bytes) := do
  let body ← slice buffer 0 len
  let enclosed ← patch buffer 0 (f.enclose address body)
  return (len + f.trailerLength, enclosed)

end Framing

inductive Opened
  /-- Corrupt, on a line where that stays without an answer. -/
  | dropped
  /-- Answered with a status alone. -/
  | refused (status : Status)
  /-- An intact command and its payload. -/
  | command (cmd : UInt8) (payload : Bytes)
  deriving DecidableEq

/-- Length comes first, then the checksum, then the size of the payload. -/
def Framing.opened (f : Framing) (address : UInt8) : Bytes → Opened
  | [] => .refused .invalidTransfer
  | cmd :: rest =>
    if rest.length < f.trailerLength then .refused .invalidTransfer
    else if !f.intact address (cmd :: rest) then
      if f.dropsCorrupt then .dropped else .refused .invalidCrc
    else if rest.length - f.trailerLength > maxFrame then .refused .invalidTransfer
    else .command cmd (rest.take (rest.length - f.trailerLength))

end FieldUpdate
