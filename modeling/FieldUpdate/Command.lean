import FieldUpdate.Bytes

namespace FieldUpdate

inductive Status
  | ok
  | failed
  | notSupported
  | invalidTransfer
  | invalidCrc
  | invalidArguments
  /-- Never sent: it suppresses the reply. -/
  | noReply
  deriving DecidableEq

def Status.byte : Status → UInt8
  | .ok => 0x00
  | .failed => 0x01
  | .notSupported => 0x02
  | .invalidTransfer => 0x03
  | .invalidCrc => 0x04
  | .invalidArguments => 0x05
  | .noReply => 0xff

theorem Status.byte_injective {s t : Status} (h : s.byte = t.byte) : s = t := by
  cases s <;> cases t <;> first | rfl | exact absurd h (by decide)

inductive Command
  | getProtocolVersion
  | setAddress
  | powerUpDisplay
  | getHardwareInfo
  | startApplication
  | writeFlash
  | finalizeFlash
  | readFlash
  | getHardwareRevision
  | getSerialNumber
  | getNumChildren
  | setChildSelect
  | getExtraInfo
  | readBoardInfo
  deriving DecidableEq

def Command.byte : Command → UInt8
  | .getProtocolVersion => 0x00
  | .setAddress => 0x01
  | .powerUpDisplay => 0x02
  | .getHardwareInfo => 0x03
  | .startApplication => 0x04
  | .writeFlash => 0x05
  | .finalizeFlash => 0x06
  | .readFlash => 0x07
  | .getHardwareRevision => 0x08
  | .getSerialNumber => 0x09
  | .getNumChildren => 0x0a
  | .setChildSelect => 0x0b
  | .getExtraInfo => 0x0c
  | .readBoardInfo => 0x0d

def Command.ofByte? : UInt8 → Option Command
  | 0x00 => some .getProtocolVersion
  | 0x01 => some .setAddress
  | 0x02 => some .powerUpDisplay
  | 0x03 => some .getHardwareInfo
  | 0x04 => some .startApplication
  | 0x05 => some .writeFlash
  | 0x06 => some .finalizeFlash
  | 0x07 => some .readFlash
  | 0x08 => some .getHardwareRevision
  | 0x09 => some .getSerialNumber
  | 0x0a => some .getNumChildren
  | 0x0b => some .setChildSelect
  | 0x0c => some .getExtraInfo
  | 0x0d => some .readBoardInfo
  | _ => none

theorem Command.ofByte?_byte (c : Command) : Command.ofByte? c.byte = some c := by
  cases c <;> rfl

/-- What a frame to the general call address can ask of every device at once. -/
inductive GeneralCall
  | resetAddress
  | reset
  deriving DecidableEq

def GeneralCall.byte : GeneralCall → UInt8
  | .resetAddress => 0x04
  | .reset => 0x06

def GeneralCall.ofByte? : UInt8 → Option GeneralCall
  | 0x04 => some .resetAddress
  | 0x06 => some .reset
  | _ => none

theorem GeneralCall.ofByte?_byte (c : GeneralCall) : GeneralCall.ofByte? c.byte = some c := by
  cases c <;> rfl

inductive Exit
  | startApplication
  | reset
  deriving DecidableEq

/-- The status of one command and the number of payload bytes it answers with. -/
structure CommandResult where
  status : Status
  len : UInt8
  deriving DecidableEq

def Status.result (s : Status) : CommandResult := ⟨s, 0⟩

/-- A result together with the bytes the command put at the front of its output. -/
structure Answer where
  result : CommandResult
  written : Bytes

def Status.answer (s : Status) : Answer := ⟨s.result, []⟩

/-- Answers with `payload` where it fits into `capacity` bytes; the length is one byte wide. -/
def Answer.reply (capacity : Nat) (payload : Bytes) : Answer :=
  if payload.length ≤ capacity then ⟨⟨.ok, payload.length.toUInt8⟩, payload⟩
  else Status.invalidTransfer.answer

end FieldUpdate
