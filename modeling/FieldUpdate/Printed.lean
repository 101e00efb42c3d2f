import FieldUpdate.Listener
import FieldUpdate.ChildLines
import FieldUpdate.ImageStream
import FieldUpdate.Log

namespace FieldUpdate

mutual

inductive Form
  /-- A name or a number that stands for itself. -/
  | word (text : String)
  /-- A name applied to one value. -/
  | applied (name : String) (argument : Form)
  | record (name : String) (fields : Fields)

inductive Fields
  | none
  | field (label : String) (value : Form) (rest : Fields)

end

mutual

def Form.inline : Form → String
  | .word text => text
  | .applied name argument => name ++ "(" ++ argument.inline ++ ")"
  | .record name fields => name ++ " \x7b " ++ ", ".intercalate fields.inline ++ " \x7d"

def Fields.inline : Fields → List String
  | .none => []
  | .field label value rest => (label ++ ": " ++ value.inline) :: rest.inline

end

/-- Moves lines to the right and puts a comma after the last. -/
def nested : List String → List String
  | [] => []
  | [last] => ["    " ++ last ++ ","]
  | line :: rest => ("    " ++ line) :: nested rest

def labelled (label : String) : List String → List String
  | [] => []
  | first :: rest => (label ++ ": " ++ first) :: rest

mutual

/-- One line for each name and each value, nested ones further to the right. -/
def Form.lines : Form → List String
  | .word text => [text]
  | .applied name argument => (name ++ "(") :: nested argument.lines ++ [")"]
  | .record name fields => (name ++ " \x7b") :: fields.lines ++ ["\x7d"]

def Fields.lines : Fields → List String
  | .none => []
  | .field label value rest => nested (labelled label value.lines) ++ rest.lines

end

def Form.pretty (f : Form) : String := "\n".intercalate f.lines

def numeral (n : Nat) : Form := .word (toString n)

def optional (form : Option Form) : Form :=
  match form with
  | none => .word "None"
  | some f => .applied "Some" f

def Status.name : Status → String
  | .ok => "Ok"
  | .failed => "Failed"
  | .notSupported => "NotSupported"
  | .invalidTransfer => "InvalidTransfer"
  | .invalidCrc => "InvalidCrc"
  | .invalidArguments => "InvalidArguments"
  | .noReply => "NoReply"

def Command.name : Command → String
  | .getProtocolVersion => "GetProtocolVersion"
  | .setAddress => "SetAddress"
  | .powerUpDisplay => "PowerUpDisplay"
  | .getHardwareInfo => "GetHardwareInfo"
  | .startApplication => "StartApplication"
  | .writeFlash => "WriteFlash"
  | .finalizeFlash => "FinalizeFlash"
  | .readFlash => "ReadFlash"
  | .getHardwareRevision => "GetHardwareRevision"
  | .getSerialNumber => "GetSerialNumber"
  | .getNumChildren => "GetNumChildren"
  | .setChildSelect => "SetChildSelect"
  | .getExtraInfo => "GetExtraInfo"
  | .readBoardInfo => "ReadBoardInfo"

def GeneralCall.name : GeneralCall → String
  | .resetAddress => "ResetAddress"
  | .reset => "Reset"

def Exit.name : Exit → String
  | .startApplication => "StartApplication"
  | .reset => "Reset"

def SelectError.name : SelectError → String
  | .noSuchChild => "NoSuchChild"
  | .pin => "Pin"

def BlockOutcome.name : BlockOutcome → String
  | .unchanged => "Unchanged"
  | .written => "Written"

def Level.name : Level → String
  | .error => "Error"
  | .warn => "Warn"
  | .info => "Info"
  | .debug => "Debug"

def Framing.name : Framing → String
  | .crc8 => "Crc8"
  | .crc16 => "Crc16"

def FlashError.form : FlashError → Form
  | .invalidPage => .word "InvalidPage"
  | .unsupportedVector => .word "UnsupportedVector"
  | .outOfRange => .word "OutOfRange"
  | .hardware bits => .applied "Hardware" (numeral bits.toNat)

def StreamError.form : StreamError → Form
  | .outOfSequence => .word "OutOfSequence"
  | .outOfRange => .word "OutOfRange"
  | .flash e => .applied "Flash" e.form

def Progress.form (p : Progress) : Form :=
  .record "Progress" (.field "written" (numeral p.written)
    (.field "unchanged" (numeral p.unchanged) .none))

def CommandResult.form (r : CommandResult) : Form :=
  .record "CmdResult" (.field "status" (.word r.status.name)
    (.field "len" (numeral r.len.toNat) .none))

def VectorSlot.form (s : VectorSlot) : Form :=
  .record "Trampoline" (.field "slot" (numeral s.address.toNat) .none)

def Layout.form (l : Layout) : Form :=
  .record "FlashLayout" (.field "application_size" (numeral l.applicationSize.toNat)
    (.field "writable_end" (numeral l.writableEnd.toNat)
      (.field "trampoline" (optional (l.slot.map VectorSlot.form)) .none)))

def Listener.form (l : Listener) : Form :=
  .record "AddressFilter" (.field "initial" (numeral l.initial.toNat)
    (.field "mask" (numeral l.mask.toNat)
      (.field "assigned" (optional (l.assigned.map fun a => numeral a.toNat)) .none)))

end FieldUpdate
