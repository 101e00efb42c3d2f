import FieldUpdate.Printed

namespace FieldUpdate

inductive Message
  | started (hardwareType revision : UInt8)
  | noDescriptor
  | leaving (exit : Exit)
  /-- A frame for another address. -/
  | ignored (address : UInt8)
  /-- A frame with a wrong checksum on a shared line. -/
  | corrupt (address : UInt8)
  | handled (address cmd status : UInt8) (reply : Nat)
  | unknownCommand (cmd : UInt8)
  | resetCall
  | resetAddressCall
  | unknownCall (cmd : UInt8)
  | addressSet (address : UInt8)
  | writeOutOfSequence (address expected : Nat)
  | writePastEnd (address : Nat)
  | finalized (erases : Nat)
  | blocksWritten (count : Nat)
  | blocksUnchanged (count : Nat)
  | selectFailed (index : UInt8) (e : SelectError)
  | flashFailed (e : FlashError)

namespace Message

def level : Message → Level
  | started _ _ | leaving _ | resetCall | resetAddressCall | addressSet _ | finalized _
  | blocksWritten _ | blocksUnchanged _ => .info
  | noDescriptor | corrupt _ | writeOutOfSequence _ _ | writePastEnd _ => .warn
  | ignored _ | handled _ _ _ _ | unknownCommand _ | unknownCall _ => .debug
  | selectFailed _ _ | flashFailed _ => .error

/-- The text of a line in the pieces that are written one after the other. -/
def pieces : Message → List String
  | started hardwareType revision =>
    ["bootloader hw ", toString hardwareType, " rev ", toString revision, "\n"]
  | noDescriptor => ["no board info\n"]
  | leaving exit => ["leaving: ", exit.name, "\n"]
  | ignored address => ["ignored frame for ", toString address, "\n"]
  | corrupt address => ["crc error from ", toString address, "\n"]
  | handled address cmd status reply =>
    ["@", toString address, " cmd ", toString cmd, " status ", toString status, " reply ",
      toString reply, "\n"]
  | unknownCommand cmd => ["unknown command ", toString cmd, "\n"]
  | resetCall => ["general call: reset\n"]
  | resetAddressCall => ["general call: reset address\n"]
  | unknownCall cmd => ["general call ", toString cmd, " ignored\n"]
  | addressSet address => ["address set to ", toString address, "\n"]
  | writeOutOfSequence address expected =>
    ["write at ", toString address, ", expected ", toString expected, "\n"]
  | writePastEnd address => ["write at ", toString address, " past application end\n"]
  | finalized erases => ["flash finalized, ", toString erases, " erases\n"]
  | blocksWritten count => [toString count, " blocks written\n"]
  | blocksUnchanged count => [toString count, " blocks unchanged\n"]
  | selectFailed index e => ["child ", toString index, " select failed: ", e.name, "\n"]
  | flashFailed e => ["flash error ", e.form.inline, "\n"]

end Message

end FieldUpdate
