import FieldUpdate.Board
import FieldUpdate.Descriptor
import FieldUpdate.Exchange
import FieldUpdate.Message

namespace FieldUpdate

structure Session (g : Geometry) where
  board : Board
  updater : Updater g
  descriptor : Descriptor
  children : Children
  listener : Listener
  /-- The listener changed and the bus has not been told. -/
  announceDue : Bool
  exit : Option Exit
  logger : Logger

namespace Session

variable {g : Geometry}

def note (s : Session g) (m : Message) : Session g :=
  { s with logger := (s.logger.line m.level m.pieces).2 }

def start (board : Board) (flash : Programmer g) (children : Children) (logger : Logger) :
    Session g :=
  let descriptor := Descriptor.load flash.chip board.descriptorOffset.toNat
  let s : Session g :=
    { board, updater := Updater.idle flash, descriptor, children, listener := board.listener
      announceDue := false, exit := none, logger }
  let s := s.note (.started board.hardwareType descriptor.hardwareRevision)
  if descriptor.isValid then s else s.note .noDescriptor

/-- The answer to a command without payload that asks for fixed bytes. -/
def inquiry (input : Bytes) (capacity : Nat) (payload : Bytes) : Answer :=
  if input.isEmpty then Answer.reply capacity payload else Status.invalidArguments.answer

/-- Hardware type, oldest compatible revision, loader version and the size of the application. -/
def hardwareInfo (s : Session g) : Bytes :=
  let size := s.updater.flash.layout.applicationSize
  [s.board.hardwareType, s.descriptor.compatibleRevision, loaderVersion, highByte size,
    lowByte size]

/-- Address and hardware type. A command for another type is meant for someone else in range. -/
def setAddress (s : Session g) : Bytes → Answer × Session g
  | [address, hardwareType] =>
    if hardwareType ≠ 0 ∧ hardwareType ≠ s.board.hardwareType then (Status.noReply.answer, s)
    else if address = generalCallAddress ∨ address > highestAddress then
      (Status.invalidArguments.answer, s)
    else
      let s := { s with listener := s.listener.assign address, announceDue := true }
      (Status.ok.answer, s.note (.addressSet address))
  | _ => (Status.invalidArguments.answer, s)

def startApplication (s : Session g) (input : Bytes) : Answer × Session g :=
  if input.isEmpty then (Status.ok.answer, { s with exit := some .startApplication })
  else (Status.invalidArguments.answer, s)

def reportFlashError (s : Session g) (e : FlashError) (capacity : Nat) : Answer × Session g :=
  let answer := if capacity = 0 then Status.failed.answer else ⟨⟨.failed, 1⟩, [e.code]⟩
  (answer, s.note (.flashFailed e))

def noteProgress (s : Session g) (p : Progress) : Session g :=
  let s := if p.written > 0 then s.note (.blocksWritten p.written) else s
  if p.unchanged > 0 then s.note (.blocksUnchanged p.unchanged) else s

def writeFlash (s : Session g) (input : Bytes) (capacity : Nat) :
    Checked (Answer × Session g) := do
  match input with
  | high :: low :: data =>
    let address := bigEndian high low
    match ← s.updater.extend address data with
    | (.ok progress, updater) =>
      return (Status.ok.answer, { s with updater }.noteProgress progress)
    | (.error .outOfSequence, updater) =>
      return (Status.invalidArguments.answer,
        { s with updater }.note (.writeOutOfSequence address updater.cursor))
    | (.error .outOfRange, updater) =>
      return (Status.invalidArguments.answer, { s with updater }.note (.writePastEnd address))
    | (.error (.flash e), updater) => return { s with updater }.reportFlashError e capacity
  | _ => return (Status.invalidArguments.answer, s)

def finalizeFlash (s : Session g) (input : Bytes) (capacity : Nat) :
    Checked (Answer × Session g) := do
  if !input.isEmpty then
    return (Status.invalidArguments.answer, s)
  else
    match ← s.updater.finish with
    | (.error e, updater) => return { s with updater }.reportFlashError e capacity
    | (.ok progress, updater) =>
      let (erases, flash) := updater.flash.takeErases
      let s := { s with updater := { updater with flash } }.noteProgress progress
      return (Answer.reply capacity [erases.toUInt8], s.note (.finalized erases))

def readFlash (s : Session g) (input : Bytes) (capacity : Nat) : Answer :=
  match input with
  | [high, low, len] =>
    let address := bigEndian high low
    if len.toNat > capacity ∨ address + len.toNat > addressSpace then
      Status.invalidArguments.answer
    else ⟨⟨.ok, len⟩, s.updater.flash.imageRange address len.toNat⟩
  | _ => Status.invalidArguments.answer

def readDescriptor (s : Session g) (input : Bytes) (capacity : Nat) : Answer :=
  match input with
  | [offset, len] =>
    if len.toNat > capacity then Status.invalidArguments.answer
    else
      let copied := s.descriptor.read offset.toNat len.toNat
      ⟨⟨.ok, copied.length.toUInt8⟩, copied⟩
  | _ => Status.invalidArguments.answer

def childCount (s : Session g) (input : Bytes) (capacity : Nat) : Answer :=
  if s.children.count = 0 then Status.notSupported.answer
  else inquiry input capacity [s.children.count]

def levelOf? : UInt8 → Option Bool
  | 0 => some false
  | 1 => some true
  | _ => none

def selectChild (s : Session g) (input : Bytes) : Answer × Session g :=
  if s.children.count = 0 then (Status.notSupported.answer, s)
  else
    match input with
    | [index, state] =>
      match levelOf? state with
      | none => (Status.invalidArguments.answer, s)
      | some high =>
        if index ≥ s.children.count then (Status.invalidArguments.answer, s)
        else
          match s.children.select index high with
          | (.ok (), children) => (Status.ok.answer, { s with children })
          | (.error .noSuchChild, children) =>
            (Status.invalidArguments.answer, { s with children })
          | (.error .pin, children) =>
            (Status.failed.answer, { s with children }.note (.selectFailed index .pin))
    | _ => (Status.invalidArguments.answer, s)

def perform (s : Session g) (command : Command) (input : Bytes) (capacity : Nat) :
    Checked (Answer × Session g) :=
  match command with
  | .getProtocolVersion =>
    .ok (inquiry input capacity [highByte protocolVersion, lowByte protocolVersion], s)
  | .setAddress => .ok (s.setAddress input)
  | .powerUpDisplay => .ok (Status.notSupported.answer, s)
  | .getHardwareInfo => .ok (inquiry input capacity s.hardwareInfo, s)
  | .startApplication => .ok (s.startApplication input)
  | .writeFlash => s.writeFlash input capacity
  | .finalizeFlash => s.finalizeFlash input capacity
  | .readFlash => .ok (s.readFlash input capacity, s)
  | .getHardwareRevision => .ok (inquiry input capacity [s.descriptor.hardwareRevision], s)
  | .getSerialNumber => .ok (inquiry input capacity s.descriptor.serialNumber, s)
  | .getNumChildren => .ok (s.childCount input capacity, s)
  | .setChildSelect => .ok (s.selectChild input)
  | .getExtraInfo => .ok (inquiry input capacity s.descriptor.extraInfo, s)
  | .readBoardInfo => .ok (s.readDescriptor input capacity, s)

def run (s : Session g) (cmd : UInt8) (input output : Bytes) :
    Checked (Answer × Session g) :=
  match Command.ofByte? cmd with
  | some command => s.perform command input output.length
  | none => .ok (Status.notSupported.answer, s.note (.unknownCommand cmd))

def broadcast (s : Session g) (cmd : UInt8) : Session g :=
  match GeneralCall.ofByte? cmd with
  | some .reset => { s.note .resetCall with exit := some .reset }
  | some .resetAddress =>
    let s := s.note .resetAddressCall
    { s with listener := s.listener.release, announceDue := true }
  | none => s.note (.unknownCall cmd)

def responder : Responder (Session g) := ⟨run, broadcast⟩

/-- A corrupt frame on a shared line is worth a line in the log. -/
def noteCorrupt (s : Session g) (r : Request) : Session g :=
  if r.address ≠ generalCallAddress ∧ r.framing.dropsCorrupt ∧
      r.frame.length > r.framing.trailerLength ∧ !r.framing.intact r.address r.frame then
    s.note (.corrupt r.address)
  else s

def noteHandled (s : Session g) (r : Request) (replyLength : Option Nat) (buffer : Bytes) :
    Session g :=
  match r.frame, replyLength, buffer with
  | cmd :: _, some n, status :: _ => s.note (.handled r.address cmd status n)
  | _, _, _ => s

def exchange (s : Session g) (r : Request) : Checked (Exchanged (Session g)) := do
  let e ← responder.exchange (s.noteCorrupt r) r
  return { e with state := e.state.noteHandled r e.replyLength e.buffer }

def exchangeAll (s : Session g) : List Request → Checked (List (Option Bytes) × Session g)
  | [] => .ok ([], s)
  | r :: rest => do
    let e ← s.exchange r
    let (replies, last) ← e.state.exchangeAll rest
    return (e.reply :: replies, last)

end Session

end FieldUpdate
