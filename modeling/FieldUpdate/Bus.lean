import FieldUpdate.Session

namespace FieldUpdate

/-- A frame as the bus hands it over. -/
structure Inbound where
  address : UInt8
  bytes : Bytes
  /-- The number of bytes that count as received. -/
  len : Nat
  /-- The longest reply the other side takes. -/
  maxReply : Nat
  /-- Why a reply to this frame cannot be sent, if it cannot. -/
  sendError : Option String

/-- What the bus has for a session that asks for a frame. -/
inductive Arrival
  | quiet
  | failure (reason : String)
  | frame (f : Inbound)

inductive BusError
  | receive (reason : String)
  | send (reason : String)
  deriving DecidableEq

inductive BusAction
  | received
  | sent (reply : Bytes)
  | announced (listener : Listener)
  deriving DecidableEq

def BusAction.announced? : BusAction → Option Listener
  | announced listener => some listener
  | received => none
  | sent _ => none

structure Arrived (g : Geometry) where
  result : Except BusError Unit
  session : Session g
  buffer : Bytes
  actions : List BusAction

inductive ServeEnd
  | left (exit : Exit)
  | failed (e : BusError)
  /-- Nothing more arrives. -/
  | waiting
  deriving DecidableEq

structure Served (g : Geometry) where
  stop : ServeEnd
  session : Session g
  actions : List BusAction

namespace Session

variable {g : Geometry}

def announce (s : Session g) : Session g × List BusAction :=
  if s.announceDue then ({ s with announceDue := false }, [.announced s.listener]) else (s, [])

/-- Takes one arrival; a frame is received into the front of `buffer`. -/
def arrive (s : Session g) (framing : Framing) (buffer : Bytes) : Arrival → Checked (Arrived g)
  | .quiet => .ok ⟨.ok (), s, buffer, [.received]⟩
  | .failure reason => .ok ⟨.error (.receive reason), s, buffer, [.received]⟩
  | .frame f => do
    let buffer := overlay buffer f.bytes
    if s.listener.hears f.address then
      let e ← s.exchange ⟨framing, f.address, buffer, f.len, min f.maxReply buffer.length⟩
      match e.reply with
      | none =>
        let (s, announced) := e.state.announce
        return ⟨.ok (), s, e.buffer, .received :: announced⟩
      | some reply =>
        match f.sendError with
        | some reason => return ⟨.error (.send reason), e.state, e.buffer, [.received]⟩
        | none =>
          let (s, announced) := e.state.announce
          return ⟨.ok (), s, e.buffer, .received :: .sent reply :: announced⟩
    else
      return ⟨.ok (), s.note (.ignored f.address), buffer, [.received]⟩

/-- Takes arrivals until the session has an exit or the bus fails. -/
def serveFrom (s : Session g) (framing : Framing) (buffer : Bytes) :
    List Arrival → Checked (Served g)
  | [] => .ok ⟨.waiting, s, []⟩
  | arrival :: rest => do
    let p ← s.arrive framing buffer arrival
    match p.result with
    | .error e => return ⟨.failed e, p.session, p.actions⟩
    | .ok () =>
      match p.session.exit with
      | some exit => return ⟨.left exit, p.session.note (.leaving exit), p.actions⟩
      | none =>
        let later ← p.session.serveFrom framing p.buffer rest
        return { later with actions := p.actions ++ later.actions }

def serve (s : Session g) (framing : Framing) (arrivals : List Arrival) : Checked (Served g) := do
  let served ← s.serveFrom framing (List.replicate maxFrame 0) arrivals
  return { served with actions := .announced s.listener :: served.actions }

end Session

end FieldUpdate
