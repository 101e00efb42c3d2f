import FieldUpdate.Frame

namespace FieldUpdate

/-- A received frame: the buffer that holds it and what is known about it. -/
structure Request where
  framing : Framing
  address : UInt8
  buffer : Bytes
  /-- The number of bytes that were received into the front of the buffer. -/
  len : Nat
  /-- The longest reply the other side takes. -/
  maxReply : Nat

namespace Request

def frame (r : Request) : Bytes := r.buffer.take r.len

def room (r : Request) : Nat := min r.maxReply r.buffer.length

end Request

/-- Runs commands over a state. `run` is given the command byte, its payload and the output bytes
as they are; the bytes it answers with replace the front of the output. -/
structure Responder (σ : Type) where
  run : σ → UInt8 → Bytes → Bytes → Checked (Answer × σ)
  broadcast : σ → UInt8 → σ

/-- What an exchange leaves: the length of the reply, if there is one, the buffer that holds it
and the state. -/
structure Exchanged (σ : Type) where
  replyLength : Option Nat
  buffer : Bytes
  state : σ

def Exchanged.reply {σ : Type} (e : Exchanged σ) : Option Bytes :=
  e.replyLength.map fun n => e.buffer.take n

namespace Responder

variable {σ : Type}

/-- Puts status and length before a payload that is in place, and encloses them all. -/
def conclude (framing : Framing) (address : UInt8) (buffer : Bytes) (status : Status)
    (len : Nat) (s : σ) : Checked (Exchanged σ) := do
  let headed ← patch buffer 0 [status.byte, len.toUInt8]
  let (n, reply) ← framing.encloseIn address headed (2 + len)
  return ⟨some n, reply, s⟩

def runInto (p : Responder σ) (s : σ) (r : Request) (capacity : Nat) (cmd : UInt8)
    (payload : Bytes) : Checked (Exchanged σ) := do
  let output ← slice r.buffer 2 capacity
  let (answer, s) ← p.run s cmd payload output
  let buffer ← patch r.buffer 2 (overlay output answer.written)
  let ⟨status, len⟩ := answer.result
  if status = .noReply then
    return ⟨none, buffer, s⟩
  else if len.toNat > capacity then
    .error .brokenPromise
  else
    conclude r.framing r.address buffer status len.toNat s

/-- Serves one request. Frames to the general call address carry no checksum and have no reply;
all others are left alone unless a reply without payload fits. -/
def exchange (p : Responder σ) (s : σ) (r : Request) : Checked (Exchanged σ) :=
  if r.address = generalCallAddress then
    match r.frame with
    | [] => .ok ⟨none, r.buffer, s⟩
    | cmd :: _ => .ok ⟨none, r.buffer, p.broadcast s cmd⟩
  else if r.room < r.framing.replyOverhead then
    .ok ⟨none, r.buffer, s⟩
  else
    match r.framing.opened r.address r.frame with
    | .dropped => .ok ⟨none, r.buffer, s⟩
    | .refused status => conclude r.framing r.address r.buffer status 0 s
    | .command cmd payload => p.runInto s r (r.room - r.framing.replyOverhead) cmd payload

end Responder

end FieldUpdate
