import FieldUpdate.FlashError
import FieldUpdate.Memory

namespace FieldUpdate

inductive Operation
  | erase (address : Nat)
  | program (address : Nat) (data : Bytes)
  deriving DecidableEq

namespace Operation

def isErase : Operation → Bool
  | erase _ => true
  | program _ _ => false

/-- Erases take whole blocks, programming takes one page or the front of one. -/
def fits (g : Geometry) : Operation → Bool
  | erase address => address % g.eraseSize == 0 && address + g.eraseSize ≤ g.size
  | program address data =>
    address % g.writeSize == 0 && !data.isEmpty && data.length ≤ g.writeSize &&
      address + data.length ≤ g.size

/-- What an operation that meets no fault does to the cells. -/
def apply {g : Geometry} (m : Memory g.size) : Operation → Memory g.size
  | erase address => m.store address (blank g.eraseSize)
  | program address data =>
    m.store address (List.zipWith (· &&& ·) (m.window address data.length) data)

end Operation

inductive Event
  /-- The operation was not accepted. -/
  | refused (op : Operation)
  | done (op : Operation)
  | faulted (op : Operation) (bits : UInt16)
  /-- A poll found the part ready. -/
  | completed
  deriving DecidableEq

/-- The operation of an accepted start. -/
def Event.accepted? : Event → Option Operation
  | done op => some op
  | faulted op _ => some op
  | refused _ => none
  | completed => none

/-- Status bits for the operation that is started after `after` others. -/
structure Fault where
  after : Nat
  bits : UInt16
  deriving DecidableEq

/-- Splits the first fault that is due from a schedule. -/
def takeDue : List Fault → Option UInt16 × List Fault
  | [] => (none, [])
  | f :: rest =>
    if f.after = 0 then (some f.bits, rest)
    else
      let (due, kept) := takeDue rest
      (due, f :: kept)

structure Chip (g : Geometry) where
  memory : Memory g.size
  /-- The number of polls that each operation stays busy for. -/
  busyCycles : Nat := 0
  busy : Nat := 0
  /-- Status bits that the next accepted operation meets. -/
  armed : Option UInt16 := none
  /-- Status bits that the operation under way will report. -/
  pending : Option UInt16 := none
  schedule : List Fault := []
  /-- Everything that happened so far, the latest first. -/
  events : List Event := []

namespace Chip

variable {g : Geometry}

def erased (g : Geometry) : Chip g where
  memory := Memory.erased g.size

def read (c : Chip g) (address : Nat) : UInt8 := c.memory.read address

def erases (c : Chip g) : Nat :=
  c.events.countP fun e => e.accepted?.any Operation.isErase

def programs (c : Chip g) : Nat :=
  c.events.countP fun e => e.accepted?.any (!Operation.isErase ·)

/-- Arms the part with the fault that is due, and brings the others one start closer. -/
def strike (c : Chip g) : Chip g :=
  let (due, kept) := takeDue c.schedule
  { c with
    armed := due.or c.armed
    schedule := kept.map fun f => { f with after := f.after - 1 } }

def begin (c : Chip g) (op : Operation) : Chip g :=
  match c.armed with
  | some bits =>
    { c with
      busy := c.busyCycles
      armed := none
      pending := some bits
      events := .faulted op bits :: c.events }
  | none =>
    { c with
      memory := op.apply c.memory
      busy := c.busyCycles
      pending := none
      events := .done op :: c.events }

/-- Starts an operation, or refuses one that does not fit; either counts for the schedule. -/
def start (c : Chip g) (op : Operation) : Except FlashError Unit × Chip g :=
  let c := c.strike
  if op.fits g then (.ok (), c.begin op)
  else (.error .invalidPage, { c with events := .refused op :: c.events })

def tick (c : Chip g) : Chip g := { c with busy := c.busy - 1 }

/-- The poll that finds the part ready: it reports the operation and clears the report. -/
def complete (c : Chip g) : Except FlashError Unit × Chip g :=
  let report : Except FlashError Unit :=
    match c.pending with
    | some bits => .error (.hardware bits)
    | none => .ok ()
  (report, { c with pending := none, events := .completed :: c.events })

def poll (c : Chip g) : Option (Except FlashError Unit) × Chip g :=
  if c.busy = 0 then (some c.complete.1, c.complete.2) else (none, c.tick)

def waitOut : Nat → Chip g → Except FlashError Unit × Chip g
  | 0, c => c.complete
  | n + 1, c => waitOut n c.tick

def wait (c : Chip g) : Except FlashError Unit × Chip g := waitOut c.busy c

def perform (c : Chip g) (op : Operation) : Except FlashError Unit × Chip g :=
  match c.start op with
  | (.error e, c) => (.error e, c)
  | (.ok (), c) => c.wait

end Chip

end FieldUpdate
