import FieldUpdate.Chip
import FieldUpdate.Layout

namespace FieldUpdate

/-- What it took to bring a block to its content. -/
inductive BlockOutcome
  | unchanged
  | written
  deriving DecidableEq

structure Programmer (g : Geometry) where
  chip : Chip g
  layout : Layout
  /-- Erases completed since they were last taken, 255 at most. -/
  completedErases : Nat
  sound : layout.Sound g.eraseSize

namespace Programmer

variable {g : Geometry}

/-- Takes charge of a part, unless its layout does not hold together. -/
def attach (chip : Chip g) (layout : Layout) : Checked (Except FlashError (Programmer g)) :=
  match h : layout.verdict g.eraseSize with
  | .error crash => .error crash
  | .ok (.error e) => .ok (.error e)
  | .ok (.ok ()) => .ok (.ok ⟨chip, layout, 0, Layout.verdict_eq_ok_iff.1 h⟩)

def stored (p : Programmer g) (address : Nat) : UInt8 := p.chip.read address

def storedRange (p : Programmer g) (address n : Nat) : Bytes :=
  (List.range n).map fun i => p.stored ((address + i) % addressSpace)

def imageVector (p : Programmer g) (slot : VectorSlot) : Option UInt16 :=
  let address := slot.address.toNat
  slot.fromSlot (wordOf (p.stored address) (p.stored (address + 1)))

/-- Flash as the image has it: the reset vector is the image's own, not the one that leads to
the loader. -/
def imageByte (p : Programmer g) (address : Nat) : UInt8 :=
  match p.layout.slot with
  | none => p.stored address
  | some slot =>
    if address < 2 then
      match p.imageVector slot with
      | some vector => if address = 0 then lowByte vector else highByte vector
      | none => 0xff
    else p.stored address

def imageRange (p : Programmer g) (address n : Nat) : Bytes :=
  (List.range n).map fun i => p.imageByte ((address + i) % addressSpace)

def writable (p : Programmer g) (address n : Nat) : Bool :=
  address + n ≤ p.layout.writableEnd.toNat

def erase (p : Programmer g) (address : Nat) : Except FlashError Unit × Programmer g :=
  if address % g.eraseSize ≠ 0 then (.error .invalidPage, p)
  else if !p.writable address g.eraseSize then (.error .outOfRange, p)
  else
    match p.chip.perform (.erase address) with
    | (.error e, chip) => (.error e, { p with chip })
    | (.ok (), chip) =>
      (.ok (), { p with chip, completedErases := min 255 (p.completedErases + 1) })

def programPage (p : Programmer g) (address : Nat) (data : Bytes) :
    Except FlashError Unit × Programmer g :=
  if data.isEmpty || data.length > g.writeSize || address % g.writeSize ≠ 0 then
    (.error .invalidPage, p)
  else if !p.writable address data.length then (.error .outOfRange, p)
  else
    let (report, chip) := p.chip.perform (.program address data)
    (report, { p with chip })

/-- Writes pages to consecutive addresses, up to the first failure; blank ones stay erased. -/
def programPages (p : Programmer g) (address : Nat) :
    List Bytes → Except FlashError Unit × Programmer g
  | [] => (.ok (), p)
  | page :: rest =>
    if isBlank page then p.programPages (address + g.writeSize) rest
    else
      match p.programPage address page with
      | (.error e, p) => (.error e, p)
      | (.ok (), p) => p.programPages (address + g.writeSize) rest

/-- Compares flash from `address` on with some content, up to the first difference. -/
def holds (p : Programmer g) (address : Nat) : Bytes → Checked Bool
  | [] => .ok true
  | b :: rest =>
    if address ≥ addressSpace then .error .overflow
    else if p.stored address = b then p.holds (address + 1) rest
    else .ok false

def pages (size : Nat) (content : Bytes) : List Bytes :=
  (List.range (content.length / size)).map fun i => (content.drop (i * size)).take size

def refillBlock (p : Programmer g) (start : Nat) (content : Bytes) :
    Except FlashError Unit × Programmer g :=
  match p.erase start with
  | (.error e, p) => (.error e, p)
  | (.ok (), p) => p.programPages start (pages g.writeSize content)

/-- Brings the block at `start` to `content`, which is one block long. -/
def updateBlock (p : Programmer g) (start : Nat) (content : Bytes) :
    Checked (Except FlashError BlockOutcome × Programmer g) := do
  if content.length ≠ g.eraseSize then
    .error .brokenPromise
  else if ← p.holds start content then
    return (.ok .unchanged, p)
  else
    let (report, p) := p.refillBlock start content
    return (report.map fun _ => .written, p)

def takeErases (p : Programmer g) : Nat × Programmer g :=
  (p.completedErases, { p with completedErases := 0 })

end Programmer

end FieldUpdate
