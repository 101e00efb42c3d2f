import FieldUpdate.Programmer

namespace FieldUpdate

inductive StreamError
  /-- The write does not continue the image. -/
  | outOfSequence
  /-- The data would run past the application. -/
  | outOfRange
  | flash (e : FlashError)
  deriving DecidableEq

namespace Programmer

variable {g : Geometry}

/-- Stores `word` in the slot and keeps the rest of the slot's block. -/
def storeVector (p : Programmer g) (slot : VectorSlot) (word : UInt16) :
    Checked (Except FlashError BlockOutcome × Programmer g) := do
  let within ← remainder slot.address.toNat (g.eraseSize % addressSpace)
  let start := slot.address.toNat - within
  let content ← patch (p.storedRange start g.eraseSize) within (wordBytes word)
  p.updateBlock start content

/-- Moves the reset vector at the front of block zero into the slot, and puts the vector that
flash has at address zero into its place. -/
def moveVector (p : Programmer g) (slot : VectorSlot) :
    Bytes → Checked (Except FlashError Bytes × Programmer g)
  | low :: high :: rest =>
    match slot.toSlot (wordOf low high) with
    | none => .ok (.error .unsupportedVector, p)
    | some word => do
      match ← p.storeVector slot word with
      | (.error e, p) => return (.error e, p)
      | (.ok _, p) => return (.ok (p.stored 0 :: p.stored 1 :: rest), p)
  | _ => .error .outOfBounds

/-- Replaces the bytes from index `len` on that lie past the application by those of flash. -/
def keepReserved (p : Programmer g) (start len : Nat) (content : Bytes) : Bytes :=
  content.mapIdx fun i b =>
    if len ≤ i ∧ p.layout.applicationSize.toNat ≤ start + i then p.stored (start + i) else b

/-- Writes `data` to the block at `start`; what is left of the application there is erased. -/
def commit (p : Programmer g) (start : Nat) (data : Bytes) :
    Checked (Except FlashError BlockOutcome × Programmer g) := do
  let block := data ++ blank (g.eraseSize - data.length)
  let (moved, p) ←
    match p.layout.slot with
    | some slot => if start = 0 then p.moveVector slot block else .ok (.ok block, p)
    | none => .ok (.ok block, p)
  match moved with
  | .error e => return (.error e, p)
  | .ok block => p.updateBlock start (p.keepReserved start data.length block)

end Programmer

/-- One attempt to commit a block. -/
structure Commit where
  start : Nat
  /-- The bytes of the image that belong into the block. -/
  data : Bytes
  outcome : Except FlashError BlockOutcome

/-- The blocks brought to their content, 255 of each kind at most. -/
structure Progress where
  written : Nat
  unchanged : Nat
  deriving DecidableEq

def Commit.wrote (c : Commit) : Bool :=
  match c.outcome with
  | .ok .written => true
  | .ok .unchanged => false
  | .error _ => false

def Commit.found (c : Commit) : Bool :=
  match c.outcome with
  | .ok .unchanged => true
  | .ok .written => false
  | .error _ => false

def Progress.ofCommits (commits : List Commit) : Progress :=
  ⟨min 255 (commits.countP Commit.wrote), min 255 (commits.countP Commit.found)⟩

/-- Flash and the image that is streamed into it. -/
structure Updater (g : Geometry) where
  /-- One block; the bytes before the cursor's place in it belong to the image. -/
  staged : Bytes
  /-- The address at which the stream continues. -/
  cursor : Nat
  flash : Programmer g
  /-- Every commit so far, the latest first. -/
  commits : List Commit

namespace Updater

variable {g : Geometry}

def idle (flash : Programmer g) : Updater g := ⟨blank g.eraseSize, 0, flash, []⟩

def progressSince (u before : Updater g) : Progress :=
  Progress.ofCommits (u.commits.take (u.commits.length - before.commits.length))

def stage (u : Updater g) (b : UInt8) : Checked (Updater g) := do
  let cursor ← advance u.cursor 1
  return { u with staged := u.staged.set (u.cursor % g.eraseSize) b, cursor }

def commit (u : Updater g) (start len : Nat) : Checked (Except FlashError Unit × Updater g) := do
  let data ← slice u.staged 0 len
  let (outcome, flash) ← u.flash.commit start data
  let u := { u with flash, commits := ⟨start, data, outcome⟩ :: u.commits }
  return (outcome.map fun _ => (), u)

/-- Stages bytes and commits each block they complete; a block that fails has to be sent again. -/
def feed (u : Updater g) : Bytes → Checked (Except FlashError Unit × Updater g)
  | [] => .ok (.ok (), u)
  | b :: rest => do
    let u ← u.stage b
    if u.cursor % g.eraseSize = 0 then
      let start := u.cursor - g.eraseSize % addressSpace
      match ← u.commit start g.eraseSize with
      | (.error e, u) => return (.error e, { u with cursor := start })
      | (.ok (), u) => u.feed rest
    else u.feed rest

/-- Where `length` bytes from `address` on end, added as 32-bit numbers: what of the length does not
fit into one is lost. -/
def dataEnd (address length : Nat) : Checked Nat :=
  if address + length % 0x100000000 < 0x100000000 then .ok (address + length % 0x100000000)
  else .error .overflow

def extend (u : Updater g) (address : Nat) (data : Bytes) :
    Checked (Except StreamError Progress × Updater g) := do
  let u := if address = 0 then { u with cursor := 0 } else u
  if address ≠ u.cursor then
    return (.error .outOfSequence, u)
  else if (← dataEnd address data.length) > u.flash.layout.applicationSize.toNat then
    return (.error .outOfRange, u)
  else
    match ← u.feed data with
    | (.error e, fed) => return (.error (.flash e), fed)
    | (.ok (), fed) => return (.ok (fed.progressSince u), fed)

def finish (u : Updater g) : Checked (Except FlashError Progress × Updater g) := do
  let tail := u.cursor % g.eraseSize
  if tail = 0 then
    return (.ok (Progress.ofCommits []), u)
  else
    match ← u.commit (u.cursor - tail) tail with
    | (.error e, done) => return (.error e, done)
    | (.ok (), done) => return (.ok (done.progressSince u), done)

end Updater

end FieldUpdate
