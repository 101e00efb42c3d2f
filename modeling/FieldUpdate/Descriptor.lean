import FieldUpdate.Chip

namespace FieldUpdate

/-- What is programmed behind the loader when a board is made.

| offset | bytes | field                      |
|--------|-------|----------------------------|
| 0      | 4     | signature                  |
| 4      | 1     | format version             |
| 5      | 1     | oldest compatible revision |
| 6      | 1     | hardware revision          |
| 7      | 1     | reserved                   |
| 8      | 4     | manufacturing date         |
| 12     | 4     | serial number              |
| 16     | 16    | extra information          |
-/
structure Descriptor where
  raw : Vector UInt8 32
  deriving DecidableEq

namespace Descriptor

def signature : Bytes := [0x42, 0x44, 0x49, 0x46]

/-- Reads the descriptor of a part; addresses wrap. -/
def load {g : Geometry} (chip : Chip g) (offset : Nat) : Descriptor :=
  ⟨Vector.ofFn fun i : Fin 32 => chip.read ((offset + i.val) % addressSpace)⟩

def bytes (d : Descriptor) : Bytes := d.raw.toList

def isValid (d : Descriptor) : Bool :=
  d.bytes.take 4 == signature && d.raw[4] ≥ (1 : UInt8) && d.raw[4] ≤ (0xfe : UInt8)

/-- Zero stands for an unknown revision. -/
def compatibleRevision (d : Descriptor) : UInt8 := if d.isValid then d.raw[5] else 0

def hardwareRevision (d : Descriptor) : UInt8 := if d.isValid then d.raw[6] else 0

/-- At most `n` bytes from `offset` on; fewer at the end of the descriptor. -/
def read (d : Descriptor) (offset n : Nat) : Bytes := (d.bytes.drop offset).take n

def serialNumber (d : Descriptor) : Bytes := d.read 12 4

def extraInfo (d : Descriptor) : Bytes := d.read 16 16

theorem read_length_le (d : Descriptor) (offset n : Nat) : (d.read offset n).length ≤ n := by
  simp only [read, List.length_take]
  omega

end Descriptor

end FieldUpdate
