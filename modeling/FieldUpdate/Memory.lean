import FieldUpdate.Bytes

namespace FieldUpdate

/-- The size of a part in bytes, and of the pages it programs and the blocks it erases. -/
structure Geometry where
  size : Nat
  writeSize : Nat
  eraseSize : Nat
  writeSize_pos : 0 < writeSize := by decide
  writeSize_dvd : writeSize ∣ eraseSize := by decide

structure Memory (size : Nat) where
  cells : Vector UInt8 size
  deriving DecidableEq

namespace Memory

variable {size : Nat}

def erased (size : Nat) : Memory size := ⟨Vector.replicate size 0xff⟩

/-- Past the end there is nothing, which reads as erased. -/
def read (m : Memory size) (address : Nat) : UInt8 := m.cells[address]?.getD 0xff

def window (m : Memory size) (address n : Nat) : Bytes :=
  (List.range n).map fun i => m.read (address + i)

def store (m : Memory size) (address : Nat) : Bytes → Memory size
  | [] => m
  | b :: rest => store ⟨m.cells.setIfInBounds address b⟩ (address + 1) rest

def load (m : Memory size) (address : Nat) (data : Bytes) : Checked (Memory size) :=
  if address + data.length ≤ size then .ok (m.store address data) else .error .outOfBounds

theorem read_setIfInBounds (m : Memory size) (address x : Nat) (b : UInt8) :
    (Memory.mk (m.cells.setIfInBounds address b)).read x =
      if x = address ∧ x < size then b else m.read x := by
  unfold read
  rw [Vector.getElem?_setIfInBounds]
  by_cases h : address = x
  · subst h
    by_cases hs : address < size
    · simp [hs]
    · simp [hs]
  · have h' : ¬x = address := fun e => h e.symm
    simp [h, h']

theorem read_store (m : Memory size) (address : Nat) (data : Bytes) (x : Nat) :
    (m.store address data).read x =
      if address ≤ x ∧ x < size then data[x - address]?.getD (m.read x) else m.read x := by
  induction data generalizing m address with
  | nil => simp [store]
  | cons b rest ih =>
    rw [store, ih, read_setIfInBounds]
    by_cases hx : x = address
    · subst hx
      have h : ¬x + 1 ≤ x := by omega
      simp [h]
    · by_cases h : address + 1 ≤ x
      · have e : x - address = (x - (address + 1)) + 1 := by omega
        have hc : (address + 1 ≤ x ∧ x < size) ↔ (address ≤ x ∧ x < size) := by omega
        simp only [e, List.getElem?_cons_succ, hc, hx, false_and, if_false]
      · have h' : ¬address ≤ x := by omega
        simp [h, h', hx]

end Memory

end FieldUpdate
