import FieldUpdate.Crash

namespace FieldUpdate

abbrev Bytes := List UInt8

def slice (buffer : Bytes) (start n : Nat) : Checked Bytes :=
  if start + n ≤ buffer.length then .ok ((buffer.drop start).take n) else .error .outOfBounds

def patch (buffer : Bytes) (start : Nat) (data : Bytes) : Checked Bytes :=
  if start + data.length ≤ buffer.length then
    .ok (buffer.take start ++ data ++ buffer.drop (start + data.length))
  else .error .outOfBounds

/-- Stores as much of `data` as fits at the front of `buffer`. -/
def overlay (buffer data : Bytes) : Bytes :=
  data.take buffer.length ++ buffer.drop data.length

theorem slice_eq_ok {buffer : Bytes} {start n : Nat} (h : start + n ≤ buffer.length) :
    slice buffer start n = .ok ((buffer.drop start).take n) := if_pos h

theorem patch_eq_ok {buffer data : Bytes} {start : Nat}
    (h : start + data.length ≤ buffer.length) :
    patch buffer start data =
      .ok (buffer.take start ++ data ++ buffer.drop (start + data.length)) := if_pos h

theorem overlay_length (buffer data : Bytes) : (overlay buffer data).length = buffer.length := by
  simp only [overlay, List.length_append, List.length_take, List.length_drop]
  omega

theorem slice_length {buffer window : Bytes} {start n : Nat}
    (h : slice buffer start n = .ok window) : window.length = n := by
  unfold slice at h
  split at h
  · cases h
    simp only [List.length_take, List.length_drop]
    omega
  · cases h

def blank (n : Nat) : Bytes := List.replicate n 0xff

def isBlank (data : Bytes) : Bool := data.all (· == 0xff)

def wordOf (low high : UInt8) : UInt16 := low.toUInt16 ||| (high.toUInt16 <<< 8)

def lowByte (word : UInt16) : UInt8 := word.toUInt8

def highByte (word : UInt16) : UInt8 := (word >>> 8).toUInt8

theorem toNat_wordOf (low high : UInt8) :
    (wordOf low high).toNat = low.toNat + 256 * high.toNat := by
  have hl := low.toNat_lt
  have hh := high.toNat_lt
  simp only [wordOf, UInt16.toNat_or, UInt16.toNat_shiftLeft, UInt8.toNat_toUInt16]
  rw [show (UInt16.toNat 8 % 16) = 8 from rfl, Nat.shiftLeft_eq, Nat.mod_eq_of_lt (by omega)]
  rw [Nat.or_comm, Nat.mul_comm, ← Nat.two_pow_add_eq_or_of_lt (i := 8) (by omega)]
  omega

theorem wordOf_lowByte_highByte (word : UInt16) : wordOf (lowByte word) (highByte word) = word := by
  apply UInt16.toNat_inj.1
  have h := word.toNat_lt
  rw [toNat_wordOf]
  simp only [lowByte, highByte, UInt16.toNat_toUInt8, UInt16.toNat_shiftRight]
  rw [show (UInt16.toNat 8 % 16) = 8 from rfl, Nat.shiftRight_eq_div_pow]
  omega

theorem lowByte_wordOf (low high : UInt8) : lowByte (wordOf low high) = low := by
  apply UInt8.toNat_inj.1
  have h := low.toNat_lt
  simp only [lowByte, UInt16.toNat_toUInt8, toNat_wordOf]
  omega

theorem highByte_wordOf (low high : UInt8) : highByte (wordOf low high) = high := by
  apply UInt8.toNat_inj.1
  have hl := low.toNat_lt
  have hh := high.toNat_lt
  simp only [highByte, UInt16.toNat_toUInt8, UInt16.toNat_shiftRight, toNat_wordOf]
  rw [show (UInt16.toNat 8 % 16) = 8 from rfl, Nat.shiftRight_eq_div_pow]
  omega

/-- The two bytes of a word as flash holds them, low byte first. -/
def wordBytes (word : UInt16) : Bytes := [lowByte word, highByte word]

/-- A 16-bit number sent high byte first. -/
def bigEndian (high low : UInt8) : Nat := high.toNat * 256 + low.toNat

theorem bigEndian_lt (high low : UInt8) : bigEndian high low < addressSpace := by
  have hh := high.toNat_lt
  have hl := low.toNat_lt
  change high.toNat * 256 + low.toNat < 0x10000
  omega

end FieldUpdate
