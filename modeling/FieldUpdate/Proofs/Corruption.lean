import FieldUpdate.Proofs.Frames
import Mathlib.Algebra.GroupWithZero.Nat

namespace FieldUpdate

def weight (width n : Nat) : Nat := (List.range width).countP n.testBit

/-- The number of bits in which two strings of bytes differ. -/
def flippedBits (a b : Bytes) : Nat := (List.zipWith (fun x y => weight 8 (x ^^^ y).toNat) a b).sum

/-- The bytes in which two strings differ lie among `n` that follow each other. -/
def DifferWithin (n : Nat) (a b : Bytes) : Prop :=
  ∃ start, ∀ i, i < start ∨ start + n ≤ i → a[i]? = b[i]?

section Weight

theorem weight_succ (width n : Nat) :
    weight (width + 1) n = weight width n + (n.testBit width).toNat := by
  rw [weight, List.range_succ, List.countP_append, List.countP_singleton]
  cases n.testBit width <;> rfl

theorem weight_succ_half (width n : Nat) :
    weight (width + 1) n = weight width (n / 2) + n % 2 := by
  have behind : n.testBit ∘ Nat.succ = (n / 2).testBit := funext fun i => Nat.testBit_succ n i
  rw [weight, List.range_succ_eq_map, List.countP_cons, List.countP_map, behind, Nat.testBit_zero]
  obtain even | odd := Nat.mod_two_eq_zero_or_one n
  · simp [even, weight]
  · simp [odd, weight]

theorem weight_of_lt {width n : Nat} (h : n < 2 ^ width) (more : Nat) :
    weight (width + more) n = weight width n := by
  induction more with
  | zero => rfl
  | succ more ih =>
    have small : n < 2 ^ (width + more) :=
      Nat.lt_of_lt_of_le h (Nat.pow_le_pow_right (by decide) (Nat.le_add_right _ _))
    rw [← Nat.add_assoc, weight_succ, Nat.testBit_lt_two_pow small]
    exact ih

theorem weight_mod (width n : Nat) : weight width (n % 2 ^ width) = weight width n := by
  apply List.countP_congr
  intro i hi
  rw [Nat.testBit_mod_two_pow, decide_eq_true (List.mem_range.1 hi), Bool.true_and]

theorem weight_xor (width a b : Nat) :
    weight width (a ^^^ b) % 2 = (weight width a + weight width b) % 2 := by
  induction width with
  | zero => rfl
  | succ width ih =>
    rw [weight_succ, weight_succ, weight_succ, Nat.testBit_xor]
    cases a.testBit width <;> cases b.testBit width <;> simp <;> omega

theorem flippedBits_mod_two {a b : Bytes} (same : a.length = b.length) :
    flippedBits a b % 2 =
      ((a.map fun x => weight 8 x.toNat).sum + (b.map fun x => weight 8 x.toNat).sum) % 2 := by
  induction a generalizing b with
  | nil =>
    rw [List.length_eq_zero_iff.1 same.symm]
    rfl
  | cons x a ih =>
    obtain _ | ⟨y, b⟩ := b
    · cases same
    · have rest := ih (Nat.succ.inj same)
      have first := weight_xor 8 x.toNat y.toNat
      simp only [flippedBits, List.zipWith_cons_cons, List.sum_cons, List.map_cons,
        UInt8.toNat_xor] at rest ⊢
      omega

end Weight

namespace Checksum

/-- What makes errors show in a register that takes bytes. It loses nothing of what it held, nothing
of up to `n` bytes in a row, and counted modulo two it has the set bits of both. -/
structure Detects {σ : Type} (take : σ → UInt8 → σ) (bits : σ → Nat) (n : Nat) : Prop where
  register_injective : ∀ byte, Function.Injective (take · byte)
  window_injective : ∀ register (a b : Bytes), a.length = b.length → a.length ≤ n →
    a.foldl take register = b.foldl take register → a = b
  bits_take : ∀ register byte,
    bits (take register byte) % 2 = (bits register + weight 8 byte.toNat) % 2

namespace Detects

variable {σ : Type} {take : σ → UInt8 → σ} {bits : σ → Nat} {n : Nat} {register register' : σ}
  {a b : Bytes}

theorem foldl_injective (h : Detects take bits n) (data : Bytes) :
    Function.Injective fun register => data.foldl take register := by
  induction data with
  | nil => exact fun _ _ he => he
  | cons byte rest ih => exact fun _ _ he => h.register_injective byte (ih he)

theorem eq_of_differWithin (h : Detects take bits n) (same : a.length = b.length)
    (window : DifferWithin n a b) (agree : a.foldl take register = b.foldl take register) :
    a = b := by
  obtain ⟨start, outside⟩ := window
  have front : a.take start = b.take start := by
    apply List.ext_getElem?
    intro i
    rw [List.getElem?_take, List.getElem?_take]
    split
    · rename_i before
      exact outside i (.inl before)
    · rfl
  have back : a.drop (start + n) = b.drop (start + n) := by
    apply List.ext_getElem?
    intro i
    rw [List.getElem?_drop, List.getElem?_drop]
    exact outside _ (.inr (Nat.le_add_right _ _))
  have cut (data : Bytes) :
      data = data.take start ++ ((data.drop start).take n ++ data.drop (start + n)) := by
    rw [← List.drop_drop, List.take_append_drop, List.take_append_drop]
  -- In front and behind of the window the registers move alike, so it decides.
  have middle : (a.drop start).take n = (b.drop start).take n := by
    rw [cut a, cut b, List.foldl_append, List.foldl_append, List.foldl_append, List.foldl_append,
      front, back] at agree
    refine h.window_injective _ _ _ ?_ (List.length_take_le _ _) (h.foldl_injective _ agree)
    rw [List.length_take, List.length_take, List.length_drop, List.length_drop, same]
  rw [cut a, cut b, front, middle, back]

theorem bits_foldl (h : Detects take bits n) (register : σ) (data : Bytes) :
    bits (data.foldl take register) % 2 =
      (bits register + (data.map fun x => weight 8 x.toNat).sum) % 2 := by
  induction data generalizing register with
  | nil => rfl
  | cons byte rest ih =>
    have first := h.bits_take register byte
    rw [List.foldl_cons, ih, List.map_cons, List.sum_cons]
    omega

theorem even_flippedBits (h : Detects take bits n) (same : a.length = b.length)
    (agree : a.foldl take register = b.foldl take register) : flippedBits a b % 2 = 0 := by
  have first := h.bits_foldl register a
  have second := h.bits_foldl register b
  rw [agree] at first
  rw [flippedBits_mod_two same]
  omega

end Detects

theorem repeat_keeps {α β : Type} {f : α → α} (view : α → β) (h : ∀ x, view (f x) = view x)
    (n : Nat) (x : α) : view (Nat.repeat f n x) = view x := by
  induction n with
  | zero => rfl
  | succ n ih => exact (h _).trans ih

/-- Three bits of the divisor come in for the one that leaves at the top. -/
theorem weight_crc8Shift (register : UInt8) :
    weight 8 (crc8Shift register).toNat % 2 = weight 8 register.toNat % 2 := by
  have shifted : weight 8 (register <<< 1).toNat = weight 7 register.toNat := by
    rw [toNat_shiftLeft_one]
    have half : 2 * register.toNat / 2 = register.toNat := by omega
    have even : 2 * register.toNat % 2 = 0 := by omega
    exact (weight_mod 8 _).trans (by rw [weight_succ_half, half, even, Nat.add_zero])
  have all : weight 8 register.toNat = weight 7 register.toNat + (register.toNat.testBit 7).toNat :=
    weight_succ 7 _
  have small := register.toNat_lt
  unfold crc8Shift
  split
  · rename_i clear
    have clear := (and_top_eq_zero_iff register).1 clear
    rw [shifted, weight_of_lt (show register.toNat < 2 ^ 7 from clear) 1]
  · rename_i set
    have set : ¬register.toNat < 128 := fun h => set ((and_top_eq_zero_iff register).2 h)
    have top : register.toNat.testBit 7 = true := by
      rw [Nat.testBit_eq_decide_div_mod_eq, decide_eq_true_eq]
      omega
    have three : weight 8 (UInt8.toNat 0x07) = 3 := by decide
    rw [top, Bool.toNat_true] at all
    rw [UInt8.toNat_xor, weight_xor, three, shifted]
    omega

theorem weight_crc16Shift (register : UInt16) :
    weight 16 (crc16Shift register).toNat % 2 = weight 16 register.toNat % 2 := by
  have small := register.toNat_lt
  have shifted : weight 16 (register >>> 1).toNat = weight 15 (register.toNat / 2) := by
    rw [toNat_shiftRight_one]
    exact weight_of_lt (by omega) 1
  have all : weight 16 register.toNat = weight 15 (register.toNat / 2) + register.toNat % 2 :=
    weight_succ_half 15 _
  unfold crc16Shift
  split
  · rename_i clear
    rw [shifted, all, (and_one_eq_zero_iff register).1 clear, Nat.add_zero]
  · rename_i set
    have set : ¬register.toNat % 2 = 0 := fun h => set ((and_one_eq_zero_iff register).2 h)
    have three : weight 16 (UInt16.toNat 0xa001) = 3 := by decide
    rw [UInt16.toNat_xor, weight_xor, three, shifted]
    omega

theorem crc8_detects : Detects crc8Byte (fun register => weight 8 register.toNat) 1 where
  register_injective byte a b h :=
    (UInt8.xor_left_inj _).1 (repeat_injective crc8Shift_injective 8 h)
  window_injective register a b same short agree := by
    match a, b, same with
    | [], [], _ => rfl
    | [x], [y], _ =>
      have h := repeat_injective crc8Shift_injective 8 agree
      rw [(UInt8.xor_right_inj _).1 h]
    | _ :: _ :: _, _, _ => simp at short
  bits_take register byte := by
    have kept := repeat_keeps (fun r : UInt8 => weight 8 r.toNat % 2) weight_crc8Shift 8
      (register ^^^ byte)
    rw [UInt8.toNat_xor, weight_xor] at kept
    exact kept

/-- Where both registers lose a bit their sum loses none, and the two divisors cancel out. -/
theorem crc16Shift_xor (a b : UInt16) : crc16Shift (a ^^^ b) = crc16Shift a ^^^ crc16Shift b := by
  have low : (a.toNat ^^^ b.toNat) % 2 = 0 ↔ (a.toNat % 2 = 0 ↔ b.toNat % 2 = 0) := by
    have := @Nat.xor_mod_two_eq_one a.toNat b.toNat
    omega
  unfold crc16Shift
  simp only [and_one_eq_zero_iff, UInt16.toNat_xor, UInt16.shiftRight_xor, low]
  by_cases even : a.toNat % 2 = 0
  · by_cases even' : b.toNat % 2 = 0
    · simp only [even, even', if_true]
    · simp only [even, even', iff_false, not_true, if_true, if_false, UInt16.xor_assoc]
  · by_cases even' : b.toNat % 2 = 0
    · simp only [even, even', iff_true, if_true, if_false]
      ac_rfl
    · simp only [even, even', if_true, if_false]
      rw [UInt16.xor_assoc, UInt16.xor_comm (b >>> 1), ← UInt16.xor_assoc 0xa001, UInt16.xor_self,
        UInt16.zero_xor]

theorem repeat_crc16Shift_xor (n : Nat) (a b : UInt16) :
    Nat.repeat crc16Shift n (a ^^^ b) = Nat.repeat crc16Shift n a ^^^ Nat.repeat crc16Shift n b := by
  induction n with
  | zero => rfl
  | succ n ih => rw [Nat.repeat, ih, crc16Shift_xor]; rfl

theorem crc16Byte_crc16Byte (register : UInt16) (a b : UInt8) :
    crc16Byte (crc16Byte register a) b = Nat.repeat crc16Shift 16 (register ^^^ wordOf a b) := by
  -- Until the second byte is due, it only moves down.
  have upper : Nat.repeat crc16Shift 8 (wordOf a b ^^^ a.toUInt16) = b.toUInt16 := by
    have h := crc16Byte_lowByte (wordOf a b)
    rwa [lowByte_wordOf, highByte_wordOf] at h
  have split : register ^^^ wordOf a b =
      (register ^^^ a.toUInt16) ^^^ (wordOf a b ^^^ a.toUInt16) := by
    rw [UInt16.xor_assoc, UInt16.xor_comm (wordOf a b), ← UInt16.xor_assoc a.toUInt16,
      UInt16.xor_self, UInt16.zero_xor]
  have twice (x : UInt16) :
      Nat.repeat crc16Shift 16 x = Nat.repeat crc16Shift 8 (Nat.repeat crc16Shift 8 x) := rfl
  rw [crc16Byte, crc16Byte, twice, split,
    repeat_crc16Shift_xor 8 _ (wordOf a b ^^^ a.toUInt16), upper]

theorem crc16_detects : Detects crc16Byte (fun register => weight 16 register.toNat) 2 where
  register_injective byte := crc16Byte_injective byte
  window_injective register a b same short agree := by
    match a, b, same with
    | [], [], _ => rfl
    | [x], [y], _ =>
      have h := repeat_injective crc16Shift_injective 8 agree
      have h := congrArg UInt16.toUInt8 ((UInt16.xor_right_inj _).1 h)
      simpa using h
    | [x, x'], [y, y'], _ =>
      have h : crc16Byte (crc16Byte register x) x' = crc16Byte (crc16Byte register y) y' := agree
      rw [crc16Byte_crc16Byte, crc16Byte_crc16Byte] at h
      have word := (UInt16.xor_right_inj _).1 (repeat_injective crc16Shift_injective 16 h)
      have low : x = y := by rw [← lowByte_wordOf x x', word, lowByte_wordOf]
      have high : x' = y' := by rw [← highByte_wordOf x x', word, highByte_wordOf]
      rw [low, high]
    | _ :: _ :: _ :: _, _, _ => simp at short
  bits_take register byte := by
    have kept := repeat_keeps (fun r : UInt16 => weight 16 r.toNat % 2) weight_crc16Shift 8
      (register ^^^ byte.toUInt16)
    have low : weight 16 byte.toNat = weight 8 byte.toNat := weight_of_lt byte.toNat_lt 8
    rw [UInt16.toNat_xor, weight_xor, UInt8.toNat_toUInt16, low] at kept
    exact kept

end Checksum

namespace Framing

variable {f : Framing} {address address' : UInt8} {frame frame' : Bytes}

def covered (f : Framing) (address : UInt8) (frame : Bytes) : Bytes :=
  match f with
  | crc8 => frame
  | crc16 => address :: frame

theorem covered_length (f : Framing) (address address' : UInt8)
    (same : frame.length = frame'.length) :
    (f.covered address frame).length = (f.covered address' frame').length := by
  cases f with
  | crc8 => exact same
  | crc16 => exact congrArg Nat.succ same

/-- Intact frames of one length differ in an even number of bits, and not in a window of the length
of their checksum alone. -/
theorem apart_of_intact (same : frame.length = frame'.length)
    (whole : f.intact address frame = true) (whole' : f.intact address' frame' = true) :
    flippedBits (f.covered address frame) (f.covered address' frame') % 2 = 0 ∧
      (DifferWithin f.trailerLength (f.covered address frame) (f.covered address' frame') →
        f.covered address frame = f.covered address' frame') := by
  have length := f.covered_length address address' same
  cases f with
  | crc8 =>
    have agree := (beq_iff_eq.1 whole).trans (beq_iff_eq.1 whole').symm
    exact ⟨Checksum.crc8_detects.even_flippedBits length agree,
      fun window => Checksum.crc8_detects.eq_of_differWithin length window agree⟩
  | crc16 =>
    have agree := (beq_iff_eq.1 whole).trans (beq_iff_eq.1 whole').symm
    exact ⟨Checksum.crc16_detects.even_flippedBits length agree,
      fun window => Checksum.crc16_detects.eq_of_differWithin length window agree⟩

theorem intact_of_opened {cmd : UInt8} {payload : Bytes}
    (h : f.opened address frame = .command cmd payload) : f.intact address frame = true := by
  unfold opened at h
  split at h
  · cases h
  · split at h
    · cases h
    · split at h
      · split at h <;> cases h
      · rename_i whole
        simpa using whole

/-- Corruption is detected. If two different strings that a checksum is taken over, of one length,
are both intact, they differ in an even number of bits and in bytes that are further apart than a
checksum is long. So a frame that was intact is neither intact nor a command any more once an odd
number of bits or bytes within such a window have changed, its destination included where that is
covered; and an intact frame for one address is not intact for another. -/
theorem corruption_detected (f : Framing) {address address' : UInt8} {frame frame' : Bytes}
    (same : frame.length = frame'.length) (whole : f.intact address frame = true) :
    (f.covered address frame ≠ f.covered address' frame' → f.intact address' frame' = true →
      flippedBits (f.covered address frame) (f.covered address' frame') % 2 = 0 ∧
        ¬DifferWithin f.trailerLength (f.covered address frame) (f.covered address' frame')) ∧
    (flippedBits (f.covered address frame) (f.covered address' frame') % 2 = 1 ∨
        f.covered address frame ≠ f.covered address' frame' ∧
          DifferWithin f.trailerLength (f.covered address frame) (f.covered address' frame') →
      f.intact address' frame' = false ∧
        ∀ cmd payload, f.opened address' frame' ≠ .command cmd payload) ∧
    (f = .crc16 → address ≠ address' → f.intact address' frame = false) := by
  have detected (corrupt :
      flippedBits (f.covered address frame) (f.covered address' frame') % 2 = 1 ∨
        f.covered address frame ≠ f.covered address' frame' ∧
          DifferWithin f.trailerLength (f.covered address frame) (f.covered address' frame')) :
      f.intact address' frame' = false := by
    rw [← Bool.not_eq_true]
    intro whole'
    obtain ⟨even, equal⟩ := apart_of_intact same whole whole'
    obtain odd | ⟨differ, window⟩ := corrupt
    · omega
    · exact differ (equal window)
  refine ⟨fun differ whole' => ?_, fun corrupt => ⟨detected corrupt, fun cmd payload opened => ?_⟩,
    ?_⟩
  · obtain ⟨even, equal⟩ := apart_of_intact same whole whole'
    exact ⟨even, fun window => differ (equal window)⟩
  · exact Bool.false_ne_true ((detected corrupt).symm.trans (intact_of_opened opened))
  · rintro rfl elsewhere
    rw [← Bool.not_eq_true]
    intro whole'
    -- Only the first byte of what is covered differs.
    have window : DifferWithin 2 (covered .crc16 address frame) (covered .crc16 address' frame) := by
      refine ⟨0, fun i hi => ?_⟩
      obtain ⟨i, rfl⟩ : ∃ j, i = j + 1 := ⟨i - 1, by omega⟩
      rfl
    exact elsewhere (List.cons.inj ((apart_of_intact rfl whole whole').2 window)).1

/-- Two intact requests differ in more than one byte, and one for address eight is not intact where
another address listens. -/
theorem corruption_detected_requests :
    crc8.intact 8 [0x08, 0xcb] = true ∧ crc8.intact 8 [0x09, 0xcc] = true ∧
      flippedBits [0x08, 0xcb] [0x09, 0xcc] % 2 = 0 ∧ ¬DifferWithin 1 [0x08, 0xcb] [0x09, 0xcc] ∧
      crc16.intact 8 [0x00, 0x06, 0x70] = true ∧ crc16.intact 9 [0x00, 0x06, 0x70] = false := by
  have whole : crc8.intact 8 [0x08, 0xcb] = true := by decide +kernel
  have whole' : crc8.intact 8 [0x09, 0xcc] = true := by decide +kernel
  have version : crc16.intact 8 [0x00, 0x06, 0x70] = true := by decide +kernel
  have differ : crc8.covered 8 [0x08, 0xcb] ≠ crc8.covered 8 [0x09, 0xcc] := by decide
  have same : ([0x08, 0xcb] : Bytes).length = ([0x09, 0xcc] : Bytes).length := rfl
  obtain ⟨even, apart⟩ := (corruption_detected .crc8 same whole).1 differ whole'
  have elsewhere : crc16.intact 9 [0x00, 0x06, 0x70] = false :=
    (corruption_detected .crc16 (Eq.refl ([0x00, 0x06, 0x70] : Bytes).length) version).2.2 rfl
      (by decide)
  exact ⟨whole, whole', even, apart, version, elsewhere⟩

end Framing

end FieldUpdate
