import FieldUpdate.Exchange
import Mathlib.Algebra.Group.Nat.Defs
import Mathlib.Logic.ExistsUnique

namespace FieldUpdate

namespace Checksum

theorem toNat_shiftLeft_one (register : UInt8) :
    (register <<< 1).toNat = 2 * register.toNat % 256 := by
  rw [UInt8.toNat_shiftLeft, show UInt8.toNat 1 % 8 = 1 from rfl, Nat.shiftLeft_eq, Nat.mul_comm]

theorem toNat_shiftRight_one (register : UInt16) : (register >>> 1).toNat = register.toNat / 2 := by
  rw [UInt16.toNat_shiftRight, show UInt16.toNat 1 % 16 = 1 from rfl, Nat.shiftRight_eq_div_pow]

theorem and_top_eq_zero_iff (register : UInt8) : register &&& 0x80 = 0 ↔ register.toNat < 128 := by
  have h : ∀ v : BitVec 8, v &&& 0x80#8 = 0#8 ↔ v.toNat < 128 := by decide
  rw [← UInt8.toBitVec_inj]
  exact h register.toBitVec

theorem and_one_eq_zero_iff (register : UInt16) : register &&& 1 = 0 ↔ register.toNat % 2 = 0 := by
  rw [← UInt16.toNat_inj, UInt16.toNat_and, show UInt16.toNat 1 = 1 from rfl, Nat.and_one_is_mod]
  rfl

/-- The bit that leaves the register shows in the lowest bit of the next one. -/
theorem crc8Shift_injective : Function.Injective crc8Shift := by
  intro a b h
  have ha := a.toNat_lt
  have hb := b.toNat_lt
  -- Doubled registers are even, so the divisor's lowest bit cannot come from them.
  have apart (x y : UInt8) : x <<< 1 ≠ (y <<< 1) ^^^ 0x07 := by
    intro he
    have hn := congrArg UInt8.toNat he
    rw [UInt8.toNat_xor, toNat_shiftLeft_one, toNat_shiftLeft_one] at hn
    have odd : (2 * y.toNat % 256 ^^^ UInt8.toNat 0x07) % 2 = 1 :=
      Nat.xor_mod_two_eq_one.2 (by rw [show UInt8.toNat 0x07 = 7 from rfl]; omega)
    omega
  have same (he : a <<< 1 = b <<< 1) (top : a.toNat < 128 ↔ b.toNat < 128) : a = b := by
    have hn := congrArg UInt8.toNat he
    rw [toNat_shiftLeft_one, toNat_shiftLeft_one] at hn
    exact UInt8.toNat_inj.1 (by omega)
  unfold crc8Shift at h
  simp only [and_top_eq_zero_iff] at h
  split at h
  · split at h
    · exact same h (by omega)
    · exact absurd h (apart a b)
  · split at h
    · exact absurd h.symm (apart b a)
    · exact same ((UInt8.xor_left_inj _).1 h) (by omega)

theorem crc16Shift_injective : Function.Injective crc16Shift := by
  intro a b h
  have ha := a.toNat_lt
  have hb := b.toNat_lt
  -- Halved registers have no highest bit, so the divisor's cannot come from them.
  have apart (x y : UInt16) : x >>> 1 ≠ (y >>> 1) ^^^ 0xa001 := by
    intro he
    have hx : (x >>> 1) ^^^ (y >>> 1) = 0xa001 := by
      rw [he, UInt16.xor_comm (y >>> 1), UInt16.xor_assoc, UInt16.xor_self, UInt16.xor_zero]
    have hn := congrArg UInt16.toNat hx
    rw [UInt16.toNat_xor, toNat_shiftRight_one, toNat_shiftRight_one] at hn
    have := x.toNat_lt
    have := y.toNat_lt
    have small : x.toNat / 2 ^^^ y.toNat / 2 < 2 ^ 15 :=
      Nat.xor_lt_two_pow (by omega) (by omega)
    rw [hn] at small
    exact absurd small (by decide)
  have same (he : a >>> 1 = b >>> 1) (low : a.toNat % 2 = 0 ↔ b.toNat % 2 = 0) : a = b := by
    have hn := congrArg UInt16.toNat he
    rw [toNat_shiftRight_one, toNat_shiftRight_one] at hn
    exact UInt16.toNat_inj.1 (by omega)
  unfold crc16Shift at h
  simp only [and_one_eq_zero_iff] at h
  split at h
  · split at h
    · exact same h (by omega)
    · exact absurd h (apart a b)
  · split at h
    · exact absurd h.symm (apart b a)
    · exact same ((UInt16.xor_left_inj _).1 h) (by omega)

theorem repeat_injective {α : Type} {f : α → α} (h : Function.Injective f) (n : Nat) :
    Function.Injective (Nat.repeat f n) := by
  induction n with
  | zero => exact fun _ _ he => he
  | succ n ih => exact fun _ _ he => ih (h he)

theorem crc8Byte_eq_zero_iff (register byte : UInt8) : crc8Byte register byte = 0 ↔ byte = register := by
  rw [crc8Byte, show (0 : UInt8) = Nat.repeat crc8Shift 8 0 from rfl,
    (repeat_injective crc8Shift_injective 8).eq_iff, UInt8.xor_eq_zero_iff, eq_comm]

theorem crc16Byte_eq_zero_iff (register : UInt16) (byte : UInt8) :
    crc16Byte register byte = 0 ↔ register = byte.toUInt16 := by
  rw [crc16Byte, show (0 : UInt16) = Nat.repeat crc16Shift 8 0 from rfl,
    (repeat_injective crc16Shift_injective 8).eq_iff, UInt16.xor_eq_zero_iff]

theorem crc16Byte_injective (byte : UInt8) : Function.Injective (crc16Byte · byte) := by
  intro a b h
  exact (UInt16.xor_left_inj _).1 (repeat_injective crc16Shift_injective 8 h)

theorem crc8_append_eq_zero_iff (data : Bytes) (byte : UInt8) :
    crc8 (data ++ [byte]) = 0 ↔ byte = crc8 data := by
  rw [crc8_append, List.foldl_cons, List.foldl_nil, crc8Byte_eq_zero_iff]

theorem toNat_repeat_crc16Shift (n : Nat) (register : UInt16)
    (clear : register.toNat % 2 ^ n = 0) :
    (Nat.repeat crc16Shift n register).toNat = register.toNat / 2 ^ n := by
  induction n with
  | zero => exact (Nat.div_one _).symm
  | succ n ih =>
    have hd := Nat.dvd_of_mod_eq_zero clear
    have hn := ih (Nat.mod_eq_zero_of_dvd (Nat.dvd_trans ⟨2, Nat.pow_succ ..⟩ hd))
    -- A register that moved down so far still has its lowest bit clear.
    have even : Nat.repeat crc16Shift n register &&& 1 = 0 := by
      apply UInt16.toNat_inj.1
      rw [UInt16.toNat_and, hn, show UInt16.toNat 1 = 1 from rfl, Nat.and_one_is_mod]
      obtain ⟨k, hk⟩ := hd
      rw [hk, Nat.pow_succ, Nat.mul_assoc, Nat.mul_div_cancel_left _ (Nat.two_pow_pos n)]
      exact Nat.mul_mod_right 2 k
    rw [Nat.repeat, crc16Shift, if_pos even, UInt16.toNat_shiftRight, hn,
      show UInt16.toNat 1 % 16 = 1 from rfl, Nat.shiftRight_eq_div_pow, Nat.div_div_eq_div_mul,
      ← Nat.pow_add]

/-- The low byte of a register takes its own place out. -/
theorem crc16Byte_lowByte (register : UInt16) :
    crc16Byte register (lowByte register) = (highByte register).toUInt16 := by
  have hx : (register ^^^ (lowByte register).toUInt16).toNat =
      register.toNat ^^^ (register.toNat % 2 ^ 8) := by
    rw [UInt16.toNat_xor, UInt8.toNat_toUInt16, lowByte, UInt16.toNat_toUInt8]
  have hr := register.toNat_lt
  apply UInt16.toNat_inj.1
  rw [crc16Byte, toNat_repeat_crc16Shift, hx, Nat.xor_div_two_pow,
    Nat.div_eq_of_lt (Nat.mod_lt _ (by decide)), Nat.xor_zero]
  · simp only [highByte, UInt8.toNat_toUInt16, UInt16.toNat_toUInt8, UInt16.toNat_shiftRight]
    rw [show UInt16.toNat 8 % 16 = 8 from rfl, Nat.shiftRight_eq_div_pow]
    omega
  · rw [hx, Nat.xor_mod_two_pow, Nat.mod_mod, Nat.xor_self]

theorem crc16_append_eq_zero_iff (data : Bytes) (low high : UInt8) :
    crc16 (data ++ [low, high]) = 0 ↔ wordOf low high = crc16 data := by
  have hw := crc16Byte_lowByte (wordOf low high)
  rw [lowByte_wordOf, highByte_wordOf] at hw
  rw [crc16_append, List.foldl_cons, List.foldl_cons, List.foldl_nil, crc16Byte_eq_zero_iff, ← hw,
    (crc16Byte_injective low).eq_iff, eq_comm]

end Checksum

namespace Framing

variable (f : Framing) (address : UInt8)

theorem intact_append_iff (body : Bytes) {tail : Bytes} (h : tail.length = f.trailerLength) :
    f.intact address (body ++ tail) = true ↔ tail = f.trailer address body := by
  cases f with
  | crc8 =>
    obtain ⟨byte, rfl⟩ := List.length_eq_one_iff.1 h
    rw [intact, trailer, beq_iff_eq, Checksum.crc8_append_eq_zero_iff, List.cons.injEq,
      and_iff_left rfl]
  | crc16 =>
    match tail, h with
    | [low, high], _ =>
      rw [intact, trailer, beq_iff_eq, ← List.cons_append, Checksum.crc16_append_eq_zero_iff]
      constructor
      · intro hw
        rw [← hw, wordBytes, lowByte_wordOf, highByte_wordOf]
      · intro ht
        rw [wordBytes, List.cons.injEq, List.cons.injEq] at ht
        rw [ht.1, ht.2.1, wordOf_lowByte_highByte]

theorem intact_enclose (body : Bytes) : f.intact address (f.enclose address body) = true :=
  (f.intact_append_iff address body (f.trailer_length address body)).2 rfl

theorem intact_iff {frame : Bytes} (long : f.trailerLength ≤ frame.length) :
    f.intact address frame = true ↔
      f.enclose address (frame.take (frame.length - f.trailerLength)) = frame := by
  have hl : (frame.drop (frame.length - f.trailerLength)).length = f.trailerLength := by
    rw [List.length_drop]
    omega
  have hs := List.take_append_drop (frame.length - f.trailerLength) frame
  have hi := f.intact_append_iff address (frame.take (frame.length - f.trailerLength)) hl
  rw [hs] at hi
  rw [hi, enclose]
  constructor
  · intro ht
    rw [← ht, hs]
  · intro he
    exact (List.append_cancel_left (he.trans hs.symm)).symm

/-- Enclosing in place needs room for the checksum and touches nothing behind it. -/
theorem encloseIn_eq {buffer : Bytes} {len : Nat} (room : len + f.trailerLength ≤ buffer.length) :
    f.encloseIn address buffer len =
      .ok (len + f.trailerLength,
        f.enclose address (buffer.take len) ++ buffer.drop (len + f.trailerLength)) := by
  have hl : (f.enclose address (buffer.take len)).length = len + f.trailerLength := by
    rw [enclose_length, List.length_take, Nat.min_eq_left (by omega)]
  have hs : slice buffer 0 len = .ok (buffer.take len) := slice_eq_ok (by omega)
  have hp : patch buffer 0 (f.enclose address (buffer.take len)) = .ok (buffer.take 0 ++
      f.enclose address (buffer.take len) ++ buffer.drop (0 + (len + f.trailerLength))) := by
    rw [patch_eq_ok (by omega), hl]
  rw [encloseIn, hs]
  simp only [bind, Except.bind, hp, Nat.zero_add]
  rfl

theorem room_of_encloseIn {buffer sealed : Bytes} {len n : Nat}
    (h : f.encloseIn address buffer len = .ok (n, sealed)) :
    len + f.trailerLength ≤ buffer.length := by
  obtain ⟨body, hs, h⟩ := bind_eq_ok.1 h
  obtain ⟨enclosed, hp, -⟩ := bind_eq_ok.1 h
  have hl := slice_length hs
  unfold patch at hp
  split at hp
  · rename_i fits
    rwa [enclose_length, hl, Nat.zero_add] at fits
  · cases hp

/-- What enclosing a body in place puts behind it, whatever was there. -/
def Appends (body tail : Bytes) : Prop :=
  ∀ spare rest : Bytes, spare.length = f.trailerLength →
    f.encloseIn address (body ++ spare ++ rest) body.length =
      .ok (body.length + f.trailerLength, body ++ tail ++ rest)

theorem appends_iff {body tail : Bytes} :
    f.Appends address body tail ↔ tail = f.trailer address body := by
  have put (spare rest : Bytes) (h : spare.length = f.trailerLength) :
      f.encloseIn address (body ++ spare ++ rest) body.length =
        .ok (body.length + f.trailerLength, body ++ f.trailer address body ++ rest) := by
    have room : body.length + f.trailerLength ≤ (body ++ spare ++ rest).length := by
      simp only [List.length_append, h]
      omega
    have taken : (body ++ spare ++ rest).take body.length = body := by
      rw [List.append_assoc, List.take_left]
    have dropped : (body ++ spare ++ rest).drop (body.length + f.trailerLength) = rest := by
      rw [← h, ← List.length_append, List.drop_left]
    rw [encloseIn_eq f address room, taken, dropped, enclose]
  constructor
  · intro h
    have both := (h (blank f.trailerLength) [] List.length_replicate).symm.trans
      (put _ [] List.length_replicate)
    rw [Except.ok.injEq, Prod.mk.injEq, List.append_nil, List.append_nil] at both
    exact List.append_cancel_left both.2
  · rintro rfl spare rest h
    exact put spare rest h

/-- Enclosing and testing are inverse. A frame that is long enough is intact exactly if it is a body
and what enclosing appends to it; enclosing needs no more than its room, and leaves the body and an
intact frame; and of all endings a body may have, its checksum alone makes it intact. -/
theorem intact_iff_enclosed {frame : Bytes} (long : f.trailerLength ≤ frame.length) :
    (f.intact address frame = true ↔
      ∃ body tail, frame = body ++ tail ∧ tail.length = f.trailerLength ∧
        f.Appends address body tail) ∧
    (∀ buffer len, len + f.trailerLength ≤ buffer.length ↔
      ∃ n sealed, f.encloseIn address buffer len = .ok (n, sealed)) ∧
    (∀ buffer len n sealed, f.encloseIn address buffer len = .ok (n, sealed) →
      n = len + f.trailerLength ∧ sealed.take len = buffer.take len ∧
        f.intact address (sealed.take n) = true) ∧
    ∀ body, ∃! tail, tail.length = f.trailerLength ∧ f.intact address (body ++ tail) = true := by
  refine ⟨⟨fun whole => ?_, ?_⟩, fun buffer len => ⟨fun room => ?_, ?_⟩,
    fun buffer len n sealed h => ?_, fun body => ⟨f.trailer address body, ⟨?_, ?_⟩, ?_⟩⟩
  · have enclosed := (f.intact_iff address long).1 whole
    exact ⟨_, _, enclosed.symm, f.trailer_length address _, (f.appends_iff address).2 rfl⟩
  · rintro ⟨body, tail, rfl, hl, appends⟩
    exact (f.intact_append_iff address body hl).2 ((f.appends_iff address).1 appends)
  · exact ⟨_, _, f.encloseIn_eq address room⟩
  · rintro ⟨n, sealed, h⟩
    exact f.room_of_encloseIn address h
  · have room := f.room_of_encloseIn address h
    rw [f.encloseIn_eq address room, Except.ok.injEq, Prod.mk.injEq] at h
    obtain ⟨rfl, rfl⟩ := h
    have hb : (buffer.take len).length = len := by
      rw [List.length_take, Nat.min_eq_left (by omega)]
    have hl : (f.enclose address (buffer.take len)).length = len + f.trailerLength := by
      rw [enclose_length, hb]
    refine ⟨rfl, ?_, ?_⟩
    · rw [enclose, List.append_assoc, List.take_left' hb]
    · rw [List.take_left' hl]
      exact f.intact_enclose address _
  · exact f.trailer_length address body
  · exact f.intact_enclose address body
  · rintro tail ⟨hl, whole⟩
    exact (f.intact_append_iff address body hl).1 whole

/-- A request for the protocol version, as it goes to address eight on a shared line. -/
theorem intact_iff_enclosed_version :
    Framing.crc16.trailerLength ≤ ([0x00, 0x06, 0x70] : Bytes).length ∧
      Framing.crc16.intact 8 [0x00, 0x06, 0x70] = true ∧
      ∃ body tail, ([0x00, 0x06, 0x70] : Bytes) = body ++ tail ∧
        tail.length = Framing.crc16.trailerLength ∧ Framing.crc16.Appends 8 body tail := by
  have long : Framing.crc16.trailerLength ≤ ([0x00, 0x06, 0x70] : Bytes).length := by decide
  have whole : Framing.crc16.intact 8 [0x00, 0x06, 0x70] = true := by decide +kernel
  exact ⟨long, whole, (intact_iff_enclosed .crc16 8 long).1.1 whole⟩

theorem opened_enclose (cmd : UInt8) {payload : Bytes} (fits : payload.length ≤ maxFrame) :
    f.opened address (f.enclose address (cmd :: payload)) = .command cmd payload := by
  have hi := f.intact_enclose address (cmd :: payload)
  have hl := f.trailer_length address (cmd :: payload)
  rw [enclose, List.cons_append] at hi ⊢
  rw [opened, hi, List.length_append, hl, Nat.add_sub_cancel, List.take_left, if_neg (by omega),
    if_neg (by decide), if_neg (by omega)]

end Framing

end FieldUpdate
