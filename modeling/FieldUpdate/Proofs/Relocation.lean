import FieldUpdate.Layout

namespace FieldUpdate

namespace Relocation

/-- The opcode of one word with the displacement of another. -/
def retarget (word jump : UInt16) : UInt16 := (word &&& 0xf000) ||| (jump &&& 0x0fff)

def IsJump (word : UInt16) : Prop := word &&& 0xe000 = 0xc000

/-- Where the jump at a byte address leads, in words. The core counts on from the word behind the
jump, in a flash of 4096 words that wraps. -/
def landing (address : Nat) (word : UInt16) : Nat :=
  (address / 2 + (word &&& 0x0fff).toNat + 1) % 4096

theorem and_or_and (a b m₁ m₂ m : UInt16) :
    ((a &&& m₁) ||| (b &&& m₂)) &&& m = (a &&& (m₁ &&& m)) ||| (b &&& (m₂ &&& m)) := by
  apply UInt16.toBitVec_inj.1
  ext i hi
  simp only [UInt16.toBitVec_and, UInt16.toBitVec_or, BitVec.getElem_and, BitVec.getElem_or]
  grind

theorem and_or_and_self (a m₁ m₂ : UInt16) : (a &&& m₁) ||| (a &&& m₂) = a &&& (m₁ ||| m₂) := by
  apply UInt16.toBitVec_inj.1
  ext i hi
  simp only [UInt16.toBitVec_and, UInt16.toBitVec_or, BitVec.getElem_and, BitVec.getElem_or]
  grind

theorem retarget_and_opcode (word jump : UInt16) :
    retarget word jump &&& 0xe000 = word &&& 0xe000 := by
  rw [retarget, and_or_and, show (0xf000 &&& 0xe000 : UInt16) = 0xe000 by decide,
    show (0x0fff &&& 0xe000 : UInt16) = 0 by decide, UInt16.and_zero, UInt16.or_zero]

theorem retarget_and_displacement (word jump : UInt16) :
    retarget word jump &&& 0x0fff = jump &&& 0x0fff := by
  rw [retarget, and_or_and, show (0xf000 &&& 0x0fff : UInt16) = 0 by decide,
    show (0x0fff &&& 0x0fff : UInt16) = 0x0fff by decide, UInt16.and_zero, UInt16.zero_or]

theorem retarget_and_top (word jump : UInt16) :
    retarget word jump &&& 0xf000 = word &&& 0xf000 := by
  rw [retarget, and_or_and, show (0xf000 &&& 0xf000 : UInt16) = 0xf000 by decide,
    show (0x0fff &&& 0xf000 : UInt16) = 0 by decide, UInt16.and_zero, UInt16.or_zero]

theorem retarget_retarget (word jump jump' : UInt16) :
    retarget (retarget word jump) jump' = retarget word jump' := by
  rw [retarget, retarget_and_top]
  rfl

theorem retarget_self (word : UInt16) : retarget word word = word := by
  rw [retarget, and_or_and_self, show (0xf000 ||| 0x0fff : UInt16) = -1 by decide,
    UInt16.and_neg_one]

theorem retarget_congr {word jump jump' : UInt16} (h : jump &&& 0x0fff = jump' &&& 0x0fff) :
    retarget word jump = retarget word jump' := by
  rw [retarget, h]
  rfl

theorem toNat_displacement (word : UInt16) : (word &&& 0x0fff).toNat = word.toNat % 4096 := by
  rw [UInt16.toNat_and]
  exact Nat.and_two_pow_sub_one_eq_mod word.toNat 12

theorem displacement_add (word offset : UInt16) :
    ((word &&& 0x0fff) + offset) &&& 0x0fff = (word + offset) &&& 0x0fff := by
  apply UInt16.toNat_inj.1
  rw [toNat_displacement, toNat_displacement, UInt16.toNat_add, UInt16.toNat_add,
    toNat_displacement]
  omega

theorem relativeJump_eq (word : UInt16) (offset : Int) :
    relativeJump word offset =
      if word &&& 0xe000 = 0xc000 then
        some (retarget word ((word &&& 0x0fff) + UInt16.ofInt (offset.tdiv 2)))
      else none := rfl

theorem relativeJump_eq_none_iff {word : UInt16} {offset : Int} :
    relativeJump word offset = none ↔ word &&& 0xe000 ≠ 0xc000 := by
  rw [relativeJump_eq]
  split
  · rename_i jump
    exact ⟨fun h => (Option.some_ne_none _ h).elim, fun other => absurd jump other⟩
  · rename_i other
    exact ⟨fun _ => other, fun _ => rfl⟩

theorem isJump_of_relativeJump {word moved : UInt16} {offset : Int}
    (h : relativeJump word offset = some moved) : IsJump word ∧ IsJump moved := by
  rw [relativeJump_eq] at h
  split at h
  · rename_i hj
    cases h
    exact ⟨hj, (retarget_and_opcode _ _).trans hj⟩
  · cases h

theorem relativeJump_back {word moved : UInt16} {offset : Int}
    (h : relativeJump word (-offset) = some moved) : relativeJump moved offset = some word := by
  have hm : moved &&& 0xe000 = 0xc000 := (isJump_of_relativeJump h).2
  rw [relativeJump_eq] at h
  split at h
  · cases h
    -- Opcodes agree, so all is about displacements: one is added and taken away again.
    rw [relativeJump_eq, if_pos hm, retarget_retarget, retarget_and_displacement,
      displacement_add, Int.neg_tdiv, UInt16.ofInt_neg]
    congr 1
    rw [retarget_congr (displacement_add _ _), UInt16.add_assoc, UInt16.add_left_neg,
      UInt16.add_zero, retarget_self]
  · cases h

theorem relativeJump_words {word : UInt16} (jump : IsJump word) (n : Int) :
    relativeJump word (2 * n) = some (retarget word (word + UInt16.ofInt n)) := by
  rw [relativeJump_eq, if_pos (show word &&& 0xe000 = 0xc000 from jump),
    Int.mul_tdiv_cancel_left _ (by decide)]
  exact congrArg some (retarget_congr (displacement_add _ _))

theorem relativeJump_zero {word : UInt16} (jump : IsJump word) :
    relativeJump word 0 = some word := by
  have still := relativeJump_words jump 0
  rwa [Int.mul_zero, show UInt16.ofInt 0 = 0 from rfl, UInt16.add_zero, retarget_self] at still

/-- Distances add up, for words that can be moved and for those that cannot. -/
theorem relativeJump_relativeJump (word : UInt16) {first second : Int} (even : 2 ∣ first)
    (even' : 2 ∣ second) :
    (relativeJump word first).bind (relativeJump · second) = relativeJump word (first + second) := by
  by_cases jump : IsJump word
  · obtain ⟨n, rfl⟩ := even
    obtain ⟨n', rfl⟩ := even'
    have moved : IsJump (retarget word (word + UInt16.ofInt n)) :=
      (retarget_and_opcode _ _).trans jump
    rw [relativeJump_words jump, Option.bind_some, relativeJump_words moved, ← Int.mul_add,
      relativeJump_words jump, retarget_retarget, UInt16.ofInt_add, ← UInt16.add_assoc]
    refine congrArg some (retarget_congr ?_)
    rw [← displacement_add, retarget_and_displacement, displacement_add]
  · rw [relativeJump_eq_none_iff.2 jump, relativeJump_eq_none_iff.2 jump]
    rfl

theorem landing_of_relativeJump {word moved : UInt16} {source target : Nat}
    (even : source % 2 = 0) (even' : target % 2 = 0)
    (h : relativeJump word ((source : Int) - target) = some moved) :
    landing target moved = landing source word := by
  have jump := (isJump_of_relativeJump h).1
  obtain ⟨n, rfl⟩ := Nat.dvd_of_mod_eq_zero even
  obtain ⟨n', rfl⟩ := Nat.dvd_of_mod_eq_zero even'
  have words : ((2 * n : Nat) : Int) - (2 * n' : Nat) = 2 * ((n : Int) - n') := by omega
  rw [words, relativeJump_words jump] at h
  cases h
  -- The displacement wraps in 12 bits and the distance in 16, so both agree modulo 4096.
  have distance : (UInt16.ofInt ((n : Int) - n')).toNat = (((n : Int) - n') % 65536).toNat := by
    rw [UInt16.ofInt, UInt16.toNat_ofNat']
    omega
  rw [landing, landing, retarget_and_displacement, toNat_displacement, toNat_displacement,
    UInt16.toNat_add, distance]
  omega

theorem or_and_of_and_eq {c d : UInt16} (a : UInt16) (h : c &&& d = d) : (a ||| c) &&& d = d := by
  apply UInt16.toBitVec_inj.1
  ext i hi
  have hb := congrArg (fun w : UInt16 => w.toBitVec[i]) h
  simp only [UInt16.toBitVec_and, UInt16.toBitVec_or, BitVec.getElem_and, BitVec.getElem_or]
    at hb ⊢
  grind

theorem highByte_ne_erased {word : UInt16} (h : IsJump word) : highByte word ≠ 0xff := by
  intro he
  have hw := wordOf_lowByte_highByte word
  rw [he, wordOf, show (0xff : UInt8).toUInt16 <<< 8 = 0xff00 by decide] at hw
  have ho := or_and_of_and_eq (lowByte word).toUInt16 (show 0xff00 &&& 0xe000 = 0xe000 by decide)
  rw [hw, show word &&& 0xe000 = 0xc000 from h] at ho
  exact absurd ho (by decide)

end Relocation

namespace VectorSlot

theorem isJump_of_toSlot {slot : VectorSlot} (jumps : slot.relocate = Relocation.relativeJump)
    {word stored : UInt16} (h : slot.toSlot word = some stored) : Relocation.IsJump word := by
  unfold toSlot at h
  rw [jumps] at h
  exact (Relocation.isJump_of_relativeJump h).1

theorem toSlot_of_isJump {slot : VectorSlot} (jumps : slot.relocate = Relocation.relativeJump)
    {word : UInt16} (h : Relocation.IsJump word) : ∃ stored, slot.toSlot word = some stored := by
  unfold toSlot
  rw [jumps, Relocation.relativeJump_eq]
  exact ⟨_, if_pos (show word &&& 0xe000 = 0xc000 from h)⟩

theorem fromSlot_toSlot {slot : VectorSlot} (jumps : slot.relocate = Relocation.relativeJump)
    {word stored : UInt16} (h : slot.toSlot word = some stored) :
    slot.fromSlot stored = some word := by
  unfold toSlot at h
  unfold fromSlot
  rw [jumps] at h ⊢
  exact Relocation.relativeJump_back h

/-- Relative jumps, and no other words, can be moved. A jump keeps the four bits of its opcode, and
moving it by two even distances is moving it by their sum. So the way to the slot and the way back
undo each other, and the jump in the slot leads where the one at address zero led. -/
theorem relocation_keeps_target (slot : VectorSlot) (jumps : slot.relocate = Relocation.relativeJump)
    (slotEven : slot.address.toNat % 2 = 0) {first second : Int} (even : 2 ∣ first)
    (even' : 2 ∣ second) (word : UInt16) :
    (Relocation.relativeJump word first = none ↔ word &&& 0xe000 ≠ 0xc000) ∧
      (∀ moved, Relocation.relativeJump word first = some moved →
        moved &&& 0xf000 = word &&& 0xf000) ∧
      (Relocation.relativeJump word first).bind (Relocation.relativeJump · second) =
        Relocation.relativeJump word (first + second) ∧
      (word &&& 0xe000 = 0xc000 →
        Relocation.relativeJump word 0 = some word ∧
        (slot.toSlot word).bind slot.fromSlot = some word ∧
        (slot.fromSlot word).bind slot.toSlot = some word ∧
        ∃ stored, slot.toSlot word = some stored ∧
          Relocation.landing slot.address.toNat stored = Relocation.landing 0 word) := by
  have slotEven' : (2 : Int) ∣ slot.address.toNat := by omega
  refine ⟨Relocation.relativeJump_eq_none_iff, fun moved h => ?_,
    Relocation.relativeJump_relativeJump word even even', fun jump => ⟨?_, ?_, ?_, ?_⟩⟩
  · rw [Relocation.relativeJump_eq] at h
    split at h
    · cases h
      exact Relocation.retarget_and_top _ _
    · cases h
  · exact Relocation.relativeJump_zero jump
  · unfold toSlot fromSlot
    rw [jumps, Relocation.relativeJump_relativeJump word ((Int.dvd_neg).2 slotEven') slotEven',
      Int.add_left_neg]
    exact Relocation.relativeJump_zero jump
  · unfold toSlot fromSlot
    rw [jumps, Relocation.relativeJump_relativeJump word slotEven' ((Int.dvd_neg).2 slotEven'),
      Int.add_right_neg]
    exact Relocation.relativeJump_zero jump
  · obtain ⟨stored, h⟩ := toSlot_of_isJump jumps jump
    refine ⟨stored, h, Relocation.landing_of_relativeJump (Nat.zero_mod 2) slotEven ?_⟩
    unfold toSlot at h
    rw [jumps] at h
    rw [← h, Int.natCast_zero, Int.zero_sub]

/-- A jump back by two words, moved to a slot beyond the middle of the core's range. -/
theorem relocation_keeps_target_backwards :
    (2 : Int) ∣ -0x17fe ∧ (2 : Int) ∣ 0x0ffe ∧
      (⟨0x17fe, Relocation.relativeJump⟩ : VectorSlot).address.toNat % 2 = 0 ∧
      ((Relocation.relativeJump 0xcffe (-0x17fe)).bind (Relocation.relativeJump · 0x0ffe) =
        Relocation.relativeJump 0xcffe (-0x0800)) ∧
      ∃ stored, (⟨0x17fe, Relocation.relativeJump⟩ : VectorSlot).toSlot 0xcffe = some stored ∧
        Relocation.landing 0x17fe stored = Relocation.landing 0 0xcffe := by
  have even : (2 : Int) ∣ -0x17fe := by decide
  have even' : (2 : Int) ∣ 0x0ffe := by decide
  obtain ⟨-, -, sum, jump⟩ :=
    relocation_keeps_target ⟨0x17fe, Relocation.relativeJump⟩ rfl (by decide) even even' 0xcffe
  exact ⟨even, even', by decide, sum, (jump (by decide)).2.2.2⟩

end VectorSlot

/-- The vectors that move to the slot, if there is one, are relative jumps. -/
def Layout.Jumps (l : Layout) : Prop :=
  ∀ slot, l.slot = some slot → slot.relocate = Relocation.relativeJump

end FieldUpdate
