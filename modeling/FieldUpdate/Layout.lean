import FieldUpdate.FlashError
import FieldUpdate.Relocation

namespace FieldUpdate

structure Layout where
  /-- Bytes of the application image. -/
  applicationSize : UInt16
  /-- The first address that is never erased or programmed. -/
  writableEnd : UInt32
  slot : Option VectorSlot

namespace Layout

/-- Eight kilobytes with the loader from `0x1800` and the slot in the last word before it. -/
def attiny841 : Layout where
  applicationSize := 0x17fe
  writableEnd := 0x1800
  slot := some ⟨0x17fe, Relocation.relativeJump⟩

def direct (applicationSize : UInt16) : Layout :=
  ⟨applicationSize, applicationSize.toUInt32, none⟩

/-- What has to hold of a layout on a part that erases blocks of `eraseSize` bytes. The erase size
counts modulo `2^32`, as a 32-bit number. -/
structure Sound (l : Layout) (eraseSize : Nat) : Prop where
  application_le : l.applicationSize.toNat ≤ l.writableEnd.toNat
  writable_le : l.writableEnd.toNat ≤ addressSpace
  block_pos : 0 < eraseSize % 0x100000000
  writable_aligned : l.writableEnd.toNat % (eraseSize % 0x100000000) = 0
  slot_even : ∀ s, l.slot = some s → s.address.toNat % 2 = 0
  application_le_slot : ∀ s, l.slot = some s → l.applicationSize.toNat ≤ s.address.toNat
  slot_le : ∀ s, l.slot = some s → s.address.toNat + 2 ≤ l.writableEnd.toNat

def verdict (l : Layout) (eraseSize : Nat) : Checked (Except FlashError Unit) :=
  let app := l.applicationSize.toNat
  let stop := l.writableEnd.toNat
  let block := eraseSize % 0x100000000
  if app > stop ∨ stop > addressSpace then .ok (.error .outOfRange)
  else if block = 0 then .error .zeroDivisor
  else if stop % block ≠ 0 then .ok (.error .invalidPage)
  else
    match l.slot with
    | none => .ok (.ok ())
    | some s =>
      let slot := s.address.toNat
      if slot % 2 ≠ 0 ∨ slot < app ∨ slot + 2 > stop then .ok (.error .outOfRange)
      else .ok (.ok ())

theorem verdict_eq_ok_iff {l : Layout} {eraseSize : Nat} :
    l.verdict eraseSize = .ok (.ok ()) ↔ l.Sound eraseSize := by
  constructor
  · intro h
    unfold verdict at h
    simp only at h
    split at h
    · cases h
    split at h
    · cases h
    split at h
    · cases h
    split at h
    · rename_i hs
      exact ⟨by omega, by omega, by omega, by omega, by simp [hs], by simp [hs], by simp [hs]⟩
    · rename_i s hs
      split at h
      · cases h
      · refine ⟨by omega, by omega, by omega, by omega, ?_, ?_, ?_⟩ <;>
          (intro t ht; cases hs.symm.trans ht; omega)
  · rintro ⟨ha, hw, hb, hd, he, hl, hu⟩
    unfold verdict
    simp only
    rw [if_neg (by omega), if_neg (by omega), if_neg (by omega)]
    split
    · rfl
    · rename_i s hs
      have he := he s hs
      have hl := hl s hs
      have hu := hu s hs
      rw [if_neg (by omega)]

end Layout

end FieldUpdate
