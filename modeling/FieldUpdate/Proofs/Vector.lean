import FieldUpdate.Proofs.Host
import FieldUpdate.Proofs.Relocation

namespace FieldUpdate

/-- An image that a layout has room for. With a vector slot it begins with a relative jump. -/
structure Layout.Accepts (l : Layout) (image : Bytes) : Prop where
  nonempty : 0 < image.length
  fits : image.length ≤ l.applicationSize.toNat
  jumps : l.Jumps
  two : l.slot.isSome → 2 ≤ image.length
  jump : l.slot.isSome → Relocation.IsJump (firstWord image)

/-- An image that fills the application of a small part and shares a block with the slot. -/
def sixBytes : Bytes := [0x12, 0xc0, 3, 4, 5, 6]

theorem slotFits_small : Layout.small.SlotFits Geometry.small.eraseSize := by
  intro slot slotted
  cases slotted
  decide

theorem sixBytes_accepted : Layout.small.Accepts sixBytes where
  nonempty := by decide
  fits := by decide
  jumps := fun _ slotted => by
    cases slotted
    rfl
  two := fun _ => by decide
  jump := fun _ => show _ &&& _ = _ by decide

theorem firstWord_append {data more : Bytes} (h : 2 ≤ data.length) :
    firstWord (data ++ more) = firstWord data := by
  unfold firstWord
  simp only [List.getD_eq_getElem?_getD]
  rw [List.getElem?_append_left (by omega), List.getElem?_append_left (by omega)]

theorem firstWord_take {data : Bytes} {n : Nat} (h : 2 ≤ n) :
    firstWord (data.take n) = firstWord data := by
  unfold firstWord
  simp only [List.getD_eq_getElem?_getD]
  rw [List.getElem?_take_of_lt (by omega), List.getElem?_take_of_lt (by omega)]

theorem VectorSlot.outside_of_ne (slot : VectorSlot) {n start x : Nat} (aligned : start % n = 0)
    (whole : slot.address.toNat % n + 2 ≤ n) (other : start ≠ slot.block n)
    (low : slot.address.toNat ≤ x) (high : x ≤ slot.address.toNat + 1) :
    x < start ∨ start + n ≤ x := by
  have := slot.block_le n
  have := slot.address_in_block whole
  obtain before | behind := Nat.lt_or_gt_of_ne other
  · have := add_le_of_aligned aligned (slot.block_aligned n) before
    exact .inr (by omega)
  · have := add_le_of_aligned (slot.block_aligned n) aligned behind
    exact .inl (by omega)

namespace Programmer

variable {g : Geometry} {p p' : Programmer g} {slot : VectorSlot} {word : UInt16} {start : Nat}
  {data : Bytes} {report : Except FlashError BlockOutcome} {outcome : BlockOutcome}

structure HoldsVector (p : Programmer g) (slot : VectorSlot) (word : UInt16) : Prop where
  low : p.stored slot.address.toNat = lowByte word
  high : p.stored (slot.address.toNat + 1) = highByte word

theorem holdsVector_of_holding {view : Nat → UInt8}
    (h : ∀ x, slot.address.toNat ≤ x → p.stored x = slot.holding word view x) :
    p.HoldsVector slot word := by
  refine ⟨?_, ?_⟩
  · rw [h _ (Nat.le_refl _), VectorSlot.holding, if_pos rfl]
  · rw [h _ (Nat.le_succ _), VectorSlot.holding, if_neg (by omega), if_pos rfl]

/-- The slot's word is gone: its upper byte is erased. -/
def LostVector (p : Programmer g) (slot : VectorSlot) : Prop :=
  p.stored (slot.address.toNat + 1) = 0xff

/-- The latest fault hit a page of the block at `start` that lies at the slot's word or before it,
so that this block was left without the word. -/
def Strands (p : Programmer g) (slot : VectorSlot) (start : Nat) : Prop :=
  start = slot.block g.eraseSize ∧ ∃ address data,
    p.chip.faults.head? = some (.program address data) ∧ address ≤ slot.address.toNat + 1

namespace Updated

variable {target : Nat → UInt8}

theorem holdsVector_of_apart (h : Updated p start target report p')
    (aligned : start % g.eraseSize = 0) (whole : slot.address.toNat % g.eraseSize + 2 ≤ g.eraseSize)
    (other : start ≠ slot.block g.eraseSize) (holds : p.HoldsVector slot word) :
    p'.HoldsVector slot word := by
  have apart {x : Nat} := slot.outside_of_ne (x := x) aligned whole other
  refine ⟨?_, ?_⟩
  · rw [h.stored_outside (apart (Nat.le_refl _) (Nat.le_succ _)), holds.low]
  · rw [h.stored_outside (apart (Nat.le_succ _) (Nat.le_refl _)), holds.high]

theorem vector_of_error {e : FlashError}
    (h : Updated p (slot.block g.eraseSize) target (.error e) p')
    (size : slot.block g.eraseSize + g.eraseSize ≤ g.size)
    (whole : slot.address.toNat % g.eraseSize + 2 ≤ g.eraseSize)
    (kept : ∀ x, slot.address.toNat ≤ x → target x = p.stored x) :
    (¬p'.Strands slot (slot.block g.eraseSize) ∧
        ∀ word, p.HoldsVector slot word → p'.HoldsVector slot word) ∨
      (p'.Strands slot (slot.block g.eraseSize) ∧ p'.LostVector slot) := by
  have := slot.block_le g.eraseSize
  have := slot.address_in_block whole
  cases h with
  | refused _ small => omega
  | eraseFailed _ bits layout stored events =>
    refine .inl ⟨?_, fun word holds => ⟨by rw [stored, holds.low], by rw [stored, holds.high]⟩⟩
    rintro ⟨-, address, page, hit, -⟩
    rw [Chip.faults, events] at hit
    cases hit
  | pageFailed _ bits k bound layout stored events =>
    have hf : p'.chip.faults.head? =
        some (.program (slot.block g.eraseSize + k * g.writeSize)
          (gather target (slot.block g.eraseSize + k * g.writeSize) g.writeSize)) := by
      rw [Chip.faults, events]
      rfl
    -- The pages behind the one that failed are erased, those before it were written.
    have hk := page_le bound
    by_cases reached : slot.block g.eraseSize + k * g.writeSize ≤ slot.address.toNat + 1
    · refine .inr ⟨⟨rfl, _, _, hf, reached⟩, ?_⟩
      rw [LostVector, stored, refilled, if_neg (by omega), if_pos (by omega)]
    · refine .inl ⟨?_, fun word holds => ⟨?_, ?_⟩⟩
      · rintro ⟨-, address, page, hit, near⟩
        rw [hf, Option.some.injEq, Operation.program.injEq] at hit
        omega
      · rw [stored, refilled, if_pos (by omega), kept _ (by omega), holds.low]
      · rw [stored, refilled, if_pos (by omega), kept _ (by omega), holds.high]

end Updated

namespace Committed

theorem vector_of_ok (h : Committed p start data (.ok outcome) p') (placed : p.Placed start data)
    (slotted : p.layout.slot = some slot) (zero : start = 0) :
    slot.address.toNat % g.eraseSize + 2 ≤ g.eraseSize ∧
      ∃ word, slot.toSlot (firstWord data) = some word ∧ p'.HoldsVector slot word := by
  have hs := h.stored_of_ok placed
  have happ := placed.le_application
  have hpos := placed.nonempty
  have hle := p.sound.application_le_slot slot slotted
  have h2 := two_le_slot slotted (by omega)
  obtain ⟨whole, word, movable⟩ := h.movable_of_ok slotted zero
  -- The slot is past the application, where a commit changes nothing but the slot.
  have reserved : ∀ x, slot.address.toNat ≤ x → p'.stored x = slot.holding word p.stored x := by
    intro x hx
    rw [hs, Layout.committed, if_neg fun hg => absurd hg.1.2 (by omega), if_neg (by omega),
      if_neg (by omega), if_pos zero, Layout.relocated, slotted]
    simp only [movable]
  exact ⟨whole, word, movable, holdsVector_of_holding reserved⟩

theorem update_of_later (h : Committed p start data report p') (later : start ≠ 0) :
    Updated p start (p.wanted start data) report p' := by
  cases h with
  | plain _ _ fixed update => exact update
  | unsupported slot slotted zero unmovable => exact absurd zero later
  | vectorFailed slot word _ _ slotted zero whole movable vector => exact absurd zero later
  | moved slot word o p₁ _ _ slotted zero whole movable vector update => exact absurd zero later

theorem reserved_of_ok (h : Committed p start data (.ok outcome) p') (placed : p.Placed start data)
    (later : start ≠ 0) {x : Nat} (hx : p.layout.applicationSize.toNat ≤ x) :
    p'.stored x = p.stored x := by
  have happ := placed.le_application
  rw [h.stored_of_ok placed, Layout.committed, if_neg fun hg => later hg.2, if_neg (by omega),
    if_neg (by omega), if_neg later]

theorem holdsVector_of_ok (h : Committed p start data (.ok outcome) p')
    (placed : p.Placed start data) (later : start ≠ 0) (slotted : p.layout.slot = some slot)
    (holds : p.HoldsVector slot word) : p'.HoldsVector slot word := by
  have behind := p.sound.application_le_slot slot slotted
  exact ⟨(h.reserved_of_ok placed later behind).trans holds.low,
    (h.reserved_of_ok placed later (Nat.le_succ_of_le behind)).trans holds.high⟩

theorem holdsVector_of_apart (h : Committed p start data report p') (placed : p.Placed start data)
    (later : start ≠ 0) (whole : slot.address.toNat % g.eraseSize + 2 ≤ g.eraseSize)
    (other : start ≠ slot.block g.eraseSize) (holds : p.HoldsVector slot word) :
    p'.HoldsVector slot word :=
  (h.update_of_later later).holdsVector_of_apart placed.aligned whole other holds

/-- A commit of a later block that failed keeps the slot's word, or the word is gone with a page
that could not be programmed. -/
theorem vector_of_error {e : FlashError} (h : Committed p start data (.error e) p')
    (placed : p.Placed start data) (small : g.eraseSize < addressSpace)
    (size : p.layout.writableEnd.toNat ≤ g.size) (later : start ≠ 0)
    (slotted : p.layout.slot = some slot)
    (whole : slot.address.toNat % g.eraseSize + 2 ≤ g.eraseSize) :
    (¬p'.Strands slot start ∧ ∀ word, p.HoldsVector slot word → p'.HoldsVector slot word) ∨
      (p'.Strands slot start ∧ p'.LostVector slot) := by
  have happ := placed.le_application
  have hin := placed.inside small
  have hle := p.sound.application_le_slot slot slotted
  have update := h.update_of_later later
  by_cases here : start = slot.block g.eraseSize
  · -- The slot lies past the application, so its block takes its word along.
    have kept : ∀ x, slot.address.toNat ≤ x → p.wanted start data x = p.stored x := by
      intro x hx
      rw [wanted_of_not_kept fun hk => later hk.2.1, if_neg (by omega), if_neg (by omega)]
    subst here
    exact update.vector_of_error (Nat.le_trans hin size) whole kept
  · exact .inl ⟨fun strands => here strands.1, fun word holds =>
      update.holdsVector_of_apart placed.aligned whole here holds⟩

/-- Nothing but a commit of block zero brings a lost word back. -/
theorem lost_of_lost (h : Committed p start data report p') (placed : p.Placed start data)
    (later : start ≠ 0) (slotted : p.layout.slot = some slot) (lost : p.LostVector slot) :
    p'.LostVector slot := by
  have happ := placed.le_application
  have hle := p.sound.application_le_slot slot slotted
  have wanted : p.wanted start data (slot.address.toNat + 1) = 0xff := by
    rw [wanted_of_not_kept fun hk => later hk.2.1, if_neg (by omega), if_neg (by omega), lost]
  -- Whether its page comes to be erased or written, the byte is erased afterwards.
  have refill : ∀ n,
      refilled p.stored (p.wanted start data) start g.eraseSize n
        (slot.address.toNat + 1) = 0xff := by
    intro n
    rw [refilled]
    repeat' split
    all_goals first | exact wanted | exact lost | rfl
  unfold LostVector
  cases h.update_of_later later with
  | held same => exact lost
  | written _ layout stored => rw [stored, refill]
  | refused _ small' layout stored => rw [stored, lost]
  | eraseFailed _ bits layout stored => rw [stored, lost]
  | pageFailed _ bits k bound layout stored => rw [stored, refill]

end Committed

theorem imageVector_of_holds (jumps : slot.relocate = Relocation.relativeJump) {vector : UInt16}
    (moved : slot.toSlot vector = some word) (holds : p.HoldsVector slot word) :
    p.imageVector slot = some vector := by
  rw [imageVector, holds.low, holds.high, wordOf_lowByte_highByte]
  exact slot.fromSlot_toSlot jumps moved

theorem imageVector_of_lost (jumps : slot.relocate = Relocation.relativeJump)
    (lost : p.LostVector slot) : p.imageVector slot = none := by
  rw [imageVector, lost, VectorSlot.fromSlot, jumps]
  cases hr : Relocation.relativeJump (wordOf (p.stored slot.address.toNat) 0xff)
      slot.address.toNat with
  | none => rfl
  | some moved =>
    have hj := (Relocation.isJump_of_relativeJump hr).1
    exact absurd (highByte_wordOf _ _) (Relocation.highByte_ne_erased hj)

end Programmer

/-- When block zero becomes complete, its vector goes into the slot, and block zero is all that was
accepted. -/
theorem Stream.Faithful.vector_of_first {g : Geometry} {u : Updater g} {accepted : Bytes}
    {slot : VectorSlot} {b : UInt8} {outcome : BlockOutcome} {flash : Programmer g}
    (h : Faithful ⟨u, accepted⟩) (small : g.eraseSize < addressSpace)
    (slotted : u.flash.layout.slot = some slot)
    (room : u.cursor < u.flash.layout.applicationSize.toNat)
    (full : (u.cursor + 1) % g.eraseSize = 0) (zero : u.cursor + 1 - g.eraseSize = 0)
    (commit : u.flash.commit (u.cursor + 1 - g.eraseSize) (u.staging b).staged =
      .ok (.ok outcome, flash)) :
    slot.address.toNat % g.eraseSize + 2 ≤ g.eraseSize ∧
      ∃ word, slot.toSlot (firstWord (accepted ++ [b])) = some word ∧
        flash.HoldsVector slot word := by
  have placed := u.placed_full b h.coherent.ready room full
  have hd := Programmer.committed_of_commit placed small commit
  have ha := h.staging_full b full
  rw [zero, List.drop_zero] at ha
  rw [← ha]
  exact hd.vector_of_ok placed slotted zero

namespace Session

variable {g : Geometry} {s : Session g} {image : Bytes}

theorem serves_of_stored (accepts : s.updater.flash.layout.Accepts image)
    (bytes : ∀ x < image.length, ¬s.updater.flash.layout.Guarded x →
      image[x]? = some (s.updater.flash.stored x))
    (vector : ∀ slot, s.updater.flash.layout.slot = some slot →
      ∃ word, slot.toSlot (firstWord image) = some word ∧
        s.updater.flash.HoldsVector slot word) : s.Serves image := by
  have hfits := accepts.fits
  have hlt := s.updater.flash.layout.applicationSize.toNat_lt
  rw [serves_iff (show image.length < 0x10000 by omega)]
  intro x hx
  unfold Programmer.imageByte
  split
  · rename_i unslotted
    refine bytes x hx fun guarded => ?_
    rw [Layout.Guarded, unslotted] at guarded
    cases guarded.1
  · rename_i slot slotted
    split
    · rename_i h2
      obtain ⟨word, moved, holds⟩ := vector slot slotted
      rw [Programmer.imageVector_of_holds (accepts.jumps slot slotted) moved holds]
      have htwo := accepts.two (by rw [slotted]; rfl)
      simp only [firstWord, lowByte_wordOf, highByte_wordOf, List.getD_eq_getElem?_getD]
      obtain rfl | rfl : x = 0 ∨ x = 1 := by omega
      · rw [if_pos rfl, List.getElem?_eq_getElem hx]
        rfl
      · rw [if_neg (by omega), List.getElem?_eq_getElem hx]
        rfl
    · rename_i h2
      exact bytes x hx fun guarded => h2 guarded.2

theorem not_serves_of_lost (accepts : s.updater.flash.layout.Accepts image) {slot : VectorSlot}
    (slotted : s.updater.flash.layout.slot = some slot)
    (lost : s.updater.flash.LostVector slot) : ¬s.Serves image := by
  have hfits := accepts.fits
  have hlt := s.updater.flash.layout.applicationSize.toNat_lt
  have htwo := accepts.two (by rw [slotted]; rfl)
  have hjump := accepts.jump (by rw [slotted]; rfl)
  rw [serves_iff (show image.length < 0x10000 by omega)]
  intro serves
  have hb := serves 1 (by omega)
  have hi : s.updater.flash.imageByte 1 = 0xff := by
    rw [Programmer.imageByte, slotted]
    simp only [Programmer.imageVector_of_lost (accepts.jumps slot slotted) lost]
    rfl
  rw [hi] at hb
  refine Relocation.highByte_ne_erased hjump ?_
  rw [firstWord, highByte_wordOf, List.getD_eq_getElem?_getD, hb]
  rfl

end Session

end FieldUpdate
