import FieldUpdate.ImageStream
import FieldUpdate.Proofs.BlockUpdate

namespace FieldUpdate

/-- The slot's word lies within one block. -/
def Layout.SlotFits (l : Layout) (eraseSize : Nat) : Prop :=
  ∀ slot, l.slot = some slot → slot.address.toNat % eraseSize + 2 ≤ eraseSize

/-- The first word of some data; what is missing of it is erased. -/
def firstWord (data : Bytes) : UInt16 := wordOf (data.getD 0 0xff) (data.getD 1 0xff)

theorem getD_of_le {data : Bytes} {i : Nat} (h : data.length ≤ i) : data.getD i 0xff = 0xff := by
  rw [List.getD_eq_getElem?_getD, List.getElem?_eq_none h]
  rfl

theorem highByte_firstWord {data : Bytes} (h : data.length ≤ 1) :
    highByte (firstWord data) = 0xff := by
  rw [firstWord, highByte_wordOf, getD_of_le h]

theorem add_le_of_aligned {n a b : Nat} (ha : a % n = 0) (hb : b % n = 0) (h : a < b) :
    a + n ≤ b := by
  obtain ⟨j, rfl⟩ := Nat.dvd_of_mod_eq_zero ha
  obtain ⟨k, rfl⟩ := Nat.dvd_of_mod_eq_zero hb
  have hjk : j + 1 ≤ k := Nat.lt_of_mul_lt_mul_left h
  exact Nat.mul_le_mul_left n hjk

namespace Layout.Sound

variable {l : Layout} {n : Nat}

theorem eraseSize_pos (h : l.Sound n) : 0 < n := by
  have := h.block_pos
  omega

theorem aligned (h : l.Sound n) (small : n < addressSpace) : l.writableEnd.toNat % n = 0 := by
  have := h.writable_aligned
  rwa [Nat.mod_eq_of_lt (Nat.lt_trans small (by decide))] at this

end Layout.Sound

namespace VectorSlot

def block (slot : VectorSlot) (eraseSize : Nat) : Nat :=
  slot.address.toNat - slot.address.toNat % eraseSize

theorem block_aligned (slot : VectorSlot) (n : Nat) : slot.block n % n = 0 :=
  Nat.sub_mod_eq_zero_of_mod_eq (by rw [Nat.mod_mod])

theorem block_le (slot : VectorSlot) (n : Nat) : slot.block n ≤ slot.address.toNat := Nat.sub_le _ _

theorem block_add (slot : VectorSlot) (n : Nat) :
    slot.block n + slot.address.toNat % n = slot.address.toNat :=
  Nat.sub_add_cancel (Nat.mod_le _ _)

theorem address_in_block {slot : VectorSlot} {n : Nat}
    (whole : slot.address.toNat % n + 2 ≤ n) : slot.address.toNat + 1 < slot.block n + n := by
  have := slot.block_add n
  omega

def holding (slot : VectorSlot) (word : UInt16) (view : Nat → UInt8) : Nat → UInt8 := fun x =>
  if x = slot.address.toNat then lowByte word
  else if x = slot.address.toNat + 1 then highByte word
  else view x

end VectorSlot

namespace Programmer

variable {g : Geometry}

/-- Data that has a place: it starts a block, is no longer than one and ends in the application. -/
structure Placed (p : Programmer g) (start : Nat) (data : Bytes) : Prop where
  aligned : start % g.eraseSize = 0
  nonempty : 0 < data.length
  le_block : data.length ≤ g.eraseSize
  le_application : start + data.length ≤ p.layout.applicationSize.toNat

/-- The byte that a commit of `data` at `start` puts at each address of its block: the vector that
leads to the loader stays, then comes the data, then nothing up to the end of the application, and
what lies past the application stays. -/
def wanted (p : Programmer g) (start : Nat) (data : Bytes) : Nat → UInt8 := fun x =>
  if p.layout.slot.isSome ∧ start = 0 ∧ x < 2 then p.stored x
  else if x < start + data.length then data.getD (x - start) 0xff
  else if x < p.layout.applicationSize.toNat then 0xff
  else p.stored x

/-- All that a commit may come to. -/
inductive Committed (p : Programmer g) (start : Nat) (data : Bytes) :
    Except FlashError BlockOutcome → Programmer g → Prop
  /-- No vector has to move. -/
  | plain (report : Except FlashError BlockOutcome) (p' : Programmer g)
      (fixed : p.layout.slot = none ∨ start ≠ 0)
      (update : Updated p start (p.wanted start data) report p') :
      Committed p start data report p'
  | unsupported (slot : VectorSlot) (slotted : p.layout.slot = some slot) (zero : start = 0)
      (unmovable : slot.toSlot (firstWord data) = none) :
      Committed p start data (.error .unsupportedVector) p
  | vectorFailed (slot : VectorSlot) (word : UInt16) (e : FlashError) (p' : Programmer g)
      (slotted : p.layout.slot = some slot) (zero : start = 0)
      (whole : slot.address.toNat % g.eraseSize + 2 ≤ g.eraseSize)
      (movable : slot.toSlot (firstWord data) = some word)
      (vector : Updated p (slot.block g.eraseSize) (slot.holding word p.stored) (.error e) p') :
      Committed p start data (.error e) p'
  | moved (slot : VectorSlot) (word : UInt16) (outcome : BlockOutcome) (p₁ : Programmer g)
      (report : Except FlashError BlockOutcome) (p' : Programmer g)
      (slotted : p.layout.slot = some slot) (zero : start = 0)
      (whole : slot.address.toNat % g.eraseSize + 2 ≤ g.eraseSize)
      (movable : slot.toSlot (firstWord data) = some word)
      (vector : Updated p (slot.block g.eraseSize) (slot.holding word p.stored) (.ok outcome) p₁)
      (update : Updated p₁ 0 (p₁.wanted 0 data) report p') :
      Committed p start data report p'

theorem block_inside {p : Programmer g} {start x : Nat} (small : g.eraseSize < addressSpace)
    (aligned : start % g.eraseSize = 0) (hx : start ≤ x) (h : x < p.layout.writableEnd.toNat) :
    start + g.eraseSize ≤ p.layout.writableEnd.toNat :=
  add_le_of_aligned aligned (p.sound.aligned small) (Nat.lt_of_le_of_lt hx h)

theorem Placed.inside {p : Programmer g} {start : Nat} {data : Bytes} (h : p.Placed start data)
    (small : g.eraseSize < addressSpace) : start + g.eraseSize ≤ p.layout.writableEnd.toNat := by
  have := h.nonempty
  have := h.le_application
  have := p.sound.application_le
  exact block_inside small h.aligned (Nat.le_refl _) (by omega)

theorem slot_block_inside {p : Programmer g} {slot : VectorSlot}
    (slotted : p.layout.slot = some slot) (small : g.eraseSize < addressSpace) :
    slot.block g.eraseSize + g.eraseSize ≤ p.layout.writableEnd.toNat := by
  have := p.sound.slot_le slot slotted
  exact block_inside small (slot.block_aligned _) (slot.block_le _) (by omega)

theorem storedRange_eq {p : Programmer g} {start n : Nat} (h : start + n ≤ addressSpace) :
    p.storedRange start n = gather p.stored start n := by
  apply List.map_congr_left
  intro i hi
  rw [Nat.mod_eq_of_lt (by have := List.mem_range.1 hi; omega)]

theorem getElem?_keepReserved (p : Programmer g) (start len : Nat) (content : Bytes) (i : Nat) :
    (p.keepReserved start len content)[i]? = content[i]?.map fun b =>
      if len ≤ i ∧ p.layout.applicationSize.toNat ≤ start + i then p.stored (start + i) else b := by
  rw [keepReserved, List.getElem?_mapIdx]

theorem wanted_of_kept {p : Programmer g} {start x : Nat} {data : Bytes}
    (h : p.layout.slot.isSome ∧ start = 0 ∧ x < 2) : p.wanted start data x = p.stored x := if_pos h

theorem wanted_of_not_kept {p : Programmer g} {start x : Nat} {data : Bytes}
    (h : ¬(p.layout.slot.isSome ∧ start = 0 ∧ x < 2)) :
    p.wanted start data x =
      if x < start + data.length then data.getD (x - start) 0xff
      else if x < p.layout.applicationSize.toNat then 0xff
      else p.stored x := if_neg h

theorem keepReserved_eq {p : Programmer g} {start : Nat} {data content : Bytes}
    (length : content.length = g.eraseSize)
    (front : ∀ i < g.eraseSize, p.layout.slot.isSome ∧ start = 0 ∧ i < 2 →
      content[i]? = some (p.stored i))
    (back : ∀ i < g.eraseSize, ¬(p.layout.slot.isSome ∧ start = 0 ∧ i < 2) →
      content[i]? = some (data.getD i 0xff)) :
    p.keepReserved start data.length content = gather (p.wanted start data) start g.eraseSize := by
  apply List.ext_getElem?
  intro i
  rw [getElem?_keepReserved, getElem?_gather]
  by_cases hi : i < g.eraseSize
  · rw [if_pos hi]
    by_cases hv : p.layout.slot.isSome ∧ start = 0 ∧ i < 2
    · -- Both bytes of the vector are the stored ones, whether the application ends here or not.
      obtain ⟨hs, rfl, h2⟩ := hv
      rw [front i hi ⟨hs, rfl, h2⟩, wanted_of_kept ⟨hs, rfl, by omega⟩, Option.map_some,
        Nat.zero_add, ite_self]
    · have hv' : ¬(p.layout.slot.isSome ∧ start = 0 ∧ start + i < 2) :=
        fun ⟨hs, hz, h2⟩ => hv ⟨hs, hz, by omega⟩
      rw [back i hi hv, wanted_of_not_kept hv', Option.map_some, Nat.add_sub_cancel_left]
      by_cases hd : i < data.length
      · rw [if_neg (by omega), if_pos (by omega)]
      · rw [if_neg (by omega : ¬start + i < start + data.length), getD_of_le (by omega)]
        split <;> split <;> first | rfl | omega
  · rw [if_neg hi, List.getElem?_eq_none (by omega)]
    rfl

theorem getElem?_padded {data : Bytes} {n i : Nat} (h : data.length ≤ n) (hi : i < n) :
    (data ++ blank (n - data.length))[i]? = some (data.getD i 0xff) := by
  by_cases hd : i < data.length
  · rw [List.getElem?_append_left hd, List.getD_eq_getElem?_getD, List.getElem?_eq_getElem hd]
    rfl
  · rw [List.getElem?_append_right (by omega), blank, List.getElem?_replicate_of_lt (by omega),
      getD_of_le (by omega)]

theorem padded_length {data : Bytes} {n : Nat} (h : data.length ≤ n) :
    (data ++ blank (n - data.length)).length = n := by
  rw [List.length_append, blank, List.length_replicate]
  omega

theorem commit_plain {p : Programmer g} {start : Nat} {data : Bytes} (h : p.Placed start data)
    (fixed : p.layout.slot = none ∨ start ≠ 0) :
    p.commit start data =
      p.updateBlock start (gather (p.wanted start data) start g.eraseSize) := by
  have hk : p.keepReserved start data.length (data ++ blank (g.eraseSize - data.length)) =
      gather (p.wanted start data) start g.eraseSize := by
    apply keepReserved_eq (padded_length h.le_block)
    · rintro i - ⟨hs, hz, -⟩
      obtain hn | hn := fixed
      · rw [hn] at hs
        cases hs
      · exact absurd hz hn
    · exact fun i hi _ => getElem?_padded h.le_block hi
  rw [← hk]
  unfold commit
  split
  · rename_i slot hs
    obtain hn | hn := fixed
    · cases hn.symm.trans hs
    · rw [if_neg hn]
      rfl
  · rfl

theorem patch_gather {view : Nat → UInt8} {slot : VectorSlot} {start n within : Nat}
    (word : UInt16) (place : start + within = slot.address.toNat) (h : within + 2 ≤ n) :
    patch (gather view start n) within (wordBytes word) =
      .ok (gather (slot.holding word view) start n) := by
  rw [patch_eq_ok (by rw [gather_length]; exact h)]
  congr 1
  apply List.ext_getElem?
  intro i
  have hl : (wordBytes word).length = 2 := rfl
  rw [List.append_assoc, List.getElem?_append, List.length_take, gather_length,
    Nat.min_eq_left (by omega), List.getElem?_append, List.getElem?_drop, List.getElem?_take, hl,
    getElem?_gather, getElem?_gather, getElem?_gather]
  unfold VectorSlot.holding
  by_cases h₁ : i < within
  · rw [if_pos h₁, if_pos h₁, if_pos (by omega), if_pos (by omega), if_neg (by omega),
      if_neg (by omega)]
  · rw [if_neg h₁]
    by_cases h₂ : i < within + 2
    · -- The two bytes of the word.
      rw [if_pos (by omega), if_pos (by omega)]
      obtain rfl | rfl : i = within ∨ i = within + 1 := by omega
      · rw [Nat.sub_self, if_pos place]
        rfl
      · rw [Nat.add_sub_cancel_left, if_neg (by omega), if_pos (by omega)]
        rfl
    · rw [if_neg (by omega), show within + 2 + (i - within - 2) = i by omega]
      split
      · rw [if_neg (by omega), if_neg (by omega)]
      · rfl

theorem storeVector_eq {p : Programmer g} {slot : VectorSlot} (word : UInt16)
    (slotted : p.layout.slot = some slot) (small : g.eraseSize < addressSpace) :
    p.storeVector slot word =
      if slot.address.toNat % g.eraseSize + 2 ≤ g.eraseSize then
        p.updateBlock (slot.block g.eraseSize)
          (gather (slot.holding word p.stored) (slot.block g.eraseSize) g.eraseSize)
      else .error .outOfBounds := by
  have hin := Nat.le_trans (slot_block_inside slotted small) p.sound.writable_le
  have hr : p.storedRange (slot.address.toNat - slot.address.toNat % g.eraseSize) g.eraseSize =
      gather p.stored (slot.block g.eraseSize) g.eraseSize := storedRange_eq hin
  have content : p.storeVector slot word = (do
      let content ← patch (gather p.stored (slot.block g.eraseSize) g.eraseSize)
        (slot.address.toNat % g.eraseSize) (wordBytes word)
      p.updateBlock (slot.block g.eraseSize) content) := by
    rw [← hr, storeVector, Nat.mod_eq_of_lt small, remainder_eq_ok p.sound.eraseSize_pos]
    rfl
  rw [content]
  by_cases hf : slot.address.toNat % g.eraseSize + 2 ≤ g.eraseSize
  · rw [if_pos hf, patch_gather word (slot.block_add _) hf]
    rfl
  · rw [if_neg hf, patch, if_neg (by rw [gather_length]; exact hf)]
    rfl

theorem padded_eq_cons {data : Bytes} {n : Nat} (h : data.length ≤ n) (two : 2 ≤ n) :
    ∃ rest, data ++ blank (n - data.length) = data.getD 0 0xff :: data.getD 1 0xff :: rest := by
  have hl := padded_length h
  have h₀ := getElem?_padded (i := 0) h (by omega)
  have h₁ := getElem?_padded (i := 1) h (by omega)
  cases hb : data ++ blank (n - data.length) with
  | nil =>
    rw [hb] at h₀
    cases h₀
  | cons low tail =>
    rw [hb] at h₀ h₁
    cases tail with
    | nil => cases h₁
    | cons high rest =>
      rw [← Option.some.inj h₀, ← Option.some.inj h₁]
      exact ⟨rest, rfl⟩

section BlockZero

variable {p : Programmer g} {slot : VectorSlot} {data : Bytes}

theorem commit_zero (slotted : p.layout.slot = some slot) :
    p.commit 0 data = (do
      let (moved, p) ← p.moveVector slot (data ++ blank (g.eraseSize - data.length))
      match moved with
      | .error e => return (.error e, p)
      | .ok block => p.updateBlock 0 (p.keepReserved 0 data.length block)) := by
  unfold commit
  split
  · rename_i slot' hs
    cases hs.symm.trans slotted
    exact if_pos rfl
  · rename_i hs
    cases hs.symm.trans slotted

theorem commit_unmovable (h : p.Placed 0 data) (slotted : p.layout.slot = some slot)
    (two : 2 ≤ g.eraseSize) (unmovable : slot.toSlot (firstWord data) = none) :
    p.commit 0 data = .ok (.error .unsupportedVector, p) := by
  obtain ⟨rest, hc⟩ := padded_eq_cons h.le_block two
  rw [commit_zero slotted, hc, moveVector]
  unfold firstWord at unmovable
  rw [unmovable]
  rfl

/-- A slot that no block holds in full stops the commit before it touches flash. -/
theorem commit_torn (h : p.Placed 0 data) (slotted : p.layout.slot = some slot)
    (small : g.eraseSize < addressSpace)
    (torn : ¬slot.address.toNat % g.eraseSize + 2 ≤ g.eraseSize)
    (movable : 2 ≤ g.eraseSize → slot.toSlot (firstWord data) ≠ none) :
    p.commit 0 data = .error .outOfBounds := by
  -- A block of one byte ends before its first word; a longer one ends before the slot's does.
  by_cases two : 2 ≤ g.eraseSize
  · obtain ⟨word, hw⟩ := Option.ne_none_iff_exists'.1 (movable two)
    obtain ⟨rest, hc⟩ := padded_eq_cons h.le_block two
    rw [commit_zero slotted, hc, moveVector]
    unfold firstWord at hw
    rw [hw]
    simp only [storeVector_eq word slotted small, if_neg torn]
    rfl
  · have hl := padded_length h.le_block
    have hp := p.sound.eraseSize_pos
    obtain ⟨b, hb⟩ := List.length_eq_one_iff.1 (hl.trans (by omega))
    rw [commit_zero slotted, hb]
    rfl

/-- A commit of block zero whose vector can move is two updates, and what the second puts there is
read after the first. -/
theorem commit_moving (h : p.Placed 0 data) (slotted : p.layout.slot = some slot)
    (small : g.eraseSize < addressSpace)
    (whole : slot.address.toNat % g.eraseSize + 2 ≤ g.eraseSize) {word : UInt16}
    (movable : slot.toSlot (firstWord data) = some word) :
    p.commit 0 data = (do
      let (vector, p₁) ← p.updateBlock (slot.block g.eraseSize)
        (gather (slot.holding word p.stored) (slot.block g.eraseSize) g.eraseSize)
      match vector with
      | .error e => return (.error e, p₁)
      | .ok _ =>
        p₁.updateBlock 0 (p₁.keepReserved 0 data.length (p₁.stored 0 :: p₁.stored 1 ::
          (data ++ blank (g.eraseSize - data.length)).drop 2))) := by
  obtain ⟨rest, hc⟩ := padded_eq_cons h.le_block (by omega)
  rw [commit_zero slotted, hc, moveVector]
  unfold firstWord at movable
  rw [movable]
  simp only [storeVector_eq word slotted small, if_pos whole]
  cases p.updateBlock (slot.block g.eraseSize)
    (gather (slot.holding word p.stored) (slot.block g.eraseSize) g.eraseSize) with
  | error crash => rfl
  | ok answer =>
    obtain ⟨vector, p₁⟩ := answer
    cases vector with
    | error e => rfl
    | ok outcome => rfl

theorem keepReserved_moved (h : p.Placed 0 data) (two : 2 ≤ g.eraseSize) (p₁ : Programmer g)
    (slotted : p₁.layout.slot.isSome) :
    p₁.keepReserved 0 data.length (p₁.stored 0 :: p₁.stored 1 ::
        (data ++ blank (g.eraseSize - data.length)).drop 2) =
      gather (p₁.wanted 0 data) 0 g.eraseSize := by
  have hl := padded_length h.le_block
  have hlen : (p₁.stored 0 :: p₁.stored 1 ::
      (data ++ blank (g.eraseSize - data.length)).drop 2).length = g.eraseSize := by
    rw [List.length_cons, List.length_cons, List.length_drop, hl]
    omega
  apply keepReserved_eq hlen
  · rintro i - ⟨-, -, h2⟩
    obtain rfl | rfl : i = 0 ∨ i = 1 := by omega
    · rfl
    · rfl
  · intro i hi hv
    have h2 : ¬i < 2 := fun h2 => hv ⟨slotted, rfl, h2⟩
    obtain ⟨j, rfl⟩ : ∃ j, i = j + 2 := ⟨i - 2, by omega⟩
    rw [List.getElem?_cons_succ, List.getElem?_cons_succ, List.getElem?_drop, Nat.add_comm 2 j]
    exact getElem?_padded h.le_block hi

theorem commit_movable (h : p.Placed 0 data) (slotted : p.layout.slot = some slot)
    (small : g.eraseSize < addressSpace)
    (whole : slot.address.toNat % g.eraseSize + 2 ≤ g.eraseSize) {word : UInt16}
    (movable : slot.toSlot (firstWord data) = some word) :
    ∃ report p', p.commit 0 data = .ok (report, p') ∧ Committed p 0 data report p' := by
  obtain ⟨rest, hc⟩ := padded_eq_cons h.le_block (by omega)
  obtain ⟨report, p₁, he, hu⟩ := p.updateBlock_spec (slot.holding word p.stored)
    (slot.block_aligned g.eraseSize) (slot_block_inside slotted small)
  rw [commit_moving h slotted small whole movable, he, hc]
  cases report with
  | error e => exact ⟨.error e, p₁, rfl, .vectorFailed slot word e p₁ slotted rfl whole movable hu⟩
  | ok outcome =>
    have hl : p₁.layout = p.layout := hu.layout_eq
    -- The vector that stays is read after the slot was written.
    have hk := keepReserved_moved h (by omega) p₁ (by rw [hl, slotted]; rfl)
    rw [hc] at hk
    obtain ⟨report', p', he', hu'⟩ := p₁.updateBlock_spec (p₁.wanted 0 data)
      (Nat.zero_mod _) (by rw [hl]; exact h.inside small)
    refine ⟨report', p', ?_,
      .moved slot word outcome p₁ report' p' slotted rfl whole movable hu hu'⟩
    rw [← he', ← hk]
    rfl

end BlockZero

/-- A commit whose slot lies in one block has an answer. -/
theorem commit_spec {p : Programmer g} {start : Nat} {data : Bytes} (h : p.Placed start data)
    (small : g.eraseSize < addressSpace) (fits : p.layout.SlotFits g.eraseSize) :
    ∃ report p', p.commit start data = .ok (report, p') ∧ Committed p start data report p' := by
  by_cases fixed : p.layout.slot = none ∨ start ≠ 0
  · obtain ⟨report, p', he, hu⟩ := p.updateBlock_spec (p.wanted start data) h.aligned
      (h.inside small)
    exact ⟨report, p', (commit_plain h fixed).trans he, .plain report p' fixed hu⟩
  · obtain ⟨hs, rfl⟩ : p.layout.slot ≠ none ∧ start = 0 := by simpa using fixed
    obtain ⟨slot, slotted⟩ := Option.ne_none_iff_exists'.1 hs
    have whole := fits slot slotted
    cases hm : slot.toSlot (firstWord data) with
    | none =>
      exact ⟨_, _, commit_unmovable h slotted (by omega) hm, .unsupported slot slotted rfl hm⟩
    | some word => exact commit_movable h slotted small whole hm

/-- Any answer of a commit is one of those listed. -/
theorem committed_of_commit {p p' : Programmer g} {start : Nat} {data : Bytes}
    {report : Except FlashError BlockOutcome} (h : p.Placed start data)
    (small : g.eraseSize < addressSpace) (hc : p.commit start data = .ok (report, p')) :
    Committed p start data report p' := by
  by_cases fits : p.layout.SlotFits g.eraseSize
  · obtain ⟨_, _, he, hd⟩ := commit_spec h small fits
    cases he.symm.trans hc
    exact hd
  · unfold Layout.SlotFits at fits
    obtain ⟨slot, slotted, torn⟩ : ∃ slot, p.layout.slot = some slot ∧
        ¬slot.address.toNat % g.eraseSize + 2 ≤ g.eraseSize := by simpa using fits
    by_cases zero : start = 0
    · -- Only a vector that cannot move is noticed before the slot is.
      subst zero
      by_cases un : 2 ≤ g.eraseSize ∧ slot.toSlot (firstWord data) = none
      · cases (commit_unmovable h slotted un.1 un.2).symm.trans hc
        exact .unsupported slot slotted rfl un.2
      · cases (commit_torn h slotted small torn fun two hn => un ⟨two, hn⟩).symm.trans hc
    · obtain ⟨_, _, he, hu⟩ := p.updateBlock_spec (p.wanted start data) h.aligned
        (h.inside small)
      cases ((commit_plain h (.inr zero)).trans he).symm.trans hc
      exact .plain _ _ (.inr zero) hu

theorem two_le_slot {p : Programmer g} {slot : VectorSlot} (slotted : p.layout.slot = some slot)
    (some_application : 0 < p.layout.applicationSize.toNat) : 2 ≤ slot.address.toNat := by
  have := p.sound.slot_even slot slotted
  have := p.sound.application_le_slot slot slotted
  omega

end Programmer

/-- A view in which the first word of some data has moved to its slot, if it has one and can. -/
def Layout.relocated (l : Layout) (data : Bytes) (view : Nat → UInt8) : Nat → UInt8 :=
  match l.slot with
  | none => view
  | some slot =>
    match slot.toSlot (firstWord data) with
    | none => view
    | some word => slot.holding word view

/-- The address holds a byte of the vector that leads to the loader. -/
def Layout.Guarded (l : Layout) (x : Nat) : Prop := l.slot.isSome ∧ x < 2

instance (l : Layout) (x : Nat) : Decidable (l.Guarded x) := inferInstanceAs (Decidable (_ ∧ _))

/-- A view after a commit of `data` to the block at `start`. -/
def Layout.committed (l : Layout) (eraseSize : Nat) (view : Nat → UInt8) (start : Nat)
    (data : Bytes) : Nat → UInt8 := fun x =>
  if l.Guarded x ∧ start = 0 then view x
  else if start ≤ x ∧ x < start + data.length then data.getD (x - start) 0xff
  else if start ≤ x ∧ x < min (start + eraseSize) l.applicationSize.toNat then 0xff
  else if start = 0 then l.relocated data view x
  else view x

namespace Programmer

namespace Committed

variable {p p' : Programmer g} {start : Nat} {data : Bytes}
  {report : Except FlashError BlockOutcome} {outcome : BlockOutcome}

theorem layout_eq (h : Committed p start data report p') : p'.layout = p.layout := by
  cases h with
  | plain _ _ fixed update => exact update.layout_eq
  | unsupported slot slotted zero unmovable => rfl
  | vectorFailed slot word e _ slotted zero whole movable vector => exact vector.layout_eq
  | moved slot word o p₁ _ _ slotted zero whole movable vector update =>
    exact update.layout_eq.trans vector.layout_eq

theorem stored_holding {slot : VectorSlot} {word : UInt16}
    (whole : slot.address.toNat % g.eraseSize + 2 ≤ g.eraseSize)
    (vector : Updated p (slot.block g.eraseSize) (slot.holding word p.stored) (.ok outcome) p') :
    p'.stored = slot.holding word p.stored := by
  funext x
  have := slot.block_le g.eraseSize
  have := slot.address_in_block whole
  rw [vector.stored_of_ok]
  split
  · rfl
  · rw [VectorSlot.holding, if_neg (by omega), if_neg (by omega)]

theorem stored_of_ok (h : Committed p start data (.ok outcome) p') (placed : p.Placed start data) :
    p'.stored = p.layout.committed g.eraseSize p.stored start data := by
  funext x
  have hlen := placed.le_block
  have happ := placed.le_application
  have hpos := placed.nonempty
  unfold Layout.committed Layout.Guarded
  cases h with
  | plain _ _ fixed update =>
    have hg : ¬((p.layout.slot.isSome ∧ x < 2) ∧ start = 0) := by
      rintro ⟨⟨hs, -⟩, hz⟩
      obtain hn | hn := fixed
      · rw [hn] at hs
        cases hs
      · exact hn hz
    have hr : (if start = 0 then p.layout.relocated data p.stored x else p.stored x) =
        p.stored x := by
      obtain hn | hn := fixed
      · rw [Layout.relocated, hn]
        exact ite_self _
      · rw [if_neg hn]
    rw [update.stored_of_ok, if_neg hg, hr,
      wanted_of_not_kept fun ⟨hs, hz, h2⟩ => hg ⟨⟨hs, h2⟩, hz⟩]
    repeat' split
    all_goals first | rfl | omega
  | moved slot word o p₁ _ _ slotted zero whole movable vector update =>
    subst zero
    have hl := vector.layout_eq
    have hv := stored_holding whole vector
    have h2 := two_le_slot slotted (by omega)
    have hr : p.layout.relocated data p.stored = slot.holding word p.stored := by
      rw [Layout.relocated, slotted]
      simp only [movable]
    rw [update.stored_of_ok, hr, if_pos rfl]
    by_cases hg : p.layout.slot.isSome ∧ x < 2
    · -- The slot lies behind the vector that stays.
      have hx : slot.holding word p.stored x = p.stored x := by
        rw [VectorSlot.holding, if_neg (by omega), if_neg (by omega)]
      have hk : (p.layout.slot.isSome ∧ x < 2) ∧ (0 : Nat) = 0 := ⟨hg, rfl⟩
      rw [if_pos hk, wanted_of_kept (by rw [hl]; exact ⟨hg.1, rfl, hg.2⟩), hv, hx, ite_self]
    · have hk : ¬((p.layout.slot.isSome ∧ x < 2) ∧ (0 : Nat) = 0) := fun h => hg h.1
      rw [if_neg hk, wanted_of_not_kept (by rw [hl]; exact fun ⟨hs, _, h2⟩ => hg ⟨hs, h2⟩), hl, hv]
      repeat' split
      all_goals first | rfl | omega

theorem movable_of_ok (h : Committed p start data (.ok outcome) p') {slot : VectorSlot}
    (slotted : p.layout.slot = some slot) (zero : start = 0) :
    slot.address.toNat % g.eraseSize + 2 ≤ g.eraseSize ∧
      ∃ word, slot.toSlot (firstWord data) = some word := by
  cases h with
  | plain _ _ fixed update =>
    obtain hn | hn := fixed
    · cases hn.symm.trans slotted
    · exact absurd zero hn
  | moved slot' word o p₁ _ _ slotted' _ whole movable vector update =>
    cases slotted'.symm.trans slotted
    exact ⟨whole, word, movable⟩

theorem stored_before (h : Committed p start data report p') {x : Nat} (hx : x < start) :
    p'.stored x = p.stored x := by
  cases h with
  | plain _ _ fixed update => exact update.stored_outside (.inl hx)
  | unsupported slot slotted zero unmovable => rfl
  | vectorFailed slot word e _ slotted zero => omega
  | moved slot word o p₁ _ _ slotted zero => omega

theorem ok_of_quiet (h : Committed p start data report p') (placed : p.Placed start data)
    (small : g.eraseSize < addressSpace) (size : p.layout.writableEnd.toNat ≤ g.size)
    (quiet : p.chip.Quiet)
    (movable : ∀ slot, p.layout.slot = some slot → start = 0 →
      slot.toSlot (firstWord data) ≠ none) :
    (∃ outcome, report = .ok outcome) ∧ p'.chip.Quiet := by
  have hin := placed.inside small
  cases h with
  | plain _ _ fixed update => exact update.ok_of_quiet quiet (by omega)
  | unsupported slot slotted zero unmovable => exact absurd unmovable (movable slot slotted zero)
  | vectorFailed slot word e _ slotted zero whole _ vector =>
    have hs := slot_block_inside slotted small
    obtain ⟨⟨_, he⟩, -⟩ := vector.ok_of_quiet quiet (by omega)
    cases he
  | moved slot word o p₁ _ _ slotted zero whole _ vector update =>
    have hs := slot_block_inside slotted small
    exact update.ok_of_quiet (vector.ok_of_quiet quiet (by omega)).2 (by omega)

end Committed

end Programmer

end FieldUpdate
