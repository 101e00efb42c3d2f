import FieldUpdate.Proofs.Splitting

namespace FieldUpdate

namespace Programmer

variable {g : Geometry} {p p' p₁ : Programmer g} {start : Nat} {target : Nat → UInt8}
  {outcome : BlockOutcome} {slot : VectorSlot} {word : UInt16} {data : Bytes}

theorem holds_inside {content : Bytes} (same : p.holds start content = .ok true)
    (nonempty : content ≠ []) : start + content.length ≤ addressSpace := by
  induction content generalizing start with
  | nil => exact absurd rfl nonempty
  | cons b rest ih =>
    rw [holds] at same
    split at same
    · cases same
    · split at same
      · rename_i inside _
        rw [List.length_cons]
        by_cases last : rest = []
        · rw [last, List.length_nil]
          omega
        · have := ih same last
          omega
      · cases same

theorem erase_inside (h : p.erase start = (.ok (), p')) :
    start % g.eraseSize = 0 ∧ start + g.eraseSize ≤ p.layout.writableEnd.toNat := by
  unfold erase at h
  split at h
  · cases h
  · rename_i aligned
    split at h
    · cases h
    · rename_i inside
      refine ⟨Classical.not_not.1 aligned, ?_⟩
      simpa [writable] using inside

theorem refill_inside {content : Bytes} (h : p.refillBlock start content = (.ok (), p')) :
    start % g.eraseSize = 0 ∧ start + g.eraseSize ≤ p.layout.writableEnd.toNat := by
  unfold refillBlock at h
  split at h
  · cases h
  · rename_i erased
    exact erase_inside erased

theorem inside_of_update {content : Bytes}
    (h : p.updateBlock start content = .ok (.ok outcome, p')) :
    start + g.eraseSize ≤ addressSpace := by
  unfold updateBlock at h
  split at h
  · cases h
  · rename_i length
    have length := Classical.not_not.1 length
    obtain ⟨same, holds, h⟩ := bind_eq_ok.1 h
    cases same with
    | true =>
      rw [← length]
      refine holds_inside holds fun empty => ?_
      have pos := p.sound.eraseSize_pos
      rw [← length, empty] at pos
      cases pos
    | false =>
      cases refilled : p.refillBlock start content with
      | mk report p₁ =>
        cases report with
        | ok done => exact Nat.le_trans (refill_inside refilled).2 p.sound.writable_le
        | error e =>
          simp only [refilled] at h
          cases h

theorem updated_of_ok
    (h : p.updateBlock start (gather target start g.eraseSize) = .ok (.ok outcome, p')) :
    Updated p start target (.ok outcome) p' := by
  obtain ⟨same, holds, hi⟩ := p.holds_spec start g.eraseSize target (inside_of_update h)
  rw [updateBlock, if_neg (by rw [gather_length]; simp), holds] at h
  cases same with
  | true =>
    cases h
    exact .held (hi.1 rfl)
  | false =>
    cases refilled : p.refillBlock start (gather target start g.eraseSize) with
    | mk report p₁ =>
      simp only [refilled] at h
      cases report with
      | error e => cases h
      | ok done =>
        cases h
        obtain ⟨aligned, inside⟩ := refill_inside refilled
        have updated : Updated p start target _ _ := refillBlock_spec aligned inside
        rwa [refilled] at updated

theorem storeVector_of_ok (slotted : p.layout.slot = some slot)
    (h : p.storeVector slot word = .ok (.ok outcome, p')) :
    g.eraseSize < addressSpace ∧ slot.address.toNat % g.eraseSize + 2 ≤ g.eraseSize ∧
      Updated p (slot.block g.eraseSize) (slot.holding word p.stored) (.ok outcome) p' := by
  have small : g.eraseSize < addressSpace := by
    obtain ⟨within, cut, h⟩ := bind_eq_ok.1 h
    obtain ⟨content, -, update⟩ := bind_eq_ok.1 h
    have inside := inside_of_update update
    unfold remainder at cut
    split at cut
    · cases cut
    · -- A block of all addresses would leave no divisor.
      rename_i divisor
      refine Nat.lt_of_le_of_ne (Nat.le_of_add_left_le inside) fun whole => divisor ?_
      rw [whole, Nat.mod_self]
  rw [storeVector_eq word slotted small] at h
  split at h
  · rename_i whole
    exact ⟨small, whole, updated_of_ok h⟩
  · cases h

theorem HoldsVector.holding_eq (holds : p.HoldsVector slot word) :
    slot.holding word p.stored = p.stored := by
  funext x
  unfold VectorSlot.holding
  split
  · rename_i low
    rw [low, holds.low]
  · split
    · rename_i high
      rw [high, holds.high]
    · rfl

theorem storeVector_of_held (slotted : p.layout.slot = some slot)
    (small : g.eraseSize < addressSpace)
    (whole : slot.address.toNat % g.eraseSize + 2 ≤ g.eraseSize) (holds : p.HoldsVector slot word) :
    p.storeVector slot word = .ok (.ok .unchanged, p) := by
  rw [storeVector_eq word slotted small, if_pos whole, holds.holding_eq]
  exact updateBlock_of_held
    (Nat.le_trans (slot_block_inside slotted small) p.sound.writable_le) fun _ _ _ => rfl

theorem moveVector_of_ok {block : Bytes} (placed : p.Placed 0 data)
    (h : p.moveVector slot (data ++ blank (g.eraseSize - data.length)) = .ok (.ok block, p₁)) :
    ∃ word outcome, slot.toSlot (firstWord data) = some word ∧
      p.storeVector slot word = .ok (.ok outcome, p₁) ∧
      block = p₁.stored 0 :: p₁.stored 1 ::
        (data ++ blank (g.eraseSize - data.length)).drop 2 := by
  -- A block of one byte has no vector to move, so there would be no answer.
  have two : 2 ≤ g.eraseSize := by
    have length := padded_length placed.le_block
    have pos := p.sound.eraseSize_pos
    generalize data ++ blank (g.eraseSize - data.length) = padded at h length
    match padded with
    | [] => cases h
    | [_] => cases h
    | _ :: _ :: _ =>
      simp only [List.length_cons] at length
      omega
  obtain ⟨rest, hc⟩ := padded_eq_cons placed.le_block two
  rw [hc, moveVector] at h
  cases movable : slot.toSlot (firstWord data) with
  | none =>
    unfold firstWord at movable
    rw [movable] at h
    cases h
  | some word =>
    have moved := movable
    unfold firstWord at movable
    rw [movable] at h
    obtain ⟨⟨_ | outcome, p₂⟩, stored, h⟩ := bind_eq_ok.1 h
    · cases h
    · cases h
      refine ⟨word, outcome, rfl, stored, ?_⟩
      rw [hc]
      rfl

theorem committed_of_ok (placed : p.Placed start data)
    (h : p.commit start data = .ok (.ok outcome, p')) :
    Committed p start data (.ok outcome) p' ∧ start + g.eraseSize ≤ addressSpace ∧
      ∀ slot, p.layout.slot = some slot → start = 0 → g.eraseSize < addressSpace := by
  by_cases fixed : p.layout.slot = none ∨ start ≠ 0
  · rw [commit_plain placed fixed] at h
    refine ⟨.plain _ _ fixed (updated_of_ok h), inside_of_update h, fun slot slotted zero => ?_⟩
    rcases fixed with none | later
    · cases none.symm.trans slotted
    · exact absurd zero later
  · obtain ⟨hs, rfl⟩ : p.layout.slot ≠ none ∧ start = 0 := by simpa using fixed
    obtain ⟨slot, slotted⟩ := Option.ne_none_iff_exists'.1 hs
    rw [commit_zero slotted] at h
    obtain ⟨⟨_ | block, p₁⟩, moved, update⟩ := bind_eq_ok.1 h
    · cases update
    · obtain ⟨word, vector, movable, stored, rfl⟩ := moveVector_of_ok placed moved
      obtain ⟨small, whole, holding⟩ := storeVector_of_ok slotted stored
      simp only at update
      rw [keepReserved_moved placed (by omega) p₁ (by rw [holding.layout_eq, slotted]; rfl)] at update
      exact ⟨.moved slot word vector p₁ _ _ slotted rfl whole movable holding (updated_of_ok update),
        inside_of_update update, fun _ _ _ => small⟩

/-- Flash is as a commit of `data` to the block at `start` leaves it. -/
structure Settled (p : Programmer g) (start : Nat) (data : Bytes) : Prop where
  inside : start + g.eraseSize ≤ addressSpace
  block : ∀ x, start ≤ x → x < start + g.eraseSize → p.stored x = p.wanted start data x
  vector : ∀ slot, p.layout.slot = some slot → start = 0 →
    g.eraseSize < addressSpace ∧ slot.address.toNat % g.eraseSize + 2 ≤ g.eraseSize ∧
      ∃ word, slot.toSlot (firstWord data) = some word ∧ p.HoldsVector slot word

theorem wanted_of_stored {x : Nat} (layout : p'.layout = p.layout)
    (same : p'.stored x = p.wanted start data x) : p'.stored x = p'.wanted start data x := by
  rw [same, wanted, wanted, layout]
  by_cases kept : p.layout.slot.isSome ∧ start = 0 ∧ x < 2
  · rw [if_pos kept, if_pos kept, same, wanted_of_kept kept]
  · rw [if_neg kept, if_neg kept]
    by_cases own : x < start + data.length
    · rw [if_pos own, if_pos own]
    · by_cases erased : x < p.layout.applicationSize.toNat
      · rw [if_neg own, if_neg own, if_pos erased, if_pos erased]
      · rw [if_neg own, if_neg own, if_neg erased, if_neg erased, same, wanted_of_not_kept kept,
          if_neg own, if_neg erased]

/-- A commit that succeeded leaves its block settled. -/
theorem settled_of_commit (placed : p.Placed start data)
    (h : p.commit start data = .ok (.ok outcome, p')) : p'.Settled start data := by
  obtain ⟨committed, inside, small⟩ := committed_of_ok placed h
  have layout := committed.layout_eq
  have stored := committed.stored_of_ok placed
  refine ⟨inside, fun x h₁ h₂ => ?_, fun slot slotted zero => ?_⟩
  · rw [wanted, layout]
    by_cases kept : p.layout.slot.isSome ∧ start = 0 ∧ x < 2
    · rw [if_pos kept]
    · have guarded : ¬(p.layout.Guarded x ∧ start = 0) := fun h => kept ⟨h.1.1, h.2, h.1.2⟩
      rw [if_neg kept, stored, Layout.committed, if_neg guarded]
      by_cases own : x < start + data.length
      · rw [if_pos ⟨h₁, own⟩, if_pos own]
      · rw [if_neg fun h => own h.2, if_neg own]
        by_cases erased : x < p.layout.applicationSize.toNat
        · rw [if_pos ⟨h₁, by omega⟩, if_pos erased]
        · rw [if_neg erased]
  · rw [layout] at slotted
    obtain ⟨whole, vector⟩ := committed.vector_of_ok placed slotted zero
    exact ⟨small slot slotted zero, whole, vector⟩

/-- To commit a settled block once more does nothing. -/
theorem Settled.commit_eq (h : p.Settled start data) (placed : p.Placed start data) :
    p.commit start data = .ok (.ok .unchanged, p) := by
  have again := updateBlock_of_held h.inside h.block
  by_cases fixed : p.layout.slot = none ∨ start ≠ 0
  · rw [commit_plain placed fixed, again]
  · obtain ⟨hs, rfl⟩ : p.layout.slot ≠ none ∧ start = 0 := by simpa using fixed
    obtain ⟨slot, slotted⟩ := Option.ne_none_iff_exists'.1 hs
    obtain ⟨small, whole, word, movable, holds⟩ := h.vector slot slotted rfl
    obtain ⟨rest, hc⟩ := padded_eq_cons placed.le_block (by omega)
    have kept := keepReserved_moved placed (by omega) p (by rw [slotted]; rfl)
    rw [hc] at kept
    unfold firstWord at movable
    rw [commit_zero slotted, hc, moveVector, movable]
    simp only [storeVector_of_held slotted small whole holds]
    rw [← kept] at again
    exact again

theorem Settled.later {start' : Nat} {data' : Bytes} (h : p.Settled start data)
    (aligned : start % g.eraseSize = 0) (before : start < start') (placed : p.Placed start' data')
    (commit : p.commit start' data' = .ok (.ok outcome, p')) : p'.Settled start data := by
  have behind := add_le_of_aligned aligned placed.aligned before
  obtain ⟨committed, -, -⟩ := committed_of_ok placed commit
  refine ⟨h.inside, fun x h₁ h₂ => ?_, fun slot slotted zero => ?_⟩
  · apply wanted_of_stored committed.layout_eq
    rw [committed.stored_before (by omega), h.block x h₁ h₂]
  · rw [committed.layout_eq] at slotted
    obtain ⟨small, whole, word, movable, holds⟩ := h.vector slot slotted zero
    exact ⟨small, whole, word, movable,
      committed.holdsVector_of_ok placed (by omega) slotted holds⟩

theorem Settled.takeErases (h : p.Settled start data) : p.takeErases.2.Settled start data := by
  refine ⟨h.inside, h.block, fun slot slotted zero => ?_⟩
  obtain ⟨small, whole, word, movable, holds⟩ := h.vector slot slotted zero
  exact ⟨small, whole, word, movable, holds.low, holds.high⟩

end Programmer

end FieldUpdate
