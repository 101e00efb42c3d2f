import FieldUpdate.Proofs.Lockstep

namespace FieldUpdate

namespace Programmer

variable {g : Geometry} {p q : Programmer g} {start : Nat} {data : Bytes}

/-- The two differ at most in the first two bytes of flash and in the record of what happened at the
part, which has as many erases. -/
structure SameBehind (p q : Programmer g) : Prop where
  same : q = { p with chip := { p.chip with memory := q.chip.memory, events := q.chip.events } }
  stored : ∀ x, 2 ≤ x → q.stored x = p.stored x
  erases : q.chip.erases = p.chip.erases

/-- The image has its vector behind the first two bytes, and the part goes along with everything. -/
structure Hides (p q : Programmer g) : Prop where
  same : p.SameBehind q
  slotted : ∃ slot, p.layout.slot = some slot ∧ 2 ≤ slot.address.toNat
  quiet : p.chip.Quiet
  size : p.layout.writableEnd.toNat ≤ g.size

theorem SameBehind.layout (h : p.SameBehind q) : q.layout = p.layout := by rw [h.same]

theorem SameBehind.completedErases (h : p.SameBehind q) :
    q.completedErases = p.completedErases := by rw [h.same]

theorem SameBehind.quiet (h : p.SameBehind q) (quiet : p.chip.Quiet) : q.chip.Quiet := by
  rw [h.same]
  exact quiet

theorem SameBehind.imageByte (h : p.SameBehind q) {slot : VectorSlot}
    (slotted : p.layout.slot = some slot) (behind : 2 ≤ slot.address.toNat) :
    q.imageByte = p.imageByte := by
  funext x
  have hv : q.imageVector slot = p.imageVector slot := by
    simp only [imageVector, h.stored _ behind, h.stored (slot.address.toNat + 1) (by omega)]
  simp only [Programmer.imageByte, h.layout, slotted, hv]
  by_cases hx : x < 2
  · rw [if_pos hx, if_pos hx]
  · rw [if_neg hx, if_neg hx, h.stored x (by omega)]

theorem stored_refilled (target : Nat → UInt8) (size : start + g.eraseSize ≤ g.size) (x : Nat) :
    (p.chip.after (refill g target start (g.eraseSize / g.writeSize))).read x =
      if start ≤ x ∧ x < start + g.eraseSize then target x else p.stored x := by
  have hN := Nat.div_mul_cancel g.writeSize_dvd
  change (Operation.applyAll p.chip.memory _).read x = _
  rw [read_applyAll_refill size (Nat.le_of_eq hN), hN, refilled]
  split
  · rfl
  · rfl

theorem Hides.refilled (h : p.Hides q) {target target' : Nat → UInt8} (erases : Nat)
    (size : start + g.eraseSize ≤ g.size) (behind : ∀ x, 2 ≤ x → target' x = target x) :
    Hides
      { p with
        chip := p.chip.after (refill g target start (g.eraseSize / g.writeSize))
        completedErases := erases }
      { q with
        chip := q.chip.after (refill g target' start (g.eraseSize / g.writeSize))
        completedErases := erases } := by
  refine ⟨⟨?_, ?_, ?_⟩, h.slotted, h.quiet, h.size⟩
  · rw [h.same.same]
    rfl
  · intro x hx
    have hp := p.stored_refilled target size x
    have hq := q.stored_refilled target' size x
    rw [behind x hx, h.same.stored x hx, ← hp] at hq
    exact hq
  · simp only [Chip.erases_after, countP_refill, h.same.erases]

/-- Targets that differ in the first two bytes alone, where each is in flash if the other is, are
brought about alike. -/
theorem Hides.updateBlock (h : p.Hides q) {target target' : Nat → UInt8}
    (aligned : start % g.eraseSize = 0) (inside : start + g.eraseSize ≤ p.layout.writableEnd.toNat)
    (behind : ∀ x, 2 ≤ x → target' x = target x)
    (front : ∀ x, x < 2 → start ≤ x → (q.stored x = target' x ↔ p.stored x = target x)) :
    Alike (SameReport Hides) (p.updateBlock start (gather target start g.eraseSize))
      (q.updateBlock start (gather target' start g.eraseSize)) := by
  have hsize := Nat.le_trans inside h.size
  have inside' : start + g.eraseSize ≤ q.layout.writableEnd.toNat := by rw [h.same.layout]; exact inside
  have each (x : Nat) (hx : start ≤ x) : q.stored x = target' x ↔ p.stored x = target x := by
    by_cases h2 : x < 2
    · exact front x h2 hx
    · rw [h.same.stored x (by omega), behind x (by omega)]
  obtain ⟨held, he, hi⟩ := p.holds_spec start g.eraseSize target
    (Nat.le_trans inside p.sound.writable_le)
  obtain ⟨held', he', hi'⟩ := q.holds_spec start g.eraseSize target'
    (Nat.le_trans inside' q.sound.writable_le)
  -- So both leave the block alone or neither does.
  have both : held' = held := by
    rw [Bool.eq_iff_iff, hi, hi']
    constructor
    · exact fun all x h₁ h₂ => (each x h₁).1 (all x h₁ h₂)
    · exact fun all x h₁ h₂ => (each x h₁).2 (all x h₁ h₂)
  rw [Programmer.updateBlock, Programmer.updateBlock, gather_length, gather_length, he, he', both]
  simp only [ne_eq, not_true_eq_false, if_false]
  cases held with
  | true => exact .answered _ _ ⟨rfl, h⟩
  | false =>
    rw [refillBlock_of_quiet aligned inside hsize h.quiet,
      refillBlock_of_quiet aligned inside' hsize (h.same.quiet h.quiet), h.same.completedErases]
    exact .answered _ _ ⟨rfl, h.refilled _ hsize behind⟩

section Commit

variable (h : p.Hides q) (small : g.eraseSize < addressSpace)

include h

theorem Hides.placed (placed : p.Placed start data) : q.Placed start data := by
  rcases placed with ⟨aligned, nonempty, le_block, le_application⟩
  exact ⟨aligned, nonempty, le_block, by rw [h.same.layout]; exact le_application⟩

theorem Hides.wanted {x : Nat} (behind : 2 ≤ x) : q.wanted start data x = p.wanted start data x := by
  rw [wanted_of_not_kept (by omega), wanted_of_not_kept (by omega), h.same.layout,
    h.same.stored x behind]

include small

theorem Hides.commit_later (placed : p.Placed start data) (later : start ≠ 0)
    (wide : 2 ≤ g.eraseSize) :
    Alike (SameReport Hides) (p.commit start data) (q.commit start data) := by
  have := Nat.le_of_dvd (Nat.pos_of_ne_zero later) (Nat.dvd_of_mod_eq_zero placed.aligned)
  rw [commit_plain placed (.inr later), commit_plain (h.placed placed) (.inr later)]
  apply h.updateBlock placed.aligned (placed.inside small) fun x => h.wanted
  intro x hx hs
  omega

theorem Hides.commit_moving {slot : VectorSlot} {word : UInt16} (placed : p.Placed 0 data)
    (slotted : p.layout.slot = some slot) (behind : 2 ≤ slot.address.toNat)
    (whole : slot.address.toNat % g.eraseSize + 2 ≤ g.eraseSize)
    (movable : slot.toSlot (firstWord data) = some word) :
    Alike (SameReport Hides) (p.commit 0 data) (q.commit 0 data) := by
  have slotted' : q.layout.slot = some slot := by rw [h.same.layout, slotted]
  -- The slot lies behind the bytes in which the two differ.
  have front (view : Nat → UInt8) (x : Nat) (hx : x < 2) : slot.holding word view x = view x := by
    rw [VectorSlot.holding, if_neg (by omega), if_neg (by omega)]
  rw [Programmer.commit_moving placed slotted small whole movable,
    Programmer.commit_moving (h.placed placed) slotted' small whole movable]
  apply Alike.bind (h.updateBlock (slot.block_aligned _) (slot_block_inside slotted small)
    (fun x hx => by simp only [VectorSlot.holding, h.same.stored x hx])
    fun x hx _ => by simp only [front _ x hx])
  rintro ⟨vector, p₁⟩ ⟨_, q₁⟩ updated ⟨rfl, related⟩
  obtain ⟨_, _, answer, update⟩ := p.updateBlock_spec (slot.holding word p.stored)
    (slot.block_aligned _) (slot_block_inside slotted small)
  cases answer.symm.trans updated
  cases vector with
  | error e => exact .answered _ _ ⟨rfl, related⟩
  | ok outcome =>
    have inside : 0 + g.eraseSize ≤ p₁.layout.writableEnd.toNat := by
      rw [update.layout_eq]
      exact placed.inside small
    have slotted₁ : p₁.layout.slot.isSome := by
      rw [update.layout_eq, slotted]
      rfl
    have slotted₂ : q₁.layout.slot.isSome := by
      rw [related.same.layout]
      exact slotted₁
    -- What goes into block zero begins with what each of the two has there.
    simp only [keepReserved_moved placed (by omega) p₁ slotted₁,
      keepReserved_moved (h.placed placed) (by omega) q₁ slotted₂]
    apply related.updateBlock (Nat.zero_mod _) inside fun x => related.wanted
    intro x hx _
    simp only [wanted_of_kept ⟨slotted₁, rfl, hx⟩, wanted_of_kept ⟨slotted₂, rfl, hx⟩]

theorem Hides.commit (placed : p.Placed start data) (wide : start ≠ 0 → 2 ≤ g.eraseSize) :
    Alike (SameReport Hides) (p.commit start data) (q.commit start data) := by
  by_cases first : start = 0
  · subst first
    obtain ⟨slot, slotted, behind⟩ := h.slotted
    have slotted' : q.layout.slot = some slot := by rw [h.same.layout, slotted]
    by_cases stuck : 2 ≤ g.eraseSize ∧ slot.toSlot (firstWord data) = none
    · rw [commit_unmovable placed slotted stuck.1 stuck.2,
        commit_unmovable (h.placed placed) slotted' stuck.1 stuck.2]
      exact .answered _ _ ⟨rfl, h⟩
    · have movable (two : 2 ≤ g.eraseSize) : slot.toSlot (firstWord data) ≠ none :=
        fun unmovable => stuck ⟨two, unmovable⟩
      by_cases whole : slot.address.toNat % g.eraseSize + 2 ≤ g.eraseSize
      · obtain ⟨word, hw⟩ := Option.ne_none_iff_exists'.1 (movable (by omega))
        exact h.commit_moving small placed slotted behind whole hw
      · rw [commit_torn placed slotted small whole movable,
          commit_torn (h.placed placed) slotted' small whole movable]
        exact .crashed _
  · exact h.commit_later small placed first (wide first)

end Commit

theorem lockstep_hides (small : g.eraseSize < addressSpace) : Lockstep (Hides (g := g)) where
  layout h := h.same.layout
  image h := by
    obtain ⟨slot, slotted, behind⟩ := h.slotted
    exact h.same.imageByte slotted behind
  erases h := h.same.completedErases
  taken {p q} h := by
    refine ⟨⟨?_, h.same.stored, h.same.erases⟩, h.slotted, h.quiet, h.size⟩
    rw [h.same.same]
    rfl
  commit {p q start data} h placed wide := by
    obtain ⟨slot, slotted, -⟩ := h.slotted
    exact h.commit small placed (wide (by rw [slotted]; rfl))

end Programmer

namespace Session

variable {g : Geometry} {s t : Session g} {slot : VectorSlot}

structure SameBehind (s t : Session g) : Prop where
  same : t = { s with updater.flash := t.updater.flash }
  flash : s.updater.flash.SameBehind t.updater.flash

theorem sameBehind_store (s : Session g) (low high : UInt8) :
    s.SameBehind
      { s with
        updater.flash.chip.memory := s.updater.flash.chip.memory.store 0 [low, high] } := by
  refine ⟨rfl, rfl, ?_, rfl⟩
  intro x hx
  change (s.updater.flash.chip.memory.store 0 [low, high]).read x = _
  rw [Memory.read_store, List.getElem?_eq_none hx]
  exact ite_self _

/-- Nothing that is asked of a session tells what the first two bytes of flash are, as long as the
part does what it is told. Two sessions that differ there alone give the same replies to every
sequence of requests, or crash at the same one, and then differ nowhere else either. -/
theorem redirect_hidden (small : g.eraseSize < addressSpace) (reachable : s.Reachable)
    (slotted : s.updater.flash.layout.slot = some slot) (behind : 2 ≤ slot.address.toNat)
    (size : s.updater.flash.layout.writableEnd.toNat ≤ g.size) (quiet : s.updater.flash.chip.Quiet)
    (same : s.SameBehind t) (requests : List Request) :
    Alike (SameReport SameBehind) (s.exchangeAll requests) (t.exchangeAll requests) := by
  have lockstep := Updater.lockstep_beside (Programmer.lockstep_hides small) small
  have ties : Ties _ (Twins (g := g) (Updater.Beside Programmer.Hides) Eq) :=
    ties_twins fun _ _ same => by rw [same]
  have twins : Twins (Updater.Beside Programmer.Hides) Eq s t := by
    refine ⟨t.updater, t.logger, by rw [same.same], ?_, by rw [same.same]⟩
    exact ⟨by rw [same.same], ⟨same.flash, ⟨slot, slotted, behind⟩, quiet, size⟩,
      reachable.ready small, reachable.wide small⟩
  apply (twins.exchangeAll lockstep ties requests).mono
  rintro ⟨replies, s'⟩ ⟨_, t'⟩ - ⟨rfl, v, l, rfl, related, logged⟩
  refine ⟨rfl, ?_, related.flash.same⟩
  rw [← logged, related.same]

/-- An erased part and one that begins with zeros take the same image and read it back alike; each
keeps its own first bytes. -/
theorem redirect_hidden_sixBytes :
    let requests : List Request :=
      [.sealed .crc8 1 .writeFlash [0, 0, 0x12, 0xc0, 3, 4, 5, 6], .sealed .crc8 1 .finalizeFlash [],
        .sealed .crc8 1 .readFlash [0, 0, 6]]
    ∃ (s t s' t' : Session .small) (replies : List (Option Bytes)), s.SameBehind t ∧
      s.exchangeAll requests = .ok (replies, s') ∧ t.exchangeAll requests = .ok (replies, t') ∧
      replies.getLast? = some (some (Framing.crc8.enclose 1 [0, 6, 0x12, 0xc0, 3, 4, 5, 6])) ∧
      s'.SameBehind t' ∧ s'.updater.flash.stored 0 = 0xff ∧ t'.updater.flash.stored 0 = 0 := by
  intro requests
  have fresh := start_updater .interface (.small []) .none .disabled
  have reachable : Reachable (start .interface (.small []) .none .disabled) := .start _ _ _ _
  have first : ((start .interface (.small []) .none .disabled).exchangeAll requests).toOption.any
      fun a => a.1.getLast? = some (some (Framing.crc8.enclose 1 [0, 6, 0x12, 0xc0, 3, 4, 5, 6])) ∧
        a.2.updater.flash.stored 0 = 0xff := by decide +kernel
  have second : (exchangeAll
      { start .interface (.small []) .none .disabled with
        updater.flash.chip.memory :=
          (start .interface (.small []) .none .disabled).updater.flash.chip.memory.store 0 [0, 0] }
      requests).toOption.any fun a => a.2.updater.flash.stored 0 = 0 := by decide +kernel
  generalize start .interface (.small []) .none .disabled = s at fresh reachable first second
  obtain ⟨⟨replies, s'⟩, answer, told⟩ := exists_ok_of_any first
  obtain ⟨⟨replies', t'⟩, answer', told'⟩ := exists_ok_of_any second
  have slotted : s.updater.flash.layout.slot = some ⟨6, Relocation.relativeJump⟩ := by
    rw [fresh]
    rfl
  have size : s.updater.flash.layout.writableEnd.toNat ≤ Geometry.small.size := by
    rw [fresh]
    decide
  have quiet : s.updater.flash.chip.Quiet := by
    rw [fresh]
    exact ⟨rfl, rfl⟩
  have alike := redirect_hidden (by decide) reachable slotted (by decide) size quiet
    (s.sameBehind_store 0 0) requests
  rw [answer, answer'] at alike
  cases alike with
  | answered _ _ related =>
    obtain ⟨rfl, related⟩ := related
    obtain ⟨read, kept⟩ := of_decide_eq_true told
    exact ⟨s, _, s', t', replies, s.sameBehind_store 0 0, answer, answer', read, related, kept,
      of_decide_eq_true told'⟩

end Session

end FieldUpdate
