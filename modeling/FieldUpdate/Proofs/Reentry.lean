import FieldUpdate.Proofs.Blocks
import FieldUpdate.Proofs.Journal

namespace FieldUpdate

theorem Memory.ext_read {size : Nat} {m m' : Memory size} (h : ∀ x, m.read x = m'.read x) :
    m = m' := by
  obtain ⟨cells⟩ := m
  obtain ⟨cells'⟩ := m'
  congr 1
  ext i hi
  have hx := h i
  simp only [read, Vector.getElem?_eq_getElem hi, Option.getD_some] at hx
  rw [hx]

theorem Event.record_injective : Function.Injective Event.record := by
  have started (ops : List Operation) :
      (Event.record ops).filterMap Event.started? = ops.reverse := by
    rw [record, List.filterMap_flatMap]
    exact List.flatMap_singleton' _
  intro ops ops' h
  have h := congrArg (List.filterMap Event.started?) h
  rw [started, started] at h
  exact List.reverse_inj.1 h

section Cuts

variable {g : Geometry} {target : Nat → UInt8} {start count : Nat}

/-- Where a refill is cut off, some of its pages were written and the next one comes, if one does. -/
theorem refill_split {before after : List Operation}
    (h : refill g target start count = before ++ after) :
    before = [] ∨ ∃ k ≤ count, before = refill g target start k ∧
      (k = count ∨ ∃ later, after =
        .program (start + k * g.writeSize) (gather target (start + k * g.writeSize) g.writeSize) ::
          later) := by
  cases before with
  | nil => exact .inl rfl
  | cons op written =>
    rw [refill, List.cons_append, List.cons.injEq] at h
    obtain ⟨rfl, h⟩ := h
    right
    cases after with
    | nil =>
      rw [List.append_nil] at h
      exact ⟨count, Nat.le_refl _, by rw [refill, h], .inl rfl⟩
    | cons next later =>
      obtain ⟨k, hk, rfl, rfl⟩ := pageWrites_split h
      exact ⟨k, Nat.le_of_lt hk, rfl, .inr ⟨later, rfl⟩⟩

end Cuts

namespace Operation

variable {g : Geometry} {m : Memory g.size} {redirect : Nat → UInt8} {ops ops' : List Operation}

/-- Wherever the operations are cut off, flash begins with the redirect, or block zero was just
erased and the page that puts the redirect back comes next. -/
def Reenters (redirect : Nat → UInt8) (m : Memory g.size) (ops : List Operation) : Prop :=
  ∀ before after, ops = before ++ after →
    (∀ x < 2, (applyAll m before).read x = redirect x) ∨
    ∃ earlier data later, before = earlier ++ [.erase 0] ∧ after = .program 0 data :: later ∧
      ∀ x < 2, (applyAll m (before ++ [.program 0 data])).read x = redirect x

theorem Reenters.last (h : Reenters redirect m ops) {x : Nat} (hx : x < 2) :
    (applyAll m ops).read x = redirect x := by
  rcases h ops [] (List.append_nil ops).symm with whole | ⟨earlier, data, later, -, none, -⟩
  · exact whole x hx
  · cases none

theorem reenters_nil (leads : ∀ x < 2, m.read x = redirect x) : Reenters redirect m [] := by
  intro before after h
  obtain ⟨rfl, rfl⟩ := List.append_eq_nil_iff.1 h.symm
  exact .inl leads

theorem Reenters.append (h : Reenters redirect m ops)
    (h' : Reenters redirect (applyAll m ops) ops') : Reenters redirect m (ops ++ ops') := by
  intro before after split
  rcases List.append_eq_append_iff.1 split with ⟨cut, rfl, rest⟩ | ⟨cut, rest, rfl⟩
  · -- Cut off among the later operations.
    rcases h' cut after rest with whole | ⟨earlier, data, later, rfl, rfl, back⟩
    · left
      rw [applyAll_append]
      exact whole
    · right
      refine ⟨ops ++ earlier, data, later, (List.append_assoc _ _ _).symm, rfl, ?_⟩
      rw [List.append_assoc, applyAll_append]
      exact back
  · rcases h before cut rest with whole | ⟨earlier, data, later, hb, rfl, back⟩
    · exact .inl whole
    · exact .inr ⟨earlier, data, later ++ ops', hb, rfl, back⟩

/-- A refill of another block does not reach the redirect, and one of block zero whose target begins
with the redirect puts it back with the first page. -/
theorem reenters_refill {target : Nat → UInt8} {start : Nat} (page : 2 ≤ g.writeSize)
    (aligned : start % g.eraseSize = 0) (nonempty : 0 < g.eraseSize)
    (size : start + g.eraseSize ≤ g.size) (leads : ∀ x < 2, m.read x = redirect x)
    (same : start = 0 → ∀ x < 2, target x = redirect x) :
    Reenters redirect m (refill g target start (g.eraseSize / g.writeSize)) := by
  have block := Nat.le_of_dvd nonempty g.writeSize_dvd
  have pages : g.eraseSize / g.writeSize * g.writeSize = g.eraseSize :=
    Nat.div_mul_cancel g.writeSize_dvd
  intro before after split
  rcases refill_split split with rfl | ⟨k, hk, rfl, next⟩
  · exact .inl leads
  have cells (x : Nat) : (applyAll m (refill g target start k)).read x =
      refilled m.read target start g.eraseSize (k * g.writeSize) x :=
    read_applyAll_refill size (pages_le hk) x
  by_cases zero : start = 0
  · subst zero
    by_cases first : k = 0
    · -- Nothing was written yet, so the first page comes next.
      subst first
      obtain ⟨later, rfl⟩ : ∃ later, after = .program 0 (gather target 0 g.writeSize) :: later := by
        rcases next with done | ⟨later, next⟩
        · rw [← done, Nat.zero_mul] at pages
          omega
        · exact ⟨later, by simpa using next⟩
      right
      refine ⟨[], _, later, rfl, rfl, fun x hx => ?_⟩
      have erased : ∀ y, 0 ≤ y → y < 0 + g.writeSize →
          (Operation.apply m (.erase 0)).read y = 0xff := by
        intro y _ hy
        rw [read_apply_erase size, if_pos (by omega)]
      refine (read_apply_program (by omega) erased x).trans ?_
      rw [if_pos (by omega), same rfl x hx]
    · left
      intro x hx
      have := Nat.le_mul_of_pos_left g.writeSize (Nat.pos_of_ne_zero first)
      rw [cells, refilled, if_pos (by omega), same rfl x hx]
  · left
    intro x hx
    have := Nat.le_of_dvd (Nat.pos_of_ne_zero zero) (Nat.dvd_of_mod_eq_zero aligned)
    rw [cells, refilled, if_neg (by omega), if_neg (by omega), leads x hx]

end Operation

namespace Programmer

variable {g : Geometry} {p p' p'' : Programmer g} {ops ops' : List Operation}
  {redirect : Nat → UInt8} {start : Nat} {data image : Bytes}
  {report : Except FlashError BlockOutcome}

/-- What was done to flash between two moments with no fault in sight. -/
structure Did (p : Programmer g) (ops : List Operation) (p' : Programmer g) : Prop where
  layout_eq : p'.layout = p.layout
  quiet : p'.chip.Quiet
  events_eq : p'.chip.events = Event.record ops ++ p.chip.events
  memory_eq : p'.chip.memory = Operation.applyAll p.chip.memory ops

theorem Did.refl (quiet : p.chip.Quiet) : Did p [] p := ⟨rfl, quiet, rfl, rfl⟩

theorem Did.trans (h : Did p ops p') (h' : Did p' ops' p'') : Did p (ops ++ ops') p'' where
  layout_eq := h'.layout_eq.trans h.layout_eq
  quiet := h'.quiet
  events_eq := by
    rw [h'.events_eq, h.events_eq, Event.record_append, List.append_assoc]
  memory_eq := by
    rw [h'.memory_eq, h.memory_eq, Operation.applyAll_append]

theorem Did.leads (h : Did p ops p') (reenters : Operation.Reenters redirect p.chip.memory ops) :
    ∀ x < 2, p'.stored x = redirect x := by
  intro x hx
  rw [stored, Chip.read, h.memory_eq]
  exact reenters.last hx

theorem Updated.did {target : Nat → UInt8} (h : Updated p start target report p')
    (quiet : p.chip.Quiet) (size : start + g.eraseSize ≤ g.size) :
    ∃ ops, (ops = [] ∨ ops = refill g target start (g.eraseSize / g.writeSize)) ∧
      Did p ops p' := by
  cases h with
  | held same => exact ⟨[], .inl rfl, .refl quiet⟩
  | written _ layout stored events erases kept =>
    refine ⟨_, .inr rfl, layout, kept quiet, events, Memory.ext_read fun x => ?_⟩
    have pages : g.eraseSize / g.writeSize * g.writeSize = g.eraseSize :=
      Nat.div_mul_cancel g.writeSize_dvd
    rw [read_applyAll_refill size (Nat.le_of_eq pages), pages]
    exact congrFun stored x
  | refused _ small => omega
  | eraseFailed _ bits layout stored events erases loud => exact absurd quiet loud
  | pageFailed _ bits k bound layout stored events erases loud => exact absurd quiet loud

theorem Updated.reenters {target : Nat → UInt8} (h : Updated p start target report p')
    (page : 2 ≤ g.writeSize) (aligned : start % g.eraseSize = 0)
    (size : start + g.eraseSize ≤ g.size) (quiet : p.chip.Quiet)
    (leads : ∀ x < 2, p.stored x = redirect x)
    (same : start = 0 → ∀ x < 2, target x = redirect x) :
    ∃ ops, Did p ops p' ∧ Operation.Reenters redirect p.chip.memory ops := by
  obtain ⟨ops, what, did⟩ := h.did quiet size
  refine ⟨ops, did, ?_⟩
  rcases what with rfl | rfl
  · exact Operation.reenters_nil leads
  · exact Operation.reenters_refill page aligned p.sound.eraseSize_pos size leads same

/-- Block zero may be written twice in a commit, first with the slot if that is there too, and each
time it keeps what it begins with. -/
theorem Committed.reenters (h : Committed p start data report p') (placed : p.Placed start data)
    (small : g.eraseSize < addressSpace) (page : 2 ≤ g.writeSize)
    (size : p.layout.writableEnd.toNat ≤ g.size) (slotted : p.layout.slot.isSome)
    (quiet : p.chip.Quiet) (leads : ∀ x < 2, p.stored x = redirect x) :
    ∃ ops, Did p ops p' ∧ Operation.Reenters redirect p.chip.memory ops := by
  have inside := placed.inside small
  -- The slot lies behind the redirect, so its word does not change it.
  have beside {slot : VectorSlot} (word : UInt16) (slotted : p.layout.slot = some slot) :
      ∀ x < 2, slot.holding word p.stored x = redirect x := by
    intro x hx
    have some_application : 0 < p.layout.applicationSize.toNat := by
      have := placed.nonempty
      have := placed.le_application
      omega
    have := two_le_slot slotted some_application
    rw [VectorSlot.holding, if_neg (by omega), if_neg (by omega), leads x hx]
  cases h with
  | plain _ _ fixed update =>
    apply update.reenters page placed.aligned (by omega) quiet leads
    intro zero
    rcases fixed with none | later
    · rw [none] at slotted
      cases slotted
    · exact absurd zero later
  | unsupported slot slotted' zero unmovable =>
    exact ⟨[], .refl quiet, Operation.reenters_nil leads⟩
  | vectorFailed slot word e _ slotted' zero whole movable vector =>
    have := slot_block_inside slotted' small
    apply vector.reenters page (slot.block_aligned _) (by omega) quiet leads
    exact fun _ => beside word slotted'
  | moved slot word outcome p₁ _ _ slotted' zero whole movable vector update =>
    subst zero
    have := slot_block_inside slotted' small
    obtain ⟨ops, did, reenters⟩ := vector.reenters page (slot.block_aligned _) (by omega) quiet
      leads fun _ => beside word slotted'
    have leads₁ := did.leads reenters
    have keeps : ∀ x < 2, p₁.wanted 0 data x = redirect x := by
      intro x hx
      rw [wanted_of_kept ⟨by rw [did.layout_eq]; exact slotted, rfl, hx⟩, leads₁ x hx]
    obtain ⟨ops', did', reenters'⟩ := update.reenters page (Nat.zero_mod _) (by omega) did.quiet
      leads₁ fun _ => keeps
    rw [did.memory_eq] at reenters'
    exact ⟨ops ++ ops', did.trans did', reenters.append reenters'⟩

theorem Blocks.reenters {commits : List Commit} (h : Blocks image start p commits p')
    (small : g.eraseSize < addressSpace) (page : 2 ≤ g.writeSize)
    (size : p.layout.writableEnd.toNat ≤ g.size) (slotted : p.layout.slot.isSome)
    (quiet : p.chip.Quiet) (leads : ∀ x < 2, p.stored x = redirect x) :
    ∃ ops, Did p ops p' ∧ Operation.Reenters redirect p.chip.memory ops := by
  induction h with
  | done start p => exact ⟨[], .refl quiet, Operation.reenters_nil leads⟩
  | failed start data e p p' placed part commit =>
    have committed := committed_of_commit placed small commit
    exact committed.reenters placed small page size slotted quiet leads
  | next start data outcome p p₁ later p' placed part commit rest ih =>
    have committed := committed_of_commit placed small commit
    obtain ⟨ops, did, reenters⟩ := committed.reenters placed small page size slotted quiet leads
    obtain ⟨ops', did', reenters'⟩ := ih (by rw [did.layout_eq]; exact size)
      (by rw [did.layout_eq]; exact slotted) did.quiet (did.leads reenters)
    rw [did.memory_eq] at reenters'
    exact ⟨ops ++ ops', did.trans did', reenters.append reenters'⟩

end Programmer

namespace Session

variable {g : Geometry} {flash : Programmer g} {s : Session g} {image : Bytes}

theorem Follows.reenters (follows : s.Follows flash image) (small : g.eraseSize < addressSpace)
    (page : 2 ≤ g.writeSize) (size : flash.layout.writableEnd.toNat ≤ g.size)
    (slotted : flash.layout.slot.isSome) (quiet : flash.chip.Quiet) :
    ∃ ops, flash.Did ops s.updater.flash ∧
      Operation.Reenters flash.stored flash.chip.memory ops := by
  induction follows with
  | start board children logger =>
    rw [start_updater]
    exact ⟨[], .refl quiet, Operation.reenters_nil fun _ _ => rfl⟩
  | exchange s image r e before answer ih =>
    obtain ⟨ops, did, reenters⟩ := ih
    obtain ⟨-, commits, p, -, blocks, chip, layout, -⟩ :=
      Stream.meet_blocks small r.demand_short (before.faithful small) (meet_of_exchange answer)
    obtain ⟨ops', did', reenters'⟩ := blocks.reenters small page
      (by rw [did.layout_eq]; exact size) (by rw [did.layout_eq]; exact slotted) did.quiet
      (did.leads reenters)
    have did' : s.updater.flash.Did ops' e.state.updater.flash :=
      ⟨layout.trans did'.layout_eq, chip ▸ did'.quiet, by rw [chip, did'.events_eq],
        by rw [chip, did'.memory_eq]⟩
    rw [did.memory_eq] at reenters'
    exact ⟨ops ++ ops', did.trans did', reenters.append reenters'⟩

/-- The loader can be entered again whenever power goes. With no fault in sight, the operations that
requests cause can be cut off anywhere: flash then begins with what it began with, or block zero was
just erased and the very next operation programs the page at address zero and puts that back. -/
theorem reentry_after_any_cut (small : g.eraseSize < addressSpace) (page : 2 ≤ g.writeSize)
    (size : flash.layout.writableEnd.toNat ≤ g.size) (slotted : flash.layout.slot.isSome)
    (quiet : flash.chip.Quiet) (follows : s.Follows flash image) :
    ∃ ops, s.updater.flash.chip.events = Event.record ops ++ flash.chip.events ∧
      s.updater.flash.chip.memory = Operation.applyAll flash.chip.memory ops ∧
      ∀ before after, ops = before ++ after →
        (∀ x < 2, (Operation.applyAll flash.chip.memory before).read x = flash.stored x) ∨
        ∃ earlier data later, before = earlier ++ [.erase 0] ∧ after = .program 0 data :: later ∧
          ∀ x < 2, (Operation.applyAll flash.chip.memory (before ++ [.program 0 data])).read x =
            flash.stored x := by
  obtain ⟨ops, did, reenters⟩ := follows.reenters small page size slotted quiet
  exact ⟨ops, did.events_eq, did.memory_eq, reenters⟩

/-- Four bytes that begin with a jump: cut off behind the erase of block zero, flash begins with ones,
and the next operation puts the jump to the loader back. -/
theorem reentry_after_any_cut_fourBytes :
    ∃ (s : Session .small) (image : Bytes) (before after : List Operation),
      s.Follows (.small []) image ∧
      s.updater.flash.chip.events = Event.record (before ++ .erase 0 :: after) ∧
      (Operation.applyAll (Programmer.small []).chip.memory (before ++ [.erase 0])).read 1 ≠ 0xcb ∧
      ∃ data later, after = .program 0 data :: later ∧
        (Operation.applyAll (Programmer.small []).chip.memory
          (before ++ [.erase 0, .program 0 data])).read 1 = 0xcb := by
  let r : Request := .sealed .crc8 1 .writeFlash (addressBytes 0 ++ [0x12, 0xc0, 3, 4])
  have demand : r.demand = .write 0 [0x12, 0xc0, 3, 4] :=
    Request.sealed_demand (by decide) (by decide)
  obtain ⟨s, follows, hs⟩ := exists_follows (.small [])
  obtain ⟨u, met, good⟩ := exists_ok_of_any
    (x := (Updater.idle (.small [])).meet (.write 0 [0x12, 0xc0, 3, 4]))
    (p := fun u => u.flash.chip.events = Event.record [.erase 4, .program 6 [0x0f, 0xc0],
      .erase 0, .program 0 [0xff, 0xcb], .program 2 [3, 4]])
    (by decide +kernel)
  have events := of_decide_eq_true good
  rw [← hs, ← demand] at met
  obtain ⟨e, answer, rfl⟩ := exchange_of_meet met
  have follows := follows.exchange s [] r e answer
  obtain ⟨ops, added, -, reenters⟩ := reentry_after_any_cut (by decide) (by decide) (by decide)
    rfl ⟨rfl, rfl⟩ follows
  have none : (Programmer.small []).chip.events = [] := rfl
  rw [none, List.append_nil, events] at added
  have hops := Event.record_injective added
  refine ⟨_, _, [.erase 4, .program 6 [0x0f, 0xc0]], _, follows, events, by decide, ?_⟩
  rcases reenters [.erase 4, .program 6 [0x0f, 0xc0], .erase 0] _ hops.symm with
    whole | ⟨earlier, data, later, -, next, back⟩
  · exact absurd (whole 1 (by decide)) (by decide)
  · exact ⟨data, later, next, back 1 (by decide)⟩

end Session

end FieldUpdate
