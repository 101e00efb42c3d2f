import FieldUpdate.Proofs.Blocks
import FieldUpdate.Proofs.Journal
import FieldUpdate.Proofs.Vector

namespace FieldUpdate

namespace Programmer

variable {g : Geometry} {p p' p'' : Programmer g} {start : Nat} {data image : Bytes}
  {report : Except FlashError BlockOutcome} {first : UInt16}

theorem Updated.stored_of_quiet {target : Nat → UInt8} (h : Updated p start target report p')
    (quiet : p.chip.Quiet) {x : Nat} (kept : target x = p.stored x) :
    p'.stored x = p.stored x := by
  cases h with
  | held same => rfl
  | written _ layout stored =>
    rw [stored, refilled]
    repeat' split
    all_goals first | exact kept | rfl
  | refused _ small layout stored => rw [stored]
  | eraseFailed _ bits layout stored events erases loud => exact absurd quiet loud
  | pageFailed _ bits k bound layout stored events erases loud => exact absurd quiet loud

theorem Updated.stored_eq_of_error {target : Nat → UInt8} {e : FlashError}
    (h : Updated p start target (.error e) p') (quiet : p.chip.Quiet) : p'.stored = p.stored := by
  cases h with
  | refused _ small layout stored => exact stored
  | eraseFailed _ bits layout stored events erases loud => exact absurd quiet loud
  | pageFailed _ bits k bound layout stored events erases loud => exact absurd quiet loud

theorem Updated.quiet {target : Nat → UInt8} (h : Updated p start target report p')
    (quiet : p.chip.Quiet) : p'.chip.Quiet := by
  cases h with
  | held same => exact quiet
  | written _ layout stored events erases kept => exact kept quiet
  | refused _ small layout stored events erases kept => exact kept quiet
  | eraseFailed _ bits layout stored events erases loud => exact absurd quiet loud
  | pageFailed _ bits k bound layout stored events erases loud => exact absurd quiet loud

theorem wanted_of_reserved (placed : p.Placed start data) {x : Nat}
    (hx : p.layout.applicationSize.toNat ≤ x) : p.wanted start data x = p.stored x := by
  have := placed.le_application
  by_cases kept : p.layout.slot.isSome ∧ start = 0 ∧ x < 2
  · exact wanted_of_kept kept
  · rw [wanted_of_not_kept kept, if_neg (by omega), if_neg (by omega)]

/-- Past the application everything stays, or a slot has taken the vector of an image. -/
inductive Reserves (first : UInt16) (p p' : Programmer g) : Prop
  | kept (stored : ∀ x, p.layout.applicationSize.toNat ≤ x → p'.stored x = p.stored x)
  | moved (slot : VectorSlot) (word : UInt16) (slotted : p.layout.slot = some slot)
      (movable : slot.toSlot first = some word)
      (stored : ∀ x, p.layout.applicationSize.toNat ≤ x →
        p'.stored x = slot.holding word p.stored x)

theorem Reserves.trans (h : Reserves first p p') (h' : Reserves first p' p'')
    (layout : p'.layout = p.layout) : Reserves first p p'' := by
  cases h' with
  | kept stored' =>
    rw [layout] at stored'
    cases h with
    | kept stored => exact .kept fun x hx => (stored' x hx).trans (stored x hx)
    | moved slot word slotted movable stored =>
      exact .moved slot word slotted movable fun x hx => (stored' x hx).trans (stored x hx)
  | moved slot word slotted movable stored' =>
    rw [layout] at slotted stored'
    refine .moved slot word slotted movable fun x hx => ?_
    rw [stored' x hx, VectorSlot.holding, VectorSlot.holding]
    cases h with
    | kept stored => rw [stored x hx]
    | moved slot' word' slotted' movable' stored =>
      cases slotted.symm.trans slotted'
      -- The second time around the slot takes the same word.
      cases movable.symm.trans movable'
      rw [stored x hx, VectorSlot.holding]
      repeat' split
      all_goals rfl

/-- A commit that meets no fault keeps what is past the application, but for the slot. -/
theorem Committed.reserves (h : Committed p start data report p') (placed : p.Placed start data)
    (quiet : p.chip.Quiet) (part : data = (image.drop start).take g.eraseSize) :
    p'.chip.Quiet ∧
      ((∀ x, p.layout.applicationSize.toNat ≤ x → p'.stored x = p.stored x) ∨
        (start = 0 ∧ data = image.take g.eraseSize ∧ Reserves (firstWord image) p p')) := by
  cases h with
  | plain _ _ fixed update =>
    exact ⟨update.quiet quiet,
      .inl fun x hx => update.stored_of_quiet quiet (wanted_of_reserved placed hx)⟩
  | unsupported slot slotted zero unmovable => exact ⟨quiet, .inl fun x _ => rfl⟩
  | vectorFailed slot word e _ slotted zero whole movable vector =>
    exact ⟨vector.quiet quiet, .inl fun x _ => by rw [vector.stored_eq_of_error quiet]⟩
  | moved slot word outcome p₁ _ _ slotted zero whole movable vector update =>
    subst zero
    rw [List.drop_zero] at part
    have front := part
    have hl := vector.layout_eq
    have placed₁ : p₁.Placed 0 data := ⟨placed.aligned, placed.nonempty, placed.le_block,
      by rw [hl]; exact placed.le_application⟩
    have calm := vector.quiet quiet
    rw [part, firstWord_take (by omega)] at movable
    -- Block zero is updated behind the slot's block and wants past the application what is there.
    refine ⟨update.quiet calm, .inr ⟨rfl, front, .moved slot word slotted movable fun x hx => ?_⟩⟩
    rw [update.stored_of_quiet calm (wanted_of_reserved placed₁ (by rw [hl]; exact hx)),
      Committed.stored_holding whole vector]

/-- The same for commits in a row: only that of block zero moves a vector. -/
theorem Blocks.reserves {commits : List Commit} (h : Blocks image start p commits p')
    (small : g.eraseSize < addressSpace) (quiet : p.chip.Quiet) :
    p'.chip.Quiet ∧ p'.layout = p.layout ∧
      ((∀ x, p.layout.applicationSize.toNat ≤ x → p'.stored x = p.stored x) ∨
        (Reserves (firstWord image) p p' ∧
          ∃ c ∈ commits, c.start = 0 ∧ c.data = image.take g.eraseSize)) := by
  -- Only the first of the blocks can be block zero, but the slot may be in a later one.
  induction h with
  | done start p => exact ⟨quiet, rfl, .inl fun x _ => rfl⟩
  | failed start data e p p' placed part commit =>
    have hd := committed_of_commit placed small commit
    obtain ⟨calm, same | ⟨zero, front, moved⟩⟩ := hd.reserves placed quiet part
    · exact ⟨calm, hd.layout_eq, .inl same⟩
    · exact ⟨calm, hd.layout_eq, .inr ⟨moved, _, List.mem_singleton.2 rfl, zero, front⟩⟩
  | next start data outcome p p₁ later p' placed part commit rest ih =>
    have hd := committed_of_commit placed small commit
    have hl := hd.layout_eq
    obtain ⟨calm, first⟩ := hd.reserves placed quiet part
    obtain ⟨calm', layout, others⟩ := ih calm
    rw [hl] at layout others
    refine ⟨calm', layout, ?_⟩
    obtain same | ⟨zero, front, moved⟩ := first
    · obtain same' | ⟨moved', c, hc, at_zero⟩ := others
      · exact .inl fun x hx => (same' x hx).trans (same x hx)
      · exact .inr ⟨Reserves.trans (.kept same) moved' hl, c, List.mem_append_left _ hc, at_zero⟩
    · refine .inr ⟨?_, _, List.mem_append_right _ (List.mem_singleton.2 rfl), zero, front⟩
      obtain same' | ⟨moved', -⟩ := others
      · exact moved.trans (.kept (by rw [hl]; exact same')) hl
      · exact moved.trans moved' hl

end Programmer

namespace Session

variable {g : Geometry} {flash : Programmer g} {s : Session g} {image : Bytes} {r : Request}
  {e : Exchanged (Session g)}

theorem exchange_reserves (follows : s.Follows flash image) (small : g.eraseSize < addressSpace)
    (quiet : s.updater.flash.chip.Quiet) (answer : s.exchange r = .ok e) :
    e.state.updater.flash.chip.Quiet ∧
      e.state.updater.flash.layout = s.updater.flash.layout ∧
      ((∀ x, s.updater.flash.layout.applicationSize.toNat ≤ x →
          e.state.updater.flash.stored x = s.updater.flash.stored x) ∨
        (Programmer.Reserves (firstWord (s.streamed image r)) s.updater.flash
            e.state.updater.flash ∧
          ∃ commits c, e.state.updater.commits = commits ++ s.updater.commits ∧ c ∈ commits ∧
            c.start = 0 ∧ c.data = (s.streamed image r).take g.eraseSize)) := by
  obtain ⟨-, commits, p, hc, blocks, chip, layout, -⟩ :=
    Stream.meet_blocks small r.demand_short (follows.faithful small) (meet_of_exchange answer)
  obtain ⟨calm, hl, kept⟩ := blocks.reserves small quiet
  have same : e.state.updater.flash.stored = p.stored := by
    funext x
    rw [Programmer.stored, Programmer.stored, chip]
  refine ⟨by rw [chip]; exact calm, layout.trans hl, ?_⟩
  obtain kept | ⟨moved, c, hm, at_zero⟩ := kept
  · exact .inl fun x hx => by rw [same]; exact kept x hx
  · exact .inr ⟨moved.trans (.kept fun x _ => congrFun same x) hl, commits, c, hc, hm, at_zero⟩

theorem Follows.reserved (follows : s.Follows flash image) (small : g.eraseSize < addressSpace)
    (quiet : flash.chip.Quiet) :
    s.updater.flash.chip.Quiet ∧ s.updater.flash.layout = flash.layout ∧
      ∀ x, flash.layout.applicationSize.toNat ≤ x →
        (∀ slot, flash.layout.slot = some slot →
          x ≠ slot.address.toNat ∧ x ≠ slot.address.toNat + 1) →
        s.updater.flash.stored x = flash.stored x := by
  -- By the requests so far; each keeps all but the slot.
  induction follows with
  | start board children logger =>
    rw [start_updater]
    exact ⟨quiet, rfl, fun _ _ _ => rfl⟩
  | exchange s image r e before answer ih =>
    obtain ⟨calm, layout, kept⟩ := ih
    obtain ⟨calm', layout', step⟩ := exchange_reserves before small calm answer
    refine ⟨calm', layout'.trans layout, fun x hx apart => ?_⟩
    rw [← kept x hx apart]
    rw [← layout] at hx
    obtain same | ⟨same | ⟨slot, word, slotted, movable, stored⟩, -⟩ := step
    · exact same x hx
    · exact same x hx
    · obtain ⟨low, high⟩ := apart slot (layout ▸ slotted)
      rw [stored x hx, VectorSlot.holding, if_neg low, if_neg high]

/-- Whatever is sent, called directly or fails, no byte past the end of the writable part changes,
not even for a moment. Without faults no request changes a byte between the application and that
end either, except that the commit of block zero of an image puts the image's vector into the
slot. -/
theorem loader_region_kept {flash : Programmer g} :
    (∀ u, Updater.Driven flash u → ∃ events,
      u.flash.chip.events = events ++ flash.chip.events ∧
      u.flash.chip.memory = Event.replay flash.chip.memory events ∧
      ∀ later earlier, events = later ++ earlier → ∀ x, flash.layout.writableEnd.toNat ≤ x →
        (Event.replay flash.chip.memory earlier).read x = flash.stored x) ∧
    (g.eraseSize < addressSpace → flash.chip.Quiet → ∀ s image, Follows flash s image →
      (∀ x, flash.layout.applicationSize.toNat ≤ x →
        (∀ slot, flash.layout.slot = some slot →
          x ≠ slot.address.toNat ∧ x ≠ slot.address.toNat + 1) →
        s.updater.flash.stored x = flash.stored x) ∧
      ∀ r e, s.exchange r = .ok e →
        (∀ x, flash.layout.applicationSize.toNat ≤ x →
          e.state.updater.flash.stored x = s.updater.flash.stored x) ∨
        ∃ slot word commits c, flash.layout.slot = some slot ∧
          slot.toSlot (firstWord (s.streamed image r)) = some word ∧
          e.state.updater.flash.HoldsVector slot word ∧
          e.state.updater.commits = commits ++ s.updater.commits ∧ c ∈ commits ∧
          c.start = 0 ∧ c.data = (s.streamed image r).take g.eraseSize) := by
  refine ⟨fun u driven => ?_, fun small quiet s image follows => ?_⟩
  · obtain ⟨events, journal⟩ := driven.journal
    refine ⟨events, journal.events_eq, journal.memory_eq, ?_⟩
    rintro later earlier rfl x hx
    exact journal.writable.before.read_replay (.inr hx)
  · obtain ⟨calm, layout, kept⟩ := follows.reserved small quiet
    refine ⟨kept, fun r e answer => ?_⟩
    obtain ⟨-, -, same | ⟨moved, commits, c, hc, hm, at_zero⟩⟩ :=
      exchange_reserves follows small calm answer
    · rw [layout] at same
      exact .inl same
    · cases moved with
      | kept stored =>
        rw [layout] at stored
        exact .inl stored
      | moved slot word slotted movable stored =>
        have behind := s.updater.flash.sound.application_le_slot slot slotted
        exact .inr ⟨slot, word, commits, c, layout ▸ slotted, movable,
          Programmer.holdsVector_of_holding fun x hx => stored x (Nat.le_trans behind hx),
          hc, hm, at_zero⟩

/-- Four bytes that begin with a jump, and a reserved byte in the block of the slot: the block is
erased, and afterwards the slot has the jump, the reserved byte is back and the loader is what it
was. -/
theorem loader_region_kept_fourBytes :
    ∃ (flash : Programmer .small) (s : Session .small) (r : Request)
      (e : Exchanged (Session .small)), flash.layout = ⟨4, 8, some ⟨6, Relocation.relativeJump⟩⟩ ∧
      s.Follows flash [] ∧ s.exchange r = .ok e ∧
      .done (.erase 4) ∈ e.state.updater.flash.chip.events ∧
      (∀ x, 8 ≤ x → e.state.updater.flash.stored x = flash.stored x) ∧
      e.state.updater.flash.stored 5 = 0x55 ∧
      e.state.updater.flash.HoldsVector ⟨6, Relocation.relativeJump⟩ 0xc00f := by
  let flash : Programmer .small :=
    { chip := { Chip.erased .small with
        memory := (Memory.erased _).store 0 [0xff, 0xcb, 0xff, 0xff, 0xff, 0x55] }
      layout := ⟨4, 8, some ⟨6, Relocation.relativeJump⟩⟩
      completedErases := 0
      sound := Layout.verdict_eq_ok_iff.1 (by decide) }
  let r : Request := .sealed .crc8 1 .writeFlash (addressBytes 0 ++ [0x12, 0xc0, 3, 4])
  have demand : r.demand = .write 0 [0x12, 0xc0, 3, 4] :=
    Request.sealed_demand (by decide) (by decide)
  obtain ⟨s, follows, hs⟩ := exists_follows flash
  have streamed : s.streamed [] r = [0x12, 0xc0, 3, 4] := by
    rw [Session.streamed, demand, hs]
    decide
  obtain ⟨⟨report, u⟩, extend, good⟩ := exists_ok_of_any
    (x := (Updater.idle flash).extend 0 [0x12, 0xc0, 3, 4])
    (p := fun a => decide (.done (.erase 4) ∈ a.2.flash.chip.events ∧ a.2.flash.stored 6 = 0x0f))
    (by decide +kernel)
  obtain ⟨erased, taken⟩ := of_decide_eq_true good
  have met : s.updater.meet r.demand = .ok u := by
    rw [hs, demand, Updater.meet, extend]
    rfl
  obtain ⟨e, answer, rfl⟩ := exchange_of_meet met
  have kept := @loader_region_kept _ flash
  obtain ⟨events, -, memory, past⟩ := kept.1 _ (.extend _ .idle _ _ _ _ extend)
  have calm := kept.2 (by decide) ⟨rfl, rfl⟩
  obtain ⟨beside, -⟩ := calm _ _ (follows.exchange s [] r e answer)
  refine ⟨flash, s, r, e, rfl, follows, answer, erased, fun x hx => ?_, ?_, ?_⟩
  · rw [Programmer.stored, Chip.read, memory]
    exact past [] events rfl x hx
  · exact beside 5 (by decide) fun slot slotted => by
      cases slotted
      decide
  · obtain same | ⟨slot, word, -, -, slotted, moved, holds, -⟩ := (calm s [] follows).2 r e answer
    · -- The slot was erased before.
      have := taken.symm.trans (same 6 (by decide))
      rw [hs] at this
      exact absurd this (by decide)
    · cases slotted
      rw [streamed] at moved
      cases moved
      exact holds

end Session

end FieldUpdate
