import FieldUpdate.Proofs.Blocks
import FieldUpdate.Proofs.Splitting

namespace FieldUpdate

theorem setBits_lt {bits : UInt16} {i : Nat} (h : i ∈ setBits bits) : i < 16 :=
  List.mem_range.1 (List.mem_filter.1 h).1

theorem le_condenseBits (bits : UInt16) : 0x10 ≤ condenseBits bits := by
  unfold condenseBits
  split
  · exact UInt8.le_refl _
  · rename_i first rest some_bits
    have := setBits_lt (i := first) (by rw [some_bits]; exact List.mem_cons_self)
    rw [UInt8.le_iff_toNat_le, Nat.toUInt8_eq, UInt8.toNat_ofNat']
    change 16 ≤ _
    omega

namespace Programmer

variable {g : Geometry} {p p₁ p' : Programmer g} {start : Nat} {data : Bytes} {bits : UInt16}
  {e : FlashError} {report : Except FlashError BlockOutcome}

def Refuses (p : Programmer g) (data : Bytes) : Prop :=
  ∃ slot, p.layout.slot = some slot ∧ slot.toSlot (firstWord data) = none

theorem commit_unsupported_iff (placed : p.Placed start data) (small : g.eraseSize < addressSpace) :
    stop? (p.commit start data) = some (.failure .unsupportedVector) ↔
      start = 0 ∧ 2 ≤ g.eraseSize ∧ p.Refuses data := by
  rw [stop?_eq_failure_iff]
  constructor
  · rintro ⟨p', commit⟩
    cases committed_of_commit placed small commit with
    | plain _ _ fixed update => cases update
    | vectorFailed slot word e _ slotted zero whole movable vector => cases vector
    | moved slot word o p₁ _ _ slotted zero whole movable vector update => cases update
    | unsupported slot slotted zero unmovable =>
      subst zero
      refine ⟨rfl, ?_, slot, slotted, unmovable⟩
      -- A block of one byte is torn before its vector is looked at.
      have pos := p.sound.eraseSize_pos
      refine Classical.byContradiction fun one => ?_
      cases (commit_torn placed slotted small (by omega) fun two => absurd two one).symm.trans commit
  · rintro ⟨rfl, two, slot, slotted, unmovable⟩
    exact ⟨p, commit_unmovable placed slotted two unmovable⟩

/-- Between two moments the last operation met a fault with these bits. -/
def Faulted (p p' : Programmer g) (bits : UInt16) : Prop :=
  ∃ op between, p'.chip.events = .completed :: .faulted op bits :: (between ++ p.chip.events)

theorem Faulted.after (h : p₁.Faulted p' bits) {added : List Event}
    (events : p₁.chip.events = added ++ p.chip.events) : p.Faulted p' bits := by
  obtain ⟨op, between, last⟩ := h
  exact ⟨op, between ++ added, by rw [last, events, List.append_assoc]⟩

theorem Updated.events {target : Nat → UInt8} (h : Updated p start target report p') :
    ∃ added, p'.chip.events = added ++ p.chip.events := by
  cases h with
  | held same => exact ⟨[], rfl⟩
  | written _ layout stored events => exact ⟨_, events⟩
  | refused _ small layout stored events => exact ⟨[_], events⟩
  | eraseFailed _ bits layout stored events => exact ⟨[_, _], events⟩
  | pageFailed _ bits k bound layout stored events => exact ⟨_ :: _ :: _, events⟩

theorem Updated.faulted {target : Nat → UInt8} (h : Updated p start target (.error e) p')
    (size : start + g.eraseSize ≤ g.size) : ∃ bits, e = .hardware bits ∧ p.Faulted p' bits := by
  cases h with
  | refused _ small layout stored events => omega
  | eraseFailed _ bits layout stored events => exact ⟨bits, rfl, _, [], events⟩
  | pageFailed _ bits k bound layout stored events => exact ⟨bits, rfl, _, _, events⟩

theorem Committed.events (h : Committed p start data report p') :
    ∃ added, p'.chip.events = added ++ p.chip.events := by
  cases h with
  | plain _ _ fixed update => exact update.events
  | unsupported slot slotted zero unmovable => exact ⟨[], rfl⟩
  | vectorFailed slot word e _ slotted zero whole movable vector => exact vector.events
  | moved slot word o p₁ _ _ slotted zero whole movable vector update =>
    obtain ⟨first, he⟩ := vector.events
    obtain ⟨later, he'⟩ := update.events
    exact ⟨later ++ first, by rw [he', he, List.append_assoc]⟩

/-- On a part that has all that may be written, a commit fails with its vector or with a fault. -/
theorem Committed.failed (h : Committed p start data (.error e) p') (placed : p.Placed start data)
    (small : g.eraseSize < addressSpace) (size : p.layout.writableEnd.toNat ≤ g.size) :
    e = .unsupportedVector ∨ ∃ bits, e = .hardware bits ∧ p.Faulted p' bits := by
  have inside := Nat.le_trans (placed.inside small) size
  cases h with
  | unsupported slot slotted zero unmovable => exact .inl rfl
  | plain _ _ fixed update => exact .inr (update.faulted inside)
  | vectorFailed slot word e _ slotted zero whole movable vector =>
    exact .inr (vector.faulted (Nat.le_trans (slot_block_inside slotted small) size))
  | moved slot word o p₁ _ _ slotted zero whole movable vector update =>
    subst zero
    obtain ⟨bits, he, faulted⟩ := update.faulted inside
    obtain ⟨added, events⟩ := vector.events
    exact .inr ⟨bits, he, faulted.after events⟩

end Programmer

theorem Stop.AtFront.unsupported {g : Geometry} (small : g.eraseSize < addressSpace) :
    (Stop.failure .unsupportedVector).AtFront g := fun _ _ _ placed h =>
  ((Programmer.commit_unsupported_iff placed small).1 h).1

namespace Stream

variable {g : Geometry} {s s' : Stream g} {report : Except FlashError Unit} {e : FlashError}

theorem Step.events (step : Step s report s') (small : g.eraseSize < addressSpace)
    (ready : s.updater.Ready) :
    ∃ added, s'.updater.flash.chip.events = added ++ s.updater.flash.chip.events := by
  obtain ⟨chip, -⟩ | ⟨data, outcome, placed, committed⟩ := step.flash_cases small ready
  · exact ⟨[], by rw [chip]; rfl⟩
  · exact committed.events

theorem Step.failed (step : Step s (.error e) s') (small : g.eraseSize < addressSpace)
    (ready : s.updater.Ready) :
    ∃ data, s.updater.flash.Placed s.updater.completed data ∧
      Programmer.Committed s.updater.flash s.updater.completed data (.error e)
        s'.updater.flash := by
  generalize failure : Except.error e = report at step
  cases step with
  | stage u accepted b room short => cases failure
  | complete u accepted b outcome flash room full commit => cases failure
  | tally u accepted => cases failure
  | rewind u accepted b e' flash room full commit =>
    cases failure
    have placed := u.placed_full b ready room full
    have hd := Programmer.committed_of_commit placed small commit
    rw [← Updater.completed_of_full full] at placed hd
    exact ⟨_, placed, hd⟩
  | flush u accepted outcome flash tail commit =>
    cases outcome with
    | ok outcome => cases failure
    | error e' =>
      cases failure
      have placed := u.placed_tail ready tail
      exact ⟨_, placed, Programmer.committed_of_commit placed small commit⟩

theorem Runs.failed (runs : Runs s (.error e) s') (small : g.eraseSize < addressSpace)
    (coherent : s.Coherent) (size : s.updater.flash.layout.writableEnd.toNat ≤ g.size) :
    e = .unsupportedVector ∨
      ∃ bits, e = .hardware bits ∧ s.updater.flash.Faulted s'.updater.flash bits := by
  cases runs with
  | stopped between e _ steps last =>
    have first := Runs.done between steps
    have kept := (Path.runs s .refl _ _ first).coherent small coherent
    have layout := (Path.runs s .refl _ _ first).layout_eq small coherent
    obtain ⟨-, added, events⟩ := first.keeps
      (P := fun t => t.Coherent ∧
        ∃ added, t.updater.flash.chip.events = added ++ s.updater.flash.chip.events)
      (fun ht step => by
        obtain ⟨ht, added, events⟩ := ht
        obtain ⟨more, events'⟩ := step.events small ht.ready
        exact ⟨step.coherent small ht, more ++ added, by rw [events', events, List.append_assoc]⟩)
      ⟨coherent, [], rfl⟩
    obtain ⟨data, placed, committed⟩ := last.failed small kept.ready
    obtain vector | ⟨bits, he, faulted⟩ := committed.failed placed small (by rw [layout]; exact size)
    · exact .inl vector
    · exact .inr ⟨bits, he, faulted.after events⟩

end Stream

namespace Updater

variable {g : Geometry} {u u' : Updater g} {demand : Demand} {e : FlashError}

inductive Fails (u : Updater g) : Demand → FlashError → Updater g → Prop
  | write (address : Nat) (data : Bytes) (e : FlashError) (u' : Updater g)
      (answer : u.extend address data = .ok (.error (.flash e), u')) :
      Fails u (.write address data) e u'
  | finish (e : FlashError) (u' : Updater g) (answer : u.finish = .ok (.error e, u')) :
      Fails u .finish e u'

/-- The demand commits block zero, and the vector there cannot be moved. -/
def Refuses (u : Updater g) (demand : Demand) : Prop :=
  ∃ front, u.front demand = some front ∧ u.flash.Refuses front

theorem Fails.cases (h : u.Fails demand e u') (short : demand.Short)
    (small : g.eraseSize < addressSpace) (ready : u.Ready)
    (size : u.flash.layout.writableEnd.toNat ≤ g.size) :
    e = .unsupportedVector ∨ ∃ bits, e = .hardware bits ∧ u.flash.Faulted u'.flash bits := by
  cases h with
  | write address data e u' answer =>
    have coherent := ready.coherent.begun address
    have length : data.length < 0x100000000 := Nat.lt_of_le_of_lt (Nat.le_add_left _ _) short
    have runs := Stream.extend_runs small (fun _ _ => length) coherent answer
    have flash := Stream.begun_flash ⟨u, List.replicate u.cursor 0⟩ address
    have failed := runs.failed small coherent (by rw [flash]; exact size)
    rw [flash] at failed
    exact failed
  | finish e u' answer =>
    exact (Stream.finish_runs ready.coherent answer).failed small ready.coherent size

theorem fails_unsupported_iff (short : demand.Short) (small : g.eraseSize < addressSpace)
    (ready : u.Ready) :
    (∃ u', u.Fails demand .unsupportedVector u') ↔ 2 ≤ g.eraseSize ∧ u.Refuses demand := by
  -- Both sides speak of the commit of block zero, if the demand comes to one.
  have refused : (∃ front, u.front demand = some front ∧
      stop? (u.flash.commit 0 front) = some (.failure .unsupportedVector)) ↔
      2 ≤ g.eraseSize ∧ u.Refuses demand := by
    constructor
    · rintro ⟨front, due, h⟩
      rw [Programmer.commit_unsupported_iff (ready.placed_front due) small] at h
      exact ⟨h.2.1, front, due, h.2.2⟩
    · rintro ⟨two, front, due, refuses⟩
      refine ⟨front, due, ?_⟩
      rw [Programmer.commit_unsupported_iff (ready.placed_front due) small]
      exact ⟨rfl, two, refuses⟩
  rw [← refused]
  cases demand with
  | write address data =>
    rw [← extend_stop_iff (.unsupported small) small ready short, writeStop?_eq_failure_iff]
    constructor
    · rintro ⟨u', fails⟩
      cases fails with
      | write _ _ _ _ answer => exact ⟨u', answer⟩
    · rintro ⟨u', answer⟩
      exact ⟨u', .write address data _ u' answer⟩
  | finish =>
    rw [← finish_stop_iff (.unsupported small) ready, stop?_eq_failure_iff]
    constructor
    · rintro ⟨u', fails⟩
      cases fails with
      | finish _ _ answer => exact ⟨u', answer⟩
    · rintro ⟨u', answer⟩
      exact ⟨u', .finish _ u' answer⟩
  | nothing =>
    constructor
    · rintro ⟨_, ⟨⟩⟩
    · rintro ⟨front, due, -⟩
      cases due

theorem Refuses.crash (h : u.Refuses demand) (short : demand.Short)
    (small : g.eraseSize < addressSpace) (ready : u.Ready) (one : g.eraseSize = 1) : u.meet demand = .error .outOfBounds := by
  obtain ⟨front, due, slot, slotted, -⟩ := h
  exact (meet_crash_iff small ready short).2
    ⟨rfl, front, due, slot, slotted, by omega, fun two => by omega⟩

end Updater

namespace Session

variable {g : Geometry} {s : Session g}

theorem fails_of_exchange {r : Request} {payload said : Bytes} {e : Exchanged (Session g)}
    {capacity : Nat}
    (brings : r.Brings .writeFlash payload capacity ∨ r.Brings .finalizeFlash payload capacity)
    (answer : s.exchange r = .ok e) (failed : e.Answers r .failed said) :
    ∃ error, s.updater.Fails r.demand error e.state.updater ∧
      said = (flashAnswer error r.capacity).written := by
  obtain brings | brings := brings
  · rw [brings.demand]
    cases wrote_of_exchange brings answer with
    | malformed _ short same answer' => cases (failed.inj answer').1
    | extended high low data report extend answer' =>
      obtain ⟨status, written⟩ := failed.inj answer'
      rcases report with (_ | _ | error) | progress
      · cases status
      · cases status
      · exact ⟨error, .write _ _ error _ extend, written⟩
      · cases status
  · rw [brings.demand]
    cases ended_of_exchange brings answer with
    | malformed _ nonempty same answer' => cases (failed.inj answer').1
    | failed error finish answer' => exact ⟨error, .finish error _ finish, (failed.inj answer').2⟩
    | untold progress u finish state full answer' => cases (failed.inj answer').1
    | told progress u finish state room answer' => cases (failed.inj answer').1

/-- On a part that has all that may be written, writes and ends of images fail with a vector that
cannot move or with the bits of a fault that they met, whatever came before. The end of what is
written is to be a 32-bit number; `Updater.extend_overlong` is a write that goes beyond it.
It is the vector exactly if block zero would be committed with one that cannot move; only blocks of a
single byte crash there. A host that leaves room for it is told the code of one of the two. -/
theorem no_internal_flash_error {flash : Programmer g} (small : g.eraseSize < addressSpace)
    (size : flash.layout.writableEnd.toNat ≤ g.size) :
    (∀ u accepted, Stream.Reached flash ⟨u, accepted⟩ → ∀ demand : Demand, demand.Short →
      (∀ e u', u.Fails demand e u' → (e = .unsupportedVector ∧ u.Refuses demand) ∨
        ∃ bits, e = .hardware bits ∧ u.flash.Faulted u'.flash bits) ∧
      ((∃ u', u.Fails demand .unsupportedVector u') ↔ 2 ≤ g.eraseSize ∧ u.Refuses demand) ∧
      (g.eraseSize = 1 → u.Refuses demand → u.meet demand = .error .outOfBounds)) ∧
    (∀ (s : Session g) image, s.Follows flash image → ∀ (r : Request) payload e said,
      r.Brings .writeFlash payload 1 ∨ r.Brings .finalizeFlash payload 1 →
      s.exchange r = .ok e → e.Answers r .failed said →
        ∃ code, said = [code] ∧ (code = 2 ∨ 0x10 ≤ code)) := by
  refine ⟨fun u accepted reached demand short => ?_,
    fun s image follows r payload e said brings answer failed => ?_⟩
  · obtain ⟨faithful, layout⟩ := reached.faithful small
    have ready : u.Ready := faithful.coherent.ready
    have unsupported := Updater.fails_unsupported_iff short small ready
    refine ⟨fun e u' fails => ?_, unsupported, fun one refuses => refuses.crash short small ready one⟩
    obtain rfl | fault := fails.cases short small ready (by rw [layout]; exact size)
    · exact .inl ⟨rfl, (unsupported.1 ⟨u', fails⟩).2⟩
    · exact .inr fault
  · have ready : s.updater.Ready := (follows.faithful small).coherent.ready
    have layout : s.updater.flash.layout = flash.layout :=
      (follows.path small).layout_eq small (Stream.faithful_idle flash).coherent
    obtain ⟨error, fails, written⟩ := fails_of_exchange brings answer failed
    have some_room : r.capacity ≠ 0 := Nat.ne_of_gt (brings.elim (·.capacity_le) (·.capacity_le))
    refine ⟨error.code, ?_, ?_⟩
    · rw [written, flashAnswer, if_neg some_room]
    · obtain rfl | ⟨bits, rfl, -⟩ := fails.cases r.demand_short small ready (by rw [layout]; exact size)
      · exact .inl rfl
      · exact .inr (le_condenseBits bits)

/-- Block zero with an instruction that is no relative jump fails for it. -/
theorem no_internal_flash_error_noJump :
    ∃ u', (Updater.idle (.small [])).Fails (.write 0 [0x0c, 0x94, 3, 4]) .unsupportedVector u' := by
  have refuses : (Updater.idle (.small [])).Refuses (.write 0 [0x0c, 0x94, 3, 4]) :=
    ⟨[0x0c, 0x94, 3, 4], by decide, ⟨6, Relocation.relativeJump⟩, rfl, by decide⟩
  have small : Geometry.small.eraseSize < addressSpace := by decide
  have size : (Programmer.small []).layout.writableEnd.toNat ≤ Geometry.small.size := by decide
  obtain ⟨-, unsupported, -⟩ := (no_internal_flash_error small size).1 _ _ .idle
    (.write 0 [0x0c, 0x94, 3, 4]) (by decide)
  exact unsupported.2 ⟨by decide, refuses⟩

/-- With blocks of one byte the same instruction does not fail: a write of its first byte has no
answer. -/
theorem extend_single_byte_block :
    ∃ flash : Programmer ⟨16, 1, 1, by decide, by decide⟩,
      flash.layout.writableEnd.toNat ≤ 16 ∧ (Updater.idle flash).Refuses (.write 0 [0x0c, 0x94]) ∧
      (Updater.idle flash).extend 0 [0x0c, 0x94] = .error .outOfBounds := by
  let flash : Programmer ⟨16, 1, 1, by decide, by decide⟩ :=
    ⟨Chip.erased _, ⟨4, 16, some ⟨4, Relocation.relativeJump⟩⟩, 0,
      Layout.verdict_eq_ok_iff.1 (by decide)⟩
  have front : (Updater.idle flash).front (.write 0 [0x0c, 0x94]) = some [0x0c] := by decide
  refine ⟨flash, by decide, ⟨_, front, _, rfl, by decide⟩, ?_⟩
  rw [Updater.extend_crash_iff (by decide) (Updater.idle_ready flash) (by decide)]
  exact ⟨rfl, _, front, _, rfl, by decide, fun two => absurd two (by decide)⟩

end Session

namespace Updater

/-- A write of `2^32` bytes ends, to a 32-bit sum, where it begins. What stops it is its third block,
which may not be written. -/
theorem extend_overlong {rest : Bytes} (long : 12 + rest.length = 0x100000000) :
    ∃ u', (Updater.idle (.small [])).extend 0
        ([0x12, 0xc0, 3, 4, 5, 6, 7, 8, 9, 10, 11, 12] ++ rest) =
          .ok (.error (.flash .outOfRange), u') ∧ u'.cursor = 8 := by
  obtain ⟨⟨report, u'⟩, taken, good⟩ := exists_ok_of_any
    (x := (Updater.idle (.small [])).feed [0x12, 0xc0, 3, 4, 5, 6, 7, 8, 9, 10, 11, 12])
    (p := fun a => decide (a.1 = .error .outOfRange ∧ a.2.cursor = 8)) (by decide +kernel)
  obtain ⟨rfl, cursor⟩ := of_decide_eq_true good
  have wraps : dataEnd 0 ([0x12, 0xc0, 3, 4, 5, 6, 7, 8, 9, 10, 11, 12] ++ rest).length = .ok 0 := by
    rw [List.length_append]
    exact congrArg (dataEnd 0) long
  have fed : (Updater.idle (.small [])).feed
      ([0x12, 0xc0, 3, 4, 5, 6, 7, 8, 9, 10, 11, 12] ++ rest) = .ok (.error .outOfRange, u') := by
    rw [feed_append, taken]
    rfl
  have begun : { Updater.idle (.small []) with cursor := 0 } = Updater.idle (.small []) := rfl
  refine ⟨u', ?_, cursor⟩
  rw [extend, wraps, if_pos rfl, begun, fed]
  rfl

end Updater

end FieldUpdate
