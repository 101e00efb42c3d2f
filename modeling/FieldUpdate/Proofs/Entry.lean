import FieldUpdate.Proofs.Blocks
import FieldUpdate.Proofs.Journal
import FieldUpdate.Proofs.Vector

namespace FieldUpdate

structure Memory.HoldsVector {size : Nat} (m : Memory size) (slot : VectorSlot) (word : UInt16) :
    Prop where
  low : m.read slot.address.toNat = lowByte word
  high : m.read (slot.address.toNat + 1) = highByte word

def Operation.block (op : Operation) (eraseSize : Nat) : Nat := op.address - op.address % eraseSize

theorem Operation.block_of_mem {op : Operation} {n start : Nat} (aligned : start % n = 0)
    (lo : start ≤ op.address) (hi : op.address < start + n) : op.block n = start := by
  obtain ⟨i, hi', h⟩ : ∃ i < n, op.address = start + i := ⟨op.address - start, by omega, by omega⟩
  rw [block, h, Nat.add_mod, aligned, Nat.zero_add, Nat.mod_mod, Nat.mod_eq_of_lt hi']
  omega

namespace Event

variable {g : Geometry} {slot : VectorSlot} {word : UInt16} {m : Memory g.size}
  {events earlier later : List Event}

/-- Outside of the slot's block, operations were started only while the slot had this word. -/
def Attended (slot : VectorSlot) (word : UInt16) (m : Memory g.size) : List Event → Prop
  | [] => True
  | e :: earlier => Attended slot word m earlier ∧
      ∀ op, e.started? = some op → op.block g.eraseSize ≠ slot.block g.eraseSize →
        (replay m earlier).HoldsVector slot word

theorem Attended.append (h : Attended slot word m earlier)
    (h' : Attended slot word (replay m earlier) later) :
    Attended slot word m (later ++ earlier) := by
  induction later with
  | nil => exact h
  | cons e later ih =>
    refine ⟨ih h'.1, fun op hs other => ?_⟩
    change (replay m (later ++ earlier)).HoldsVector slot word
    rw [replay_append]
    exact h'.2 op hs other

theorem Attended.before {e : Event} (h : Attended slot word m (later ++ e :: earlier))
    {op : Operation} (hs : e.started? = some op)
    (other : op.block g.eraseSize ≠ slot.block g.eraseSize) :
    (replay m earlier).HoldsVector slot word := by
  induction later with
  | nil => exact h.2 op hs other
  | cons _ later ih => exact ih h.1

theorem attended_of_within {start : Nat} (aligned : start % g.eraseSize = 0)
    (within : Within g start (start + g.eraseSize) events)
    (holds : start ≠ slot.block g.eraseSize →
      slot.address.toNat % g.eraseSize + 2 ≤ g.eraseSize ∧ m.HoldsVector slot word) :
    Attended slot word m events := by
  induction events with
  | nil => trivial
  | cons e earlier ih =>
    have rest : Within g start (start + g.eraseSize) earlier :=
      fun e he => within e (List.mem_cons_of_mem _ he)
    refine ⟨ih rest, fun op hs other => ?_⟩
    obtain ⟨lo, nonempty, hi⟩ := within e List.mem_cons_self op hs
    rw [op.block_of_mem aligned lo (Nat.lt_of_lt_of_le nonempty hi)] at other
    obtain ⟨whole, held⟩ := holds other
    have apart {x : Nat} := slot.outside_of_ne (x := x) aligned whole other
    refine ⟨?_, ?_⟩
    · rw [rest.read_replay (apart (Nat.le_refl _) (Nat.le_succ _)), held.low]
    · rw [rest.read_replay (apart (Nat.le_succ _) (Nat.le_refl _)), held.high]

end Event

namespace Programmer

variable {g : Geometry} {p p' : Programmer g} {slot : VectorSlot} {word : UInt16} {start : Nat}
  {data image : Bytes} {report : Except FlashError BlockOutcome}

theorem HoldsVector.memory (h : p.HoldsVector slot word) : p.chip.memory.HoldsVector slot word :=
  ⟨h.low, h.high⟩

theorem Placed.le_slot_block (placed : p.Placed start data) (slotted : p.layout.slot = some slot) :
    start ≤ slot.block g.eraseSize := by
  have := placed.nonempty
  have := placed.le_application
  have := p.sound.application_le_slot slot slotted
  have := slot.block_add g.eraseSize
  have := Nat.mod_lt slot.address.toNat p.sound.eraseSize_pos
  refine Nat.le_of_not_lt fun behind => ?_
  have := add_le_of_aligned (slot.block_aligned g.eraseSize) placed.aligned behind
  omega

/-- What an answered commit of block zero did, in order: nothing if the vector cannot move, else an
update of the slot's block, and behind it one of block zero if the slot took the vector. -/
theorem commit_zero_cases (h : p.commit 0 data = .ok (report, p')) (placed : p.Placed 0 data)
    (slotted : p.layout.slot = some slot) (small : g.eraseSize < addressSpace) :
    (slot.toSlot (firstWord data) = none ∧ report = .error .unsupportedVector ∧ p' = p) ∨
      ∃ word vector p₁, slot.toSlot (firstWord data) = some word ∧
        slot.address.toNat % g.eraseSize + 2 ≤ g.eraseSize ∧
        p.updateBlock (slot.block g.eraseSize)
          (gather (slot.holding word p.stored) (slot.block g.eraseSize) g.eraseSize) =
            .ok (vector, p₁) ∧
        ((∃ e, vector = .error e ∧ p' = p₁) ∨
          (p₁.HoldsVector slot word ∧
            p₁.updateBlock 0 (gather (p₁.wanted 0 data) 0 g.eraseSize) = .ok (report, p'))) := by
  -- Over a torn slot there is an answer only if the vector cannot move.
  by_cases torn : ¬slot.address.toNat % g.eraseSize + 2 ≤ g.eraseSize
  · by_cases unmovable : 2 ≤ g.eraseSize ∧ slot.toSlot (firstWord data) = none
    · cases (commit_unmovable placed slotted unmovable.1 unmovable.2).symm.trans h
      exact .inl ⟨unmovable.2, rfl, rfl⟩
    · cases (commit_torn placed slotted small torn fun two hn => unmovable ⟨two, hn⟩).symm.trans h
  · have whole := Classical.not_not.1 torn
    cases movable : slot.toSlot (firstWord data) with
    | none =>
      cases (commit_unmovable placed slotted (by omega) movable).symm.trans h
      exact .inl ⟨rfl, rfl, rfl⟩
    | some word =>
      rw [commit_moving placed slotted small whole movable] at h
      obtain ⟨vector, p₁, stored, update⟩ := p.updateBlock_spec (slot.holding word p.stored)
        (slot.block_aligned g.eraseSize) (slot_block_inside slotted small)
      rw [stored] at h
      refine .inr ⟨word, vector, p₁, rfl, whole, stored, ?_⟩
      cases vector with
      | error e =>
        cases h
        exact .inl ⟨e, rfl, rfl⟩
      | ok outcome =>
        -- The slot has the word by then, and the second update reads flash after the first.
        have holding := Committed.stored_holding whole update
        have kept := keepReserved_moved placed (by omega) p₁ (by rw [update.layout_eq, slotted]; rfl)
        rw [← kept]
        exact .inr ⟨holdsVector_of_holding fun x _ => congrFun holding x, h⟩

/-- A commit touches other blocks than the slot's only while the slot has the word: that of block
zero puts it there first, and a later one starts with it. -/
theorem commit_attended (h : p.commit start data = .ok (report, p')) (placed : p.Placed start data)
    (slotted : p.layout.slot = some slot) (small : g.eraseSize < addressSpace)
    (moves : start = 0 → 2 ≤ g.eraseSize → slot.toSlot (firstWord data) = some word)
    (holds : start ≠ 0 → start < slot.block g.eraseSize →
      slot.address.toNat % g.eraseSize + 2 ≤ g.eraseSize ∧ p.HoldsVector slot word) :
    ∃ events, Journal p events p' ∧ Event.Attended slot word p.chip.memory events := by
  by_cases zero : start = 0
  · subst zero
    obtain ⟨-, -, rfl⟩ | ⟨word', vector, p₁, movable, whole, stored, rest⟩ :=
      commit_zero_cases h placed slotted small
    · exact ⟨[], .refl _, trivial⟩
    · cases (moves rfl (by omega)).symm.trans movable
      obtain ⟨events, journal, within⟩ := updateBlock_journal stored
      -- The slot's own block may be touched whatever the slot has.
      have attended : Event.Attended slot word p.chip.memory events :=
        Event.attended_of_within (slot.block_aligned _) within fun other => absurd rfl other
      obtain ⟨e, -, rfl⟩ | ⟨held, update⟩ := rest
      · exact ⟨events, journal, attended⟩
      · obtain ⟨events', journal', within'⟩ := updateBlock_journal update
        refine ⟨events' ++ events, journal.trans journal', attended.append ?_⟩
        rw [← journal.memory_eq]
        exact Event.attended_of_within (Nat.zero_mod _) within' fun _ => ⟨whole, held.memory⟩
  · -- A later block lies before the slot's, so the slot has the word already.
    rw [commit_plain placed (.inr zero)] at h
    obtain ⟨events, journal, within⟩ := updateBlock_journal h
    refine ⟨events, journal, Event.attended_of_within placed.aligned within fun other => ?_⟩
    obtain ⟨whole, held⟩ :=
      holds zero (Nat.lt_of_le_of_ne (placed.le_slot_block slotted) other)
    exact ⟨whole, held.memory⟩

theorem Blocks.attended {commits : List Commit} (h : Blocks image start p commits p')
    (slotted : p.layout.slot = some slot) (small : g.eraseSize < addressSpace)
    (movable : slot.toSlot (firstWord image) = some word)
    (holds : start ≠ 0 → start < slot.block g.eraseSize →
      slot.address.toNat % g.eraseSize + 2 ≤ g.eraseSize ∧ p.HoldsVector slot word) :
    ∃ events, Journal p events p' ∧ Event.Attended slot word p.chip.memory events := by
  have moves {start : Nat} {data : Bytes} (part : data = (image.drop start).take g.eraseSize)
      (zero : start = 0) (two : 2 ≤ g.eraseSize) : slot.toSlot (firstWord data) = some word := by
    rw [part, zero, List.drop_zero, firstWord_take two]
    exact movable
  induction h with
  | done start p => exact ⟨[], .refl p, trivial⟩
  | failed start data e p p' placed part commit =>
    exact commit_attended commit placed slotted small (moves part) holds
  | next start data outcome p p₁ later p' placed part commit rest ih =>
    have hd := committed_of_commit placed small commit
    obtain ⟨events, journal, attended⟩ :=
      commit_attended commit placed slotted small (moves part) holds
    -- Block zero puts the word into the slot, and other blocks before the slot's keep it there.
    have next (_ : start + g.eraseSize ≠ 0) (ahead : start + g.eraseSize < slot.block g.eraseSize) :
        slot.address.toNat % g.eraseSize + 2 ≤ g.eraseSize ∧ p₁.HoldsVector slot word := by
      by_cases zero : start = 0
      · obtain ⟨whole, word', moved, held⟩ := hd.vector_of_ok placed slotted zero
        cases (moves part zero (by omega)).symm.trans moved
        exact ⟨whole, held⟩
      · obtain ⟨whole, held⟩ := holds zero (by omega)
        exact ⟨whole, hd.holdsVector_of_apart placed zero whole (by omega) held⟩
    obtain ⟨events', journal', attended'⟩ := ih (by rw [hd.layout_eq]; exact slotted) next
    refine ⟨events' ++ events, journal.trans journal', attended.append ?_⟩
    rw [← journal.memory_eq]
    exact attended'

theorem Blocks.unsupported {commits : List Commit} (h : Blocks image 0 p commits p')
    (slotted : p.layout.slot = some slot) (small : g.eraseSize < addressSpace)
    (unmovable : slot.toSlot (firstWord image) = none) :
    p' = p ∧ (commits = [] ∨
      commits = [⟨0, image.take g.eraseSize, .error .unsupportedVector⟩]) := by
  have refused {data : Bytes} {report : Except FlashError BlockOutcome} {p' : Programmer g}
      (part : data = (image.drop 0).take g.eraseSize)
      (placed : p.Placed 0 data) (commit : p.commit 0 data = .ok (report, p')) :
      report = .error .unsupportedVector ∧ p' = p := by
    obtain ⟨-, hr, hp⟩ | ⟨word, -, -, movable, whole, -⟩ :=
      commit_zero_cases commit placed slotted small
    · exact ⟨hr, hp⟩
    · rw [part, List.drop_zero, firstWord_take (by omega), unmovable] at movable
      cases movable
  cases h with
  | done => exact ⟨rfl, .inl rfl⟩
  | failed _ data e _ p' placed part commit =>
    obtain ⟨hr, rfl⟩ := refused part placed commit
    cases hr
    exact ⟨rfl, .inr (by rw [part]; rfl)⟩
  | next _ data outcome _ p₁ later p' placed part commit rest =>
    cases (refused part placed commit).1

end Programmer

namespace Stream

variable {g : Geometry} {slot : VectorSlot} {s s' : Stream g} {report : Except FlashError Unit}

/-- Once block zero is complete, the vector of what was accepted can move and is in the slot, but
that the commit of the slot's block may lose it. -/
structure Enters (slot : VectorSlot) (s : Stream g) : Prop where
  slotted : s.updater.flash.layout.slot = some slot
  vector : s.updater.completed ≠ 0 → slot.address.toNat % g.eraseSize + 2 ≤ g.eraseSize ∧
    ∃ word, slot.toSlot (firstWord s.accepted) = some word ∧
      (s.updater.completed < slot.block g.eraseSize → s.updater.flash.HoldsVector slot word)

theorem Enters.restarted (h : s.Enters slot) : s.restarted.Enters slot :=
  ⟨h.slotted, fun later => absurd (Nat.zero_sub _) later⟩

theorem Step.enters (step : Step s report s') (small : g.eraseSize < addressSpace)
    (h : s.Faithful) (enters : s.Enters slot) : s'.Enters slot := by
  have ready := h.coherent.ready
  have hlen := h.coherent.length
  have slotted : s'.updater.flash.layout.slot = some slot := by
    rw [step.layout_eq small ready]
    exact enters.slotted
  refine ⟨slotted, fun later => ?_⟩
  -- Behind block zero, no block before the slot's takes the word away.
  have behind (before : s.updater.completed ≠ 0)
      (same : 2 ≤ s.accepted.length → firstWord s'.accepted = firstWord s.accepted) :
      slot.address.toNat % g.eraseSize + 2 ≤ g.eraseSize ∧
        ∃ word, slot.toSlot (firstWord s'.accepted) = some word ∧
          (s'.updater.completed < slot.block g.eraseSize →
            s'.updater.flash.HoldsVector slot word) := by
    obtain ⟨whole, word, moved, holds⟩ := enters.vector before
    have := Updater.le_cursor_of_completed before
    refine ⟨whole, word, by rw [same (by omega)]; exact moved, fun ahead => ?_⟩
    have ahead := Nat.lt_of_le_of_lt step.completed_le ahead
    obtain ⟨chip, -⟩ | ⟨data, outcome, placed, committed⟩ := step.flash_cases small ready
    · obtain ⟨low, high⟩ := holds ahead
      unfold Programmer.stored at low high
      rw [← chip] at low high
      exact ⟨low, high⟩
    · exact committed.holdsVector_of_apart placed before whole (Nat.ne_of_lt ahead) (holds ahead)
  cases step with
  | stage u accepted b room short =>
    simp only [u.completed_staging b short] at later
    exact behind later firstWord_append
  | complete u accepted b outcome flash room full commit =>
    by_cases zero : u.cursor + 1 - g.eraseSize = 0
    · obtain ⟨whole, word, moved, holds⟩ :=
        h.vector_of_first small enters.slotted room full zero commit
      exact ⟨whole, word, moved, fun _ => holds⟩
    · exact behind (by rw [Updater.completed_of_full full]; exact zero) firstWord_append
  | rewind u accepted b e flash room full commit =>
    have placed := u.placed_full b ready room full
    have later : u.cursor + 1 - g.eraseSize ≠ 0 :=
      fun zero => later ((Updater.completed_of_aligned placed.aligned).trans zero)
    refine behind (by rw [Updater.completed_of_full full]; exact later) fun _ => ?_
    -- What is left of the image has its first word, as it has a whole block.
    have := Nat.le_of_dvd (Nat.pos_of_ne_zero later) (Nat.dvd_of_mod_eq_zero placed.aligned)
    obtain ⟨whole, -⟩ := enters.vector (by
      rw [Updater.completed_of_full full]
      exact later)
    exact firstWord_take (by omega)
  | flush u accepted outcome flash tail commit => exact behind later fun _ => rfl
  | tally u accepted => exact behind later fun _ => rfl

/-- The image that a demand goes on with has its vector in the slot, however far it goes. -/
theorem Enters.streamed (enters : s.Enters slot) (h : s.Faithful) {demand : Demand}
    (later : (s.demanded demand).updater.completed ≠ 0) :
    slot.address.toNat % g.eraseSize + 2 ≤ g.eraseSize ∧
      ∃ word, slot.toSlot (firstWord (s.streamed demand)) = some word ∧
        ((s.demanded demand).updater.completed < slot.block g.eraseSize →
          s.updater.flash.HoldsVector slot word) := by
  have hlen := h.coherent.length
  cases demand with
  | nothing => exact enters.vector later
  | finish => exact enters.vector later
  | write address data =>
    have same : s.begun address = s := by
      refine if_neg fun zero => later ?_
      rw [demanded, begun, if_pos zero]
      exact Nat.zero_sub _
    rw [demanded, same] at later ⊢
    obtain ⟨whole, word, moved, holds⟩ := enters.vector later
    have := Updater.le_cursor_of_completed later
    refine ⟨whole, word, ?_, holds⟩
    rw [Stream.streamed, same]
    split
    · rw [firstWord_append (by omega)]
      exact moved
    · exact moved

end Stream

namespace Session

variable {g : Geometry} {flash : Programmer g} {slot : VectorSlot} {s : Session g} {image : Bytes}

theorem Follows.enters (h : s.Follows flash image) (small : g.eraseSize < addressSpace)
    (slotted : flash.layout.slot = some slot) : Stream.Enters slot ⟨s.updater, image⟩ :=
  ((h.path small).keeps (P := fun t => t.Faithful ∧ t.Enters slot)
    (fun ht => ⟨ht.1.coherent.faithful_restarted, ht.2.restarted⟩)
    (fun ht step => ⟨step.faithful small ht.1, step.enters small ht.1 ht.2⟩)
    ⟨Stream.faithful_idle flash, slotted, fun later => absurd (Nat.zero_sub _) later⟩).2

theorem exchange_unsupported {r : Request} {e : Exchanged (Session g)}
    (small : g.eraseSize < addressSpace) (slotted : flash.layout.slot = some slot)
    (follows : s.Follows flash image) (answer : s.exchange r = .ok e)
    (unmovable : slot.toSlot (firstWord (s.streamed image r)) = none) :
    e.state.updater.flash.chip = s.updater.flash.chip ∧
      ∃ commits, e.state.updater.commits = commits ++ s.updater.commits ∧
        (commits = [] ∨
          commits = [⟨0, (s.streamed image r).take g.eraseSize, .error .unsupportedVector⟩]) ∧
        (g.eraseSize ≤ (s.streamed image r).length ∨
          (r.demand = .finish ∧ s.streamed image r ≠ []) → commits ≠ []) := by
  have faithful := follows.faithful small
  have enters := follows.enters small slotted
  obtain ⟨-, commits, p, hc, blocks, chip, -, reach⟩ :=
    Stream.meet_blocks small r.demand_short faithful (meet_of_exchange answer)
  -- Block zero is not complete, as the vector would have moved with it.
  have zero : (Stream.demanded ⟨s.updater, image⟩ r.demand).updater.completed = 0 := by
    refine Classical.not_not.1 fun later => ?_
    obtain ⟨-, word, moved, -⟩ := enters.streamed faithful later
    cases unmovable.symm.trans moved
  rw [zero] at blocks reach
  obtain ⟨rfl, tried⟩ := blocks.unsupported enters.slotted small unmovable
  refine ⟨chip, commits, hc, tried, fun due empty => ?_⟩
  obtain ⟨short, rest⟩ := reach empty
  obtain whole | ⟨finish, some_bytes⟩ := due
  · unfold streamed at whole
    omega
  · have rest := rest finish
    rw [finish] at zero
    change s.updater.completed = 0 at zero
    rw [zero] at rest
    exact some_bytes (List.eq_nil_of_length_eq_zero (Nat.le_zero.1 rest))

theorem exchange_attended {r : Request} {e : Exchanged (Session g)} {word : UInt16}
    (small : g.eraseSize < addressSpace) (slotted : flash.layout.slot = some slot)
    (follows : s.Follows flash image) (answer : s.exchange r = .ok e)
    (movable : slot.toSlot (firstWord (s.streamed image r)) = some word) :
    ∃ events commits,
      e.state.updater.flash.chip.events = events ++ s.updater.flash.chip.events ∧
      e.state.updater.flash.chip.memory = Event.replay s.updater.flash.chip.memory events ∧
      e.state.updater.commits = commits ++ s.updater.commits ∧
      Event.Attended slot word s.updater.flash.chip.memory events := by
  have faithful := follows.faithful small
  have enters := follows.enters small slotted
  obtain ⟨-, commits, p, hc, blocks, chip, -⟩ :=
    Stream.meet_blocks small r.demand_short faithful (meet_of_exchange answer)
  have holds (later : (Stream.demanded ⟨s.updater, image⟩ r.demand).updater.completed ≠ 0)
      (ahead : (Stream.demanded ⟨s.updater, image⟩ r.demand).updater.completed <
        slot.block g.eraseSize) :
      slot.address.toNat % g.eraseSize + 2 ≤ g.eraseSize ∧
        s.updater.flash.HoldsVector slot word := by
    obtain ⟨whole, word', moved, held⟩ := enters.streamed faithful later
    cases movable.symm.trans moved
    exact ⟨whole, held ahead⟩
  obtain ⟨events, journal, attended⟩ := blocks.attended enters.slotted small movable holds
  rw [chip]
  exact ⟨events, commits, journal.events_eq, journal.memory_eq, hc, attended⟩

/-- While the vector cannot move, only blocks of one byte keep a request from being answered: such a
block ends before the vector does. -/
theorem exchange_crash_iff_of_unmovable {r : Request} {crash : Crash}
    (small : g.eraseSize < addressSpace) (slotted : flash.layout.slot = some slot)
    (follows : s.Follows flash image)
    (unmovable : slot.toSlot (firstWord (s.streamed image r)) = none) :
    s.exchange r = .error crash ↔
      crash = .outOfBounds ∧ g.eraseSize = 1 ∧ (s.updater.front r.demand).isSome := by
  have faithful := follows.faithful small
  have enters := follows.enters small slotted
  rw [exchange_crash_iff small faithful.coherent.ready]
  constructor
  · rintro ⟨hx, front, hf, slot', slotted', torn, moves⟩
    cases enters.slotted.symm.trans slotted'
    refine ⟨hx, ?_, by rw [hf]; rfl⟩
    have pos := flash.sound.eraseSize_pos
    refine Classical.not_not.1 fun one => moves (by omega) ?_
    rw [Stream.front_eq faithful hf, firstWord_take (by omega)]
    exact unmovable
  · rintro ⟨hx, one, due⟩
    obtain ⟨front, hf⟩ := Option.isSome_iff_exists.1 due
    exact ⟨hx, front, hf, slot, enters.slotted, by omega, fun two => by omega⟩

/-- The entry is in place before the application is touched. Whatever is sent and whatever fails,
an operation on another block than the slot's is started only while the slot has the vector of the
image that is being streamed. While that vector cannot move, no operation is started and nothing
but block zero is committed, which fails; only with blocks of one byte there is no answer. -/
theorem entry_before_application (small : g.eraseSize < addressSpace)
    (slotted : flash.layout.slot = some slot) (follows : s.Follows flash image) (r : Request) :
    (∀ e, s.exchange r = .ok e → ∃ events commits,
      e.state.updater.flash.chip.events = events ++ s.updater.flash.chip.events ∧
      e.state.updater.flash.chip.memory = Event.replay s.updater.flash.chip.memory events ∧
      e.state.updater.commits = commits ++ s.updater.commits ∧
      (∀ later event earlier op, events = later ++ event :: earlier → event.started? = some op →
        op.block g.eraseSize ≠ slot.block g.eraseSize →
          ∃ word, slot.toSlot (firstWord (s.streamed image r)) = some word ∧
            (Event.replay s.updater.flash.chip.memory earlier).HoldsVector slot word) ∧
      (slot.toSlot (firstWord (s.streamed image r)) = none →
        events = [] ∧
        (commits = [] ∨
          commits = [⟨0, (s.streamed image r).take g.eraseSize, .error .unsupportedVector⟩]) ∧
        (g.eraseSize ≤ (s.streamed image r).length ∨
          (r.demand = .finish ∧ s.streamed image r ≠ []) → commits ≠ []))) ∧
    (slot.toSlot (firstWord (s.streamed image r)) = none → ∀ crash,
      s.exchange r = .error crash ↔
        crash = .outOfBounds ∧ g.eraseSize = 1 ∧ (s.updater.front r.demand).isSome) := by
  refine ⟨fun e answer => ?_, fun unmovable crash =>
    exchange_crash_iff_of_unmovable small slotted follows unmovable⟩
  cases movable : slot.toSlot (firstWord (s.streamed image r)) with
  | none =>
    obtain ⟨chip, commits, hc, tried, due⟩ :=
      exchange_unsupported small slotted follows answer movable
    refine ⟨[], commits, by rw [chip]; rfl, by rw [chip]; rfl, hc, ?_, fun _ => ⟨rfl, tried, due⟩⟩
    intro later event earlier op none
    simp at none
  | some word =>
    obtain ⟨events, commits, added, cells, hc, attended⟩ :=
      exchange_attended small slotted follows answer movable
    refine ⟨events, commits, added, cells, hc, ?_, nofun⟩
    rintro later event earlier op rfl hs other
    exact ⟨word, rfl, attended.before hs other⟩

/-- Four bytes that begin with a jump: by the time block zero is erased, the slot has the jump. -/
theorem entry_before_application_fourBytes :
    ∃ (s : Session .small) (r : Request) (e : Exchanged (Session .small))
      (later earlier : List Event), s.Follows (.small []) [] ∧ s.exchange r = .ok e ∧
      e.state.updater.flash.chip.events = later ++ .done (.erase 0) :: earlier ∧
      (Event.replay s.updater.flash.chip.memory earlier).HoldsVector
        ⟨6, Relocation.relativeJump⟩ 0xc00f := by
  let r : Request := .sealed .crc8 1 .writeFlash (addressBytes 0 ++ [0x12, 0xc0, 3, 4])
  have demand : r.demand = .write 0 [0x12, 0xc0, 3, 4] :=
    Request.sealed_demand (by decide) (by decide)
  obtain ⟨s, follows, hs⟩ := exists_follows (.small [])
  have streamed : s.streamed [] r = [0x12, 0xc0, 3, 4] := by
    rw [Session.streamed, demand, hs]
    decide
  obtain ⟨u, met, good⟩ := exists_ok_of_any
    (x := (Updater.idle (.small [])).meet (.write 0 [0x12, 0xc0, 3, 4]))
    (p := fun u => u.flash.chip.events = [.completed, .done (.program 2 [3, 4]), .completed,
      .done (.program 0 [0xff, 0xcb]), .completed] ++ .done (.erase 0) ::
        [.completed, .done (.program 6 [0x0f, 0xc0]), .completed, .done (.erase 4)])
    (by decide +kernel)
  have told := of_decide_eq_true good
  rw [← hs, ← demand] at met
  obtain ⟨e, answer, rfl⟩ := exchange_of_meet met
  have slotted : (Programmer.small []).layout.slot = some ⟨6, Relocation.relativeJump⟩ := rfl
  obtain ⟨events, commits, added, -, -, attended, -⟩ :=
    (entry_before_application (by decide) slotted follows r).1 e answer
  have none : s.updater.flash.chip.events = [] := by
    rw [hs]
    rfl
  rw [none, List.append_nil] at added
  obtain ⟨word, moved, holds⟩ := attended _ _ _ (.erase 0) (added.symm.trans told) rfl (by decide)
  rw [streamed] at moved
  cases moved
  exact ⟨s, r, e, _, _, follows, answer, told, holds⟩

/-- Blocks of one byte end before the vector does, so a write has no answer, though its vector cannot
move. -/
theorem exchange_single_byte_blocks :
    ∃ (slot : VectorSlot) (flash : Programmer ⟨16, 1, 1, by decide, by decide⟩)
      (s : Session ⟨16, 1, 1, by decide, by decide⟩) (r : Request),
      flash.layout.slot = some slot ∧ s.Follows flash [] ∧
      slot.toSlot (firstWord (s.streamed [] r)) = none ∧ s.exchange r = .error .outOfBounds := by
  let slot : VectorSlot := ⟨4, Relocation.relativeJump⟩
  let flash : Programmer ⟨16, 1, 1, by decide, by decide⟩ :=
    ⟨Chip.erased _, ⟨4, 16, some slot⟩, 0, Layout.verdict_eq_ok_iff.1 (by decide)⟩
  let r : Request := .sealed .crc8 8 .writeFlash (addressBytes 0 ++ [0x0c, 0x94])
  have demand : r.demand = .write 0 [0x0c, 0x94] :=
    Request.sealed_demand (by decide) (by decide)
  obtain ⟨s, follows, hs⟩ := exists_follows flash
  refine ⟨slot, flash, s, r, rfl, follows, ?_, ?_⟩
  · rw [Session.streamed, demand, hs]
    decide
  · rw [exchange_crash_iff (by decide) (follows.faithful (by decide)).coherent.ready, demand, hs]
    exact ⟨rfl, [0x0c], by decide, slot, rfl, by decide, fun two => absurd two (by decide)⟩

end Session

end FieldUpdate
