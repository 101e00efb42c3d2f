import FieldUpdate.Proofs.Erases
import FieldUpdate.Proofs.Reentry
import FieldUpdate.Proofs.Discipline
import FieldUpdate.Proofs.Retransmission
import FieldUpdate.Proofs.WholeImage

namespace FieldUpdate

/-- To bring a block to what it is to hold, which may depend on what flash holds by then. -/
structure Update (g : Geometry) where
  start : Nat
  target : Memory g.size → Nat → UInt8

namespace Update

variable {g : Geometry} {m : Memory g.size} {us vs : List (Update g)}

def Held (u : Update g) (m : Memory g.size) : Prop :=
  ∀ i < g.eraseSize, m.read (u.start + i) = u.target m (u.start + i)

instance (u : Update g) (m : Memory g.size) : Decidable (u.Held m) :=
  inferInstanceAs (Decidable (∀ i < g.eraseSize, _))

theorem held_iff {u : Update g} : u.Held m ↔
    ∀ x, u.start ≤ x → x < u.start + g.eraseSize → m.read x = u.target m x :=
  forall_offset_iff (P := fun x => m.read x = u.target m x)

/-- What an update takes: nothing, or the erase of its block and the pages that are not blank. -/
def operations (u : Update g) (m : Memory g.size) : List Operation :=
  if u.Held m then [] else refill g (u.target m) u.start (g.eraseSize / g.writeSize)

def carryOut (m : Memory g.size) : List (Update g) → List Operation
  | [] => []
  | u :: rest => u.operations m ++ carryOut (Operation.applyAll m (u.operations m)) rest

theorem carryOut_append : carryOut m (us ++ vs) =
    carryOut m us ++ carryOut (Operation.applyAll m (carryOut m us)) vs := by
  induction us generalizing m with
  | nil => rfl
  | cons u rest ih =>
    rw [List.cons_append, carryOut, carryOut, ih, List.append_assoc, Operation.applyAll_append]

theorem carryOut_singleton (u : Update g) : carryOut m [u] = u.operations m := List.append_nil _

theorem carryOut_of_held (held : ∀ u ∈ us, u.Held m) : carryOut m us = [] := by
  induction us with
  | nil => rfl
  | cons u rest ih =>
    have none : u.operations m = [] := if_pos (held u List.mem_cons_self)
    rw [carryOut, none]
    exact ih fun u h => held u (List.mem_cons_of_mem _ h)

end Update

def imageBlock (eraseSize : Nat) (image : Bytes) (k : Nat) : Bytes :=
  (image.drop (k * eraseSize)).take eraseSize

def blockCount (eraseSize : Nat) (image : Bytes) : Nat := (image.length + eraseSize - 1) / eraseSize

theorem blockCount_eq {n count : Nat} {image : Bytes} (above : image.length ≤ count * n)
    (below : count * n < image.length + n) : blockCount n image = count := by
  apply Nat.div_eq_of_lt_le
  · omega
  · rw [Nat.succ_mul]
    omega

namespace Programmer

open Update (carryOut carryOut_append carryOut_singleton carryOut_of_held)

variable {g : Geometry} {flash p p' : Programmer g} {image : Bytes} {k count : Nat}

def vectorUpdates (p : Programmer g) (image : Bytes) : List (Update g) :=
  match p.layout.slot with
  | none => []
  | some slot =>
    match slot.toSlot (firstWord image) with
    | none => []
    | some word => [⟨slot.block g.eraseSize, fun m => slot.holding word m.read⟩]

def blockUpdate (p : Programmer g) (image : Bytes) (k : Nat) : Update g :=
  ⟨k * g.eraseSize, fun m =>
    (p.withMemory m).wanted (k * g.eraseSize) (imageBlock g.eraseSize image k)⟩

def commitUpdates (p : Programmer g) (image : Bytes) (k : Nat) : List (Update g) :=
  (if k = 0 then p.vectorUpdates image else []) ++ [p.blockUpdate image k]

/-- The updates that the first blocks of an image stand for. -/
def updates (p : Programmer g) (image : Bytes) (count : Nat) : List (Update g) :=
  (List.range count).flatMap (p.commitUpdates image)

theorem updates_succ (p : Programmer g) (image : Bytes) (count : Nat) :
    p.updates image (count + 1) = p.updates image count ++ p.commitUpdates image count := by
  rw [updates, List.range_succ, List.flatMap_append, List.flatMap_singleton]
  rfl

theorem updateBlock_did (u : Update g) {target : Nat → UInt8}
    (same : u.target p.chip.memory = target) (quiet : p.chip.Quiet)
    (aligned : u.start % g.eraseSize = 0)
    (inside : u.start + g.eraseSize ≤ p.layout.writableEnd.toNat)
    (size : p.layout.writableEnd.toNat ≤ g.size) :
    ∃ outcome p', p.updateBlock u.start (gather target u.start g.eraseSize) =
      .ok (.ok outcome, p') ∧ p.Did (u.operations p.chip.memory) p' := by
  subst same
  have addresses := Nat.le_trans inside p.sound.writable_le
  by_cases held : u.Held p.chip.memory
  · refine ⟨.unchanged, p, updateBlock_of_held addresses (Update.held_iff.1 held), ?_⟩
    rw [Update.operations, if_pos held]
    exact .refl quiet
  · rw [updateBlock_of_differs addresses (mt Update.held_iff.2 held), Update.operations, if_neg held,
      refillBlock_of_quiet aligned inside (Nat.le_trans inside size) quiet]
    exact ⟨.written, _, rfl, rfl, quiet, rfl, rfl⟩

/-- An image that a part can take: there is room for it, some block holds the slot's word in full,
and its vector can move there. -/
structure Takes (p : Programmer g) (image : Bytes) : Prop where
  small : g.eraseSize < addressSpace
  size : p.layout.writableEnd.toNat ≤ g.size
  room : image.length ≤ p.layout.applicationSize.toNat
  whole : p.layout.SlotFits g.eraseSize
  movable : ∀ slot, p.layout.slot = some slot → slot.toSlot (firstWord image) ≠ none

theorem Takes.of_layout (h : p.Takes image) (layout : p'.layout = p.layout) : p'.Takes image := by
  obtain ⟨small, size, room, whole, movable⟩ := h
  rw [← layout] at size room whole movable
  exact ⟨small, size, room, whole, movable⟩

theorem commit_did (takes : p.Takes image) (layout : p.layout = flash.layout) (quiet : p.chip.Quiet)
    (placed : p.Placed (k * g.eraseSize) (imageBlock g.eraseSize image k)) :
    ∃ outcome p', p.commit (k * g.eraseSize) (imageBlock g.eraseSize image k) =
      .ok (.ok outcome, p') ∧ p.Did (carryOut p.chip.memory (flash.commitUpdates image k)) p' := by
  have block {p : Programmer g} (layout : p.layout = flash.layout) :
      (flash.blockUpdate image k).target p.chip.memory =
        p.wanted (k * g.eraseSize) (imageBlock g.eraseSize image k) :=
    wanted_withMemory layout _ _
  have inside := placed.inside takes.small
  -- Beside block zero of a part with a slot a commit is one update, there it is two.
  by_cases fixed : p.layout.slot = none ∨ k * g.eraseSize ≠ 0
  · have alone : flash.commitUpdates image k = [flash.blockUpdate image k] := by
      rw [commitUpdates, vectorUpdates, ← layout]
      obtain unslotted | later := fixed
      · rw [unslotted, ite_self]
        rfl
      · rw [if_neg fun zero => later (by rw [zero, Nat.zero_mul])]
        rfl
    rw [commit_plain placed fixed, alone, carryOut_singleton]
    exact updateBlock_did (flash.blockUpdate image k) (block layout) quiet placed.aligned inside
      takes.size
  · obtain ⟨slotted, zero⟩ := not_or.1 fixed
    obtain ⟨slot, slotted⟩ := Option.ne_none_iff_exists'.1 slotted
    obtain rfl : k = 0 := (Nat.mul_eq_zero.1 (Classical.not_not.1 zero)).resolve_right
      (Nat.ne_of_gt p.sound.eraseSize_pos)
    have whole := takes.whole slot slotted
    obtain ⟨word, moved⟩ := Option.ne_none_iff_exists'.1 (takes.movable slot slotted)
    have first : firstWord (imageBlock g.eraseSize image 0) = firstWord image := by
      rw [imageBlock, Nat.zero_mul, List.drop_zero, firstWord_take (by omega)]
    have both : flash.commitUpdates image 0 =
        [⟨slot.block g.eraseSize, fun m => slot.holding word m.read⟩] ++
          [flash.blockUpdate image 0] := by
      rw [commitUpdates, vectorUpdates, ← layout, slotted]
      simp only [moved]
      rfl
    obtain ⟨vector, p₁, stored, did⟩ := updateBlock_did (p := p)
      ⟨slot.block g.eraseSize, fun m => slot.holding word m.read⟩ rfl quiet (slot.block_aligned _)
      (slot_block_inside slotted takes.small) takes.size
    have layout₁ := did.layout_eq
    -- The second update starts from what the first one left.
    obtain ⟨outcome, p₂, update, did'⟩ := updateBlock_did (flash.blockUpdate image 0)
      (block (layout₁.trans layout)) did.quiet placed.aligned (by rw [layout₁]; exact inside)
      (by rw [layout₁]; exact takes.size)
    refine ⟨outcome, p₂, ?_, ?_⟩
    · have start : (flash.blockUpdate image 0).start = 0 := Nat.zero_mul _
      rw [start] at update
      rw [Nat.zero_mul] at placed update ⊢
      rw [commit_moving placed slotted takes.small whole (by rw [first]; exact moved)]
      have kept := keepReserved_moved placed (by omega) p₁ (by rw [layout₁, slotted]; rfl)
      have stored : p.updateBlock (slot.block g.eraseSize)
        (gather (slot.holding word p.stored) (slot.block g.eraseSize) g.eraseSize) = _ := stored
      rw [stored, ← update, ← kept]
      rfl
    · rw [both, carryOut_append, carryOut_singleton, carryOut_singleton, ← did.memory_eq]
      exact did.trans did'

/-- Flash with the first blocks of an image: nothing was done but what their updates take, and they
are settled. -/
structure Brought (flash : Programmer g) (image : Bytes) (count : Nat) (p : Programmer g) :
    Prop where
  did : flash.Did (carryOut flash.chip.memory (flash.updates image count)) p
  settled : ∀ k < count, p.Settled (k * g.eraseSize) (imageBlock g.eraseSize image k)

theorem Brought.next (h : flash.Brought image k p) (takes : flash.Takes image)
    (placed : p.Placed (k * g.eraseSize) (imageBlock g.eraseSize image k)) :
    ∃ outcome p', p.commit (k * g.eraseSize) (imageBlock g.eraseSize image k) =
      .ok (.ok outcome, p') ∧ flash.Brought image (k + 1) p' := by
  have layout := h.did.layout_eq
  obtain ⟨outcome, p', commit, did⟩ := commit_did (takes.of_layout layout) layout h.did.quiet placed
  refine ⟨outcome, p', commit, ?_, fun j hj => ?_⟩
  · rw [updates_succ, carryOut_append, ← h.did.memory_eq]
    exact h.did.trans did
  · obtain earlier | rfl := Nat.lt_succ_iff_lt_or_eq.1 hj
    · exact (h.settled j earlier).later (Nat.mul_mod_left _ _)
        (Nat.mul_lt_mul_of_pos_right earlier p.sound.eraseSize_pos) placed commit
    · exact settled_of_commit placed commit

theorem Brought.takeErases (h : flash.Brought image count p) :
    flash.Brought image count p.takeErases.2 where
  did := ⟨h.did.layout_eq, h.did.quiet, h.did.events_eq, h.did.memory_eq⟩
  settled k hk := (h.settled k hk).takeErases

/-- Settled blocks are as they are to be, and so is the slot if block zero is one of them. -/
theorem held_of_settled
    (settled : ∀ k < count, p.Settled (k * g.eraseSize) (imageBlock g.eraseSize image k)) :
    ∀ u ∈ p.updates image count, u.Held p.chip.memory := by
  intro u hu
  obtain ⟨k, hk, hu⟩ := List.mem_flatMap.1 hu
  have block := settled k (List.mem_range.1 hk)
  -- The update is the one of the vector, in block zero alone, or the one of the block.
  obtain vector | own := List.mem_append.1 hu
  · split at vector
    · rename_i zero
      subst zero
      unfold vectorUpdates at vector
      split at vector
      · cases vector
      · rename_i slot slotted
        split at vector
        · cases vector
        · rename_i word moved
          obtain ⟨-, whole, word', moved', holds⟩ := block.vector slot slotted (Nat.zero_mul _)
          rw [imageBlock, Nat.zero_mul, List.drop_zero, firstWord_take (by omega), moved] at moved'
          cases moved'
          cases List.mem_singleton.1 vector
          exact fun i _ => (congrFun holds.holding_eq _).symm
    · cases vector
  · cases List.mem_singleton.1 own
    exact Update.held_iff.2 block.block

end Programmer

namespace Updater

variable {g : Geometry} {flash : Programmer g} {u : Updater g} {image accepted data : Bytes}
  {k : Nat}

theorem feed_brought (takes : flash.Takes image) (brought : flash.Brought image k u.flash)
    (faithful : Stream.Faithful ⟨u, accepted⟩) (place : u.completed = k * g.eraseSize)
    (whole : accepted ++ data = image) :
    ∃ u' count, u.feed data = .ok (.ok (), u') ∧ Stream.Faithful ⟨u', image⟩ ∧
      u'.completed = count * g.eraseSize ∧ flash.Brought image count u'.flash := by
  -- By the bytes; `k` blocks are complete so far, and each full one is the next.
  induction data generalizing u accepted k with
  | nil =>
    rw [List.append_nil] at whole
    subst whole
    exact ⟨u, k, rfl, faithful, place, brought⟩
  | cons b rest ih =>
    rw [← List.singleton_append, ← List.append_assoc] at whole
    have ready : u.Ready := faithful.coherent.ready
    have hlen : accepted.length = u.cursor := faithful.coherent.length
    have room : u.cursor < u.flash.layout.applicationSize.toNat := by
      have := takes.room
      rw [brought.did.layout_eq, ← hlen]
      rw [← whole, List.length_append, List.length_append, List.length_singleton] at this
      omega
    by_cases full : (u.cursor + 1) % g.eraseSize = 0
    · have start := completed_of_full full
      have part : (u.staging b).staged = imageBlock g.eraseSize image k := by
        rw [faithful.part_of_full b rest full, whole, place]
        rfl
      have placed := u.placed_full b ready room full
      rw [← start, place, part] at placed
      obtain ⟨outcome, p, commit, next⟩ := brought.next takes placed
      rw [← part, ← place, start] at commit
      have step := Stream.Step.complete u accepted b outcome p room full commit
      have place' : ((u.staging b).committing (u.cursor + 1 - g.eraseSize) (u.staging b).staged
          (.ok outcome) p).completed = (k + 1) * g.eraseSize := by
        rw [u.completed_committing b full, place, Nat.succ_mul]
      obtain ⟨u', count, fed, later⟩ := ih next (step.faithful takes.small faithful) place' whole
      exact ⟨u', count, (feed_of_committed ready room full commit).trans fed, later⟩
    · have step := Stream.Step.stage u accepted b room full
      obtain ⟨u', count, fed, later⟩ := ih (u := u.staging b) brought
        (step.faithful takes.small faithful) ((u.completed_staging b full).trans place) whole
      exact ⟨u', count, (feed_cons_open room full).trans fed, later⟩

theorem finish_brought (takes : flash.Takes image) (brought : flash.Brought image k u.flash)
    (faithful : Stream.Faithful ⟨u, image⟩) (place : u.completed = k * g.eraseSize) :
    ∃ progress u', u.finish = .ok (.ok progress, u') ∧
      flash.Brought image (blockCount g.eraseSize image) u'.flash := by
  have ready : u.Ready := faithful.coherent.ready
  have hlen : image.length = u.cursor := faithful.coherent.length
  have pos := u.flash.sound.eraseSize_pos
  have below := Nat.mod_lt u.cursor pos
  by_cases aligned : u.cursor % g.eraseSize = 0
  · rw [completed_of_aligned aligned, ← hlen] at place
    rw [blockCount_eq (Nat.le_of_eq place) (by omega)]
    exact ⟨_, u, finish_whole aligned, brought⟩
  · -- What is staged of the last block is all that the image has for it.
    have tail : u.staged.take (u.cursor % g.eraseSize) = imageBlock g.eraseSize image k := by
      have ht : u.staged.take (u.cursor % g.eraseSize) = image.drop u.completed := faithful.tail
      rw [ht, imageBlock, ← place, List.take_of_length_le]
      rw [List.length_drop, hlen, completed]
      omega
    have placed : u.flash.Placed u.completed _ := u.placed_tail ready aligned
    rw [place, tail] at placed
    obtain ⟨outcome, p, commit, next⟩ := brought.next takes placed
    have count : blockCount g.eraseSize image = k + 1 := by
      have := Nat.mod_le u.cursor g.eraseSize
      rw [completed] at place
      apply blockCount_eq
      · rw [Nat.succ_mul]
        omega
      · rw [Nat.succ_mul]
        omega
    rw [finish_tail ready aligned, tail, place]
    simp only [commit]
    rw [count]
    exact ⟨_, _, rfl, next⟩

theorem Ready.extend_brought (ready : u.Ready) (takes : u.flash.Takes image)
    (quiet : u.flash.chip.Quiet) :
    ∃ progress u₁ progress' u₂, u.extend 0 image = .ok (.ok progress, u₁) ∧
      u₁.finish = .ok (.ok progress', u₂) ∧
      u.flash.Brought image (blockCount g.eraseSize image) u₂.flash := by
  have faithful : Stream.Faithful ⟨{ u with cursor := 0 }, []⟩ := ready.coherent.faithful_restarted
  have none : u.flash.Brought image 0 u.flash :=
    ⟨.refl quiet, fun _ h => absurd h (Nat.not_lt_zero _)⟩
  obtain ⟨u₁, count, fed, faithful₁, place, brought⟩ := feed_brought (u := { u with cursor := 0 })
    takes none faithful (by rw [completed, Nat.zero_sub, Nat.zero_mul]) rfl
  obtain ⟨progress', u₂, finish, brought'⟩ := finish_brought takes brought faithful₁ place
  exact ⟨_, u₁, progress', u₂, extend_zero_of_feed takes.room fed, finish, brought'⟩

/-- Over a torn slot an image crashes where block zero is committed, be it complete or the last. -/
theorem Ready.extend_torn (ready : u.Ready) (small : g.eraseSize < addressSpace)
    (room : image.length ≤ u.flash.layout.applicationSize.toNat) (some_bytes : 0 < image.length)
    {slot : VectorSlot} (slotted : u.flash.layout.slot = some slot)
    (torn : ¬slot.address.toNat % g.eraseSize + 2 ≤ g.eraseSize)
    (movable : slot.toSlot (firstWord image) ≠ none) :
    u.extend 0 image = .error .outOfBounds ∨ ∃ progress u₁, u.extend 0 image =
      .ok (.ok progress, u₁) ∧ u₁.finish = .error .outOfBounds := by
  have pos := u.flash.sound.eraseSize_pos
  have tears {front : Bytes} (first : 2 ≤ g.eraseSize → firstWord front = firstWord image) :
      u.flash.Tears front := ⟨slot, slotted, torn, fun two => by rw [first two]; exact movable⟩
  by_cases long : g.eraseSize ≤ image.length
  · have short : 0 + image.length < 0x100000000 := by
      rw [Nat.zero_add]
      exact short_of_room room
    refine .inl ((extend_crash_iff small ready short).2
      ⟨rfl, _, if_pos ⟨.inl rfl, by omega, pos, by omega⟩, tears fun two => ?_⟩)
    rw [List.take_zero, List.nil_append, Nat.sub_zero, firstWord_take two]
  · have begun : Ready { u with cursor := 0 } := ⟨ready.staged, Nat.zero_le _⟩
    obtain ⟨u₁, fed, ready₁, flash, cursor, staged⟩ := feed_short begun
      (show 0 + image.length < g.eraseSize by omega)
      (show 0 + image.length ≤ u.flash.layout.applicationSize.toNat by omega)
    have cursor : u₁.cursor = image.length := cursor.trans (Nat.zero_add _)
    have staged : u₁.staged.take u₁.cursor = image := staged
    refine .inr ⟨_, u₁, extend_zero_of_feed room fed, ?_⟩
    refine (finish_crash_iff small ready₁).2 ⟨rfl, _, if_pos ⟨by omega, by omega⟩, ?_⟩
    exact (tears fun _ => by rw [staged]).congr (by rw [flash]) fun _ => rfl

end Updater

namespace Session

open Update (carryOut carryOut_of_held)

variable {g : Geometry} {s : Session g} {image : Bytes} {writes : List Request} {final : Request}

/-- Chunks of an image and its end are taken and leave flash with the image's blocks, and the host
is told of the erases since their count was last taken. -/
theorem exchangeAll_brought (ready : s.updater.Ready) (takes : s.updater.flash.Takes image)
    (quiet : s.updater.flash.chip.Quiet) (some_bytes : 0 < image.length)
    (chunks : Chunks image 0 writes) (ends : final.Brings .finalizeFlash [] 1) :
    ∃ erases last, s.exchangeAll (writes ++ [final]) =
        .ok (writes.map Request.taken ++ [final.ended erases], last) ∧ last.updater.Ready ∧
      s.updater.flash.Brought image (blockCount g.eraseSize image) last.updater.flash ∧
      last.updater.flash.Tallied last.erasesDone ∧
      ∀ base, s.updater.flash.Tallied base →
        erases = (min 255 (last.erasesDone - base)).toUInt8 := by
  obtain ⟨progress, u₁, progress', u₂, extend, finish, brought⟩ := ready.extend_brought takes quiet
  obtain ⟨last, run, hl⟩ :=
    exchangeAll_whole chunks ends some_bytes (Nat.zero_le _) takes.room extend finish
  have done : last.erasesDone = u₂.flash.chip.erasesDone := by
    rw [erasesDone, hl]
    rfl
  have ready' := (ready.extend (fun _ failure => by cases failure) extend).finish finish
  refine ⟨_, last, run, ?_, ?_, ?_, fun base tallied => ?_⟩
  · rw [hl]
    exact ⟨ready'.staged, ready'.cursor⟩
  · rw [hl]
    exact brought.takeErases
  · rw [done, hl]
    exact u₂.flash.tallied_takeErases
  · have tallied₁ := Updater.kept_by_extend (Programmer.tallied_kept base) tallied extend
    have tallied₂ := Updater.kept_by_finish (Programmer.tallied_kept base) tallied₁ finish
    rw [done, tallied₂.count]

theorem exchangeAll_settled {flash : Programmer g} (ready : s.updater.Ready)
    (takes : s.updater.flash.Takes image) (some_bytes : 0 < image.length)
    (brought : flash.Brought image (blockCount g.eraseSize image) s.updater.flash)
    (tallied : s.updater.flash.Tallied s.erasesDone) (chunks : Chunks image 0 writes)
    (ends : final.Brings .finalizeFlash [] 1) :
    ∃ last, s.exchangeAll (writes ++ [final]) =
        .ok (writes.map Request.taken ++ [final.ended 0], last) ∧
      s.updater.flash.Did [] last.updater.flash := by
  obtain ⟨erases, last, run, -, again, -, told⟩ :=
    exchangeAll_brought ready takes brought.did.quiet some_bytes chunks ends
  have did := again.did
  rw [carryOut_of_held (Programmer.held_of_settled brought.settled)] at did
  have same : last.erasesDone = s.erasesDone := by
    rw [erasesDone, erasesDone, Chip.erasesDone, did.events_eq]
    rfl
  have none := told _ tallied
  rw [same, Nat.sub_self] at none
  subst none
  exact ⟨last, run, did⟩

/-- An image takes as few operations as it can. However it is cut into chunks, what is done to flash
is what its updates take, the slot's and then each block's: nothing where flash is already as it is
to be at that moment, and otherwise one erase and the pages that are not blank. Sent once more, in
any chunks, it takes nothing, and the host is told of no erases. Where no block holds the slot's
word in full, it crashes. -/
theorem erases_minimal (small : g.eraseSize < addressSpace) (reachable : s.Reachable)
    (quiet : s.updater.flash.chip.Quiet)
    (size : s.updater.flash.layout.writableEnd.toNat ≤ g.size) (some_bytes : 0 < image.length)
    (room : image.length ≤ s.updater.flash.layout.applicationSize.toNat)
    (movable : ∀ slot, s.updater.flash.layout.slot = some slot →
      slot.toSlot (firstWord image) ≠ none)
    (chunks : Chunks image 0 writes) (ends : final.Brings .finalizeFlash [] 1) :
    (s.updater.flash.layout.SlotFits g.eraseSize →
      ∃ erases last, s.exchangeAll (writes ++ [final]) =
          .ok (writes.map Request.taken ++ [final.ended erases], last) ∧
        s.updater.flash.Did
          (carryOut s.updater.flash.chip.memory
            (s.updater.flash.updates image (blockCount g.eraseSize image))) last.updater.flash ∧
        ∀ writes' final', Chunks image 0 writes' → final'.Brings .finalizeFlash [] 1 →
          ∃ last', last.exchangeAll (writes' ++ [final']) =
              .ok (writes'.map Request.taken ++ [final'.ended 0], last') ∧
            last.updater.flash.Did [] last'.updater.flash) ∧
    (¬s.updater.flash.layout.SlotFits g.eraseSize →
      s.exchangeAll (writes ++ [final]) = .error .outOfBounds) := by
  have ready := reachable.ready small
  constructor
  · intro whole
    have takes : s.updater.flash.Takes image := ⟨small, size, room, whole, movable⟩
    obtain ⟨erases, last, run, ready', brought, tallied, -⟩ :=
      exchangeAll_brought ready takes quiet some_bytes chunks ends
    refine ⟨erases, last, run, brought.did, fun writes' final' chunks' ends' => ?_⟩
    exact exchangeAll_settled ready' (takes.of_layout brought.did.layout_eq) some_bytes brought
      tallied chunks' ends'
  · intro split
    unfold Layout.SlotFits at split
    obtain ⟨slot, slotted, torn⟩ : ∃ slot, s.updater.flash.layout.slot = some slot ∧
        ¬slot.address.toNat % g.eraseSize + 2 ≤ g.eraseSize := by simpa using split
    exact exchangeAll_whole_crash chunks ends some_bytes (Nat.zero_le _) room
      (ready.extend_torn small room some_bytes slotted torn (movable slot slotted))

/-- Six bytes in two chunks and once more in one: the first time three blocks are erased, among them
the slot's twice, and the second time none is. -/
theorem erases_minimal_sixBytes :
    ∃ (s last last' : Session .small) (first second : List (Option Bytes)), s.Reachable ∧
      s.exchangeAll [.sealed .crc8 1 .writeFlash (addressBytes 0 ++ sixBytes.take 3),
          .sealed .crc16 9 .writeFlash (addressBytes 3 ++ sixBytes.drop 3),
          .sealed .crc8 1 .finalizeFlash []] = .ok (first, last) ∧
      last.updater.flash.chip.erases = 3 ∧
      last.exchangeAll [.sealed .crc16 1 .writeFlash (addressBytes 0 ++ sixBytes),
          .sealed .crc8 1 .finalizeFlash []] = .ok (second, last') ∧
      last'.updater.flash.chip.erases = 3 := by
  obtain ⟨s, reachable, hs⟩ := exists_reachable (.small [])
  have flash : s.updater.flash = .small [] := by
    rw [hs]
    rfl
  have ends : (Request.sealed .crc8 1 .finalizeFlash []).Brings .finalizeFlash [] 1 :=
    Request.sealed_brings (by decide) (by decide) (by decide)
  have whole : s.updater.flash.layout.SlotFits Geometry.small.eraseSize := by
    rw [flash]
    exact slotFits_small
  have movable : ∀ slot, s.updater.flash.layout.slot = some slot →
      slot.toSlot (firstWord sixBytes) ≠ none := by
    rw [flash]
    intro slot slotted
    cases slotted
    decide
  have inOne : Chunks sixBytes 0 [.sealed .crc16 1 .writeFlash (addressBytes 0 ++ sixBytes)] :=
    .chunk 0 _ sixBytes _ (by decide)
      (Request.sealed_brings (by decide) (by decide) (by decide)) .done
  obtain ⟨erases, last, first, did, again⟩ := (erases_minimal (by decide) reachable
    (by rw [flash]; exact ⟨rfl, rfl⟩) (by rw [flash]; decide) (by decide)
    (by rw [flash]; decide) movable sixBytes_chunks ends).1 whole
  obtain ⟨last', second, did'⟩ := again _ _ inOne ends
  have three : last.updater.flash.chip.erases = 3 := by
    rw [Chip.erases, did.events_eq, flash]
    decide +kernel
  refine ⟨s, last, last', _, _, reachable, first, three, second, ?_⟩
  rw [Chip.erases, did'.events_eq]
  exact three

/-- Blocks of fifteen bytes tear a slot at address 44, even if the slot has the image's vector
already and only block zero is due. -/
theorem exchangeAll_torn_held_slot :
    ∃ flash : Programmer ⟨150, 5, 15, by decide, by decide⟩,
      flash.layout = ⟨44, 60, some ⟨44, Relocation.relativeJump⟩⟩ ∧
      flash.stored 44 = 0xfc ∧ flash.stored 45 = 0xcf ∧
      (start .interface flash .none .disabled).exchangeAll
        [.sealed .crc8 8 .writeFlash
            (addressBytes 0 ++ [0x12, 0xc0, 3, 4, 5, 6, 7, 8, 9, 10, 11, 12, 13, 14, 15]),
          .sealed .crc8 8 .finalizeFlash []] = .error .outOfBounds := by
  let chip : Chip ⟨150, 5, 15, by decide, by decide⟩ :=
    { memory := ((Memory.erased 150).store 0 [0xff, 0xcb]).store 44 [0xfc, 0xcf] }
  let flash : Programmer ⟨150, 5, 15, by decide, by decide⟩ :=
    ⟨chip, ⟨44, 60, some ⟨44, Relocation.relativeJump⟩⟩, 0, Layout.verdict_eq_ok_iff.1 (by decide)⟩
  refine ⟨flash, rfl, by decide +kernel, by decide +kernel, map_eq_error (f := fun _ => ()).1 ?_⟩
  decide +kernel

end Session

end FieldUpdate
