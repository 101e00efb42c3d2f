import FieldUpdate.Proofs.Vector

namespace FieldUpdate

namespace Stream

variable {g : Geometry} {slot : VectorSlot} {s s' : Stream g} {report : Except FlashError Unit}

/-- Once block zero is complete, the vector of what was accepted is in the slot. -/
structure Carries (slot : VectorSlot) (s : Stream g) : Prop where
  slotted : s.updater.flash.layout.slot = some slot
  vector : s.updater.completed ≠ 0 → slot.address.toNat % g.eraseSize + 2 ≤ g.eraseSize ∧
    ∃ word, slot.toSlot (firstWord s.accepted) = some word ∧ s.updater.flash.HoldsVector slot word

/-- Block zero is complete and the slot has lost its word. -/
structure Bereft (slot : VectorSlot) (s : Stream g) : Prop where
  slotted : s.updater.flash.layout.slot = some slot
  later : s.updater.completed ≠ 0
  lost : s.updater.flash.LostVector slot

/-- The latest commit was one of the slot's block, not of block zero, and erased the slot's word. -/
def Strands (slot : VectorSlot) (u : Updater g) : Prop :=
  ∃ c, u.commits.head? = some c ∧ c.start ≠ 0 ∧ u.flash.Strands slot c.start

theorem Step.carries (step : Step s report s') (success : report = .ok ())
    (small : g.eraseSize < addressSpace) (h : s.Faithful) (carries : s.Carries slot) :
    s'.Carries slot := by
  have slotted : s'.updater.flash.layout.slot = some slot := by
    rw [step.layout_eq small h.coherent.ready]
    exact carries.slotted
  have hready := h.coherent.ready
  have hlen := h.coherent.length
  refine ⟨slotted, fun later => ?_⟩
  cases step with
  | stage u accepted b room short =>
    simp only [u.completed_staging b short] at later
    obtain ⟨whole, word, moved, holds⟩ := carries.vector later
    have hcur := u.le_cursor_of_completed later
    simp only at hlen
    exact ⟨whole, word, by rw [firstWord_append (by omega)]; exact moved, holds⟩
  | complete u accepted b outcome flash room full commit =>
    by_cases zero : u.cursor + 1 - g.eraseSize = 0
    · -- Block zero brings the vector into the slot.
      exact h.vector_of_first small carries.slotted room full zero commit
    · -- A later block keeps what lies past the application.
      have placed := u.placed_full b hready room full
      have hd := Programmer.committed_of_commit placed small commit
      simp only at hlen
      obtain ⟨whole, word, moved, holds⟩ := carries.vector (by
        rw [Updater.completed_of_full full]
        exact zero)
      exact ⟨whole, word, by rw [firstWord_append (by omega)]; exact moved,
        hd.holdsVector_of_ok placed zero carries.slotted holds⟩
  | rewind u accepted b e flash room full commit => cases success
  | flush u accepted outcome flash tail commit =>
    cases outcome with
    | error e => cases success
    | ok outcome =>
      have placed := u.placed_tail hready tail
      have hd := Programmer.committed_of_commit placed small commit
      obtain ⟨whole, word, moved, holds⟩ := carries.vector later
      exact ⟨whole, word, moved, hd.holdsVector_of_ok placed later carries.slotted holds⟩
  | tally u accepted =>
    obtain ⟨whole, word, moved, ⟨low, high⟩⟩ := carries.vector later
    exact ⟨whole, word, moved, ⟨low, high⟩⟩

/-- A commit that fails keeps the vector in the slot or strands the image without it. -/
theorem Carries.failed {u u' : Updater g} {accepted accepted' data : Bytes} {start : Nat}
    {e : FlashError} (carries : Carries slot ⟨u, accepted⟩) (small : g.eraseSize < addressSpace)
    (size : u.flash.layout.writableEnd.toNat ≤ g.size) (placed : u.flash.Placed start data)
    (commit : u.flash.commit start data = .ok (.error e, u'.flash))
    (latest : u'.commits.head? = some ⟨start, data, .error e⟩)
    (before : u.completed = start) (after : u'.completed = start)
    (first : start ≠ 0 → firstWord accepted' = firstWord accepted) :
    (Carries slot ⟨u', accepted'⟩ ∧ ¬Strands slot u') ∨
      (Bereft slot ⟨u', accepted'⟩ ∧ Strands slot u') := by
  have hd := Programmer.committed_of_commit placed small commit
  have slotted : u'.flash.layout.slot = some slot := by
    rw [hd.layout_eq]
    exact carries.slotted
  -- The latest commit is the one that failed.
  have strands_iff : Strands slot u' ↔ start ≠ 0 ∧ u'.flash.Strands slot start := by
    constructor
    · rintro ⟨c, hh, later, strands⟩
      cases latest.symm.trans hh
      exact ⟨later, strands⟩
    · rintro ⟨later, strands⟩
      exact ⟨_, latest, later, strands⟩
  rw [strands_iff]
  by_cases zero : start = 0
  · -- Block zero comes again, and its vector with it.
    exact .inl ⟨⟨slotted, fun later => absurd (after.trans zero) later⟩, fun h => h.1 zero⟩
  · obtain ⟨whole, word, moved, holds⟩ := carries.vector (by rw [before]; exact zero)
    obtain ⟨spared, kept⟩ | ⟨strands, lost⟩ :=
      hd.vector_of_error placed small size zero carries.slotted whole
    · refine .inl ⟨⟨slotted, fun _ => ⟨whole, word, ?_, kept word holds⟩⟩, fun h => spared h.2⟩
      rw [first zero]
      exact moved
    · exact .inr ⟨⟨slotted, by rw [after]; exact zero, lost⟩, zero, strands⟩

theorem Step.carries_or_strands {e : FlashError} (step : Step s report s')
    (failure : report = .error e) (small : g.eraseSize < addressSpace)
    (size : s.updater.flash.layout.writableEnd.toNat ≤ g.size) (h : s.Faithful)
    (carries : s.Carries slot) :
    (s'.Carries slot ∧ ¬Strands slot s'.updater) ∨ (s'.Bereft slot ∧ Strands slot s'.updater) := by
  have hready := h.coherent.ready
  cases step with
  | stage u accepted b room short => cases failure
  | complete u accepted b outcome flash room full commit => cases failure
  | tally u accepted => cases failure
  | rewind u accepted b e flash room full commit =>
    have placed := u.placed_full b hready room full
    have hc := Updater.completed_of_full full
    refine carries.failed small size placed commit rfl hc
      (Updater.completed_of_aligned placed.aligned) fun later => ?_
    -- What is left of the image has its first word, as it has a whole block.
    have := Nat.le_of_dvd (Nat.pos_of_ne_zero later) (Nat.dvd_of_mod_eq_zero placed.aligned)
    obtain ⟨whole, -⟩ := carries.vector (by
      rw [hc]
      exact later)
    exact firstWord_take (by omega)
  | flush u accepted outcome flash tail commit =>
    cases outcome with
    | ok outcome => cases failure
    | error e =>
      exact carries.failed small size (u.placed_tail hready tail) commit rfl rfl rfl fun _ => rfl

/-- An image that has lost its vector does not get it back. -/
theorem Step.bereft (step : Step s report s') (small : g.eraseSize < addressSpace) (h : s.Faithful)
    (bereft : s.Bereft slot) : s'.Bereft slot := by
  have ready := h.coherent.ready
  have later := bereft.later
  refine ⟨?_, ?_, ?_⟩
  · rw [step.layout_eq small ready]
    exact bereft.slotted
  · have := step.completed_le
    omega
  · obtain ⟨same, -⟩ | ⟨data, outcome, placed, committed⟩ := step.flash_cases small ready
    · rw [Programmer.LostVector, Programmer.stored, same]
      exact bereft.lost
    · exact committed.lost_of_lost placed later bereft.slotted bereft.lost

theorem Steps.faithful (steps : Steps s s') (small : g.eraseSize < addressSpace)
    (h : s.Faithful) : s'.Faithful ∧ s'.updater.flash.layout = s.updater.flash.layout :=
  (Runs.done s' steps).faithful small h

theorem Steps.carries (steps : Steps s s') (small : g.eraseSize < addressSpace) (h : s.Faithful)
    (carries : s.Carries slot) : s'.Carries slot := by
  induction steps with
  | refl => exact carries
  | tail before last ih =>
    exact last.carries rfl small (Steps.faithful before small h).1 ih

theorem Steps.bereft (steps : Steps s s') (small : g.eraseSize < addressSpace) (h : s.Faithful)
    (bereft : s.Bereft slot) : s'.Bereft slot := by
  induction steps with
  | refl => exact bereft
  | tail before last ih => exact last.bereft small (Steps.faithful before small h).1 ih

/-- The vector is in the slot as long as nothing stranded the image without it. -/
def Vector (slot : VectorSlot) (s : Stream g) (stranded : Prop) : Prop :=
  (s.Carries slot ∧ ¬stranded) ∨ (s.Bereft slot ∧ stranded)

theorem Runs.vector_of_ok {stranded : Prop} (runs : Runs s (.ok ()) s')
    (small : g.eraseSize < addressSpace) (h : s.Faithful) (vector : s.Vector slot stranded) :
    s'.Vector slot stranded := by
  cases runs with
  | done _ steps =>
    obtain ⟨carries, spared⟩ | ⟨bereft, stranded⟩ := vector
    · exact .inl ⟨steps.carries small h carries, spared⟩
    · exact .inr ⟨steps.bereft small h bereft, stranded⟩

theorem Runs.vector_of_error {stranded : Prop} {e : FlashError} (runs : Runs s (.error e) s')
    (small : g.eraseSize < addressSpace)
    (size : s.updater.flash.layout.writableEnd.toNat ≤ g.size) (h : s.Faithful)
    (vector : s.Vector slot stranded) :
    s'.Vector slot (Strands slot s'.updater ∨ stranded) := by
  cases runs with
  | stopped between _ _ steps last =>
    obtain ⟨hb, hl⟩ := steps.faithful small h
    obtain ⟨carries, spared⟩ | ⟨bereft, stranded⟩ := vector
    · obtain ⟨carries, unhurt⟩ | ⟨bereft, strands⟩ := last.carries_or_strands rfl small
        (by rw [hl]; exact size) hb (steps.carries small h carries)
      · exact .inl ⟨carries, fun hs => hs.elim unhurt spared⟩
      · exact .inr ⟨bereft, .inl strands⟩
    · exact .inr ⟨last.bereft small hb (steps.bereft small h bereft), .inr stranded⟩

theorem Vector.begun {stranded : Prop} (vector : s.Vector slot stranded) (coherent : s.Coherent) :
    (s.begun s.accepted.length).Vector slot stranded := by
  unfold Stream.begun
  split
  · rename_i zero
    rw [coherent.length] at zero
    obtain ⟨carries, spared⟩ | ⟨bereft, -⟩ := vector
    · exact .inl ⟨⟨carries.slotted, fun later => absurd (Nat.zero_sub _) later⟩, spared⟩
    · exact absurd (by rw [Updater.completed, zero, Nat.zero_sub]) bereft.later
  · exact vector

/-- After an end of the image that succeeded the vector is in the slot, if it was not lost. -/
theorem Faithful.finish_slot {stranded : Prop} {u u' : Updater g} {accepted : Bytes}
    {progress : Progress} (h : Faithful ⟨u, accepted⟩) (small : g.eraseSize < addressSpace)
    (vector : Vector slot ⟨u, accepted⟩ stranded) (some_bytes : 0 < accepted.length)
    (hf : u.finish = .ok (.ok progress, u')) :
    (¬stranded ∧ ∃ word, slot.toSlot (firstWord accepted) = some word ∧
      u'.flash.HoldsVector slot word) ∨ (stranded ∧ u'.flash.LostVector slot) := by
  have ready : u.Ready := h.coherent.ready
  have hlen : accepted.length = u.cursor := h.coherent.length
  have runs := (finish_runs h.coherent hf).vector_of_ok small h vector
  -- Once block zero is complete, the end of the image keeps what the stream had in its slot.
  have later : u'.completed ≠ 0 →
      (¬stranded ∧ ∃ word, slot.toSlot (firstWord accepted) = some word ∧
        u'.flash.HoldsVector slot word) ∨ (stranded ∧ u'.flash.LostVector slot) := by
    intro hc
    obtain ⟨carries, spared⟩ | ⟨bereft, stranded⟩ := runs
    · exact .inl ⟨spared, (carries.vector hc).2⟩
    · exact .inr ⟨stranded, bereft.lost⟩
  obtain ⟨whole, rfl⟩ | ⟨tail, same, placed, outcome, hd⟩ := Updater.finish_ok ready small hf
  · refine later ?_
    rw [Updater.completed_of_aligned whole]
    omega
  · by_cases zero : u.completed = 0
    · -- The whole image is the tail, and its vector went in with this commit.
      have ha : u.staged.take (u.cursor % g.eraseSize) = accepted := by
        have ht : u.staged.take (u.cursor % g.eraseSize) = accepted.drop u.completed := h.tail
        rw [ht, zero, List.drop_zero]
      obtain ⟨carries, spared⟩ | ⟨bereft, stranded⟩ := vector
      · have hv := hd.vector_of_ok placed carries.slotted zero
        rw [ha] at hv
        exact .inl ⟨spared, hv.2⟩
      · exact absurd zero bereft.later
    · refine later ?_
      rw [Updater.completed, same]
      exact zero

end Stream

namespace Session

variable {g : Geometry} {first s : Session g} {image : Bytes} {failures : List (Session g)}
  {next : Nat}

/-- The latest commit was one of the slot's block behind block zero, and a fault at a page up to the
slot's word left it erased. -/
def StrandsVector (s : Session g) : Prop :=
  ∃ slot, s.updater.flash.layout.slot = some slot ∧ Stream.Strands slot s.updater

/-- A host sends an image in chunks from the session `first` on. Behind a chunk that was taken it
goes on, one that failed it resumes from the cursor, and an end that failed it sends again.
`failures` are the sessions that failures left, the latest first; the next chunk starts at `next`. -/
inductive Streaming (image : Bytes) (first : Session g) :
    List (Session g) → Nat → Session g → Prop
  | start : Streaming image first [] 0 first
  | taken (failures : List (Session g)) (next : Nat) (s : Session g)
      (before : Streaming image first failures next s) (r : Request) (data : Bytes)
      (part : data <+: image.drop next)
      (chunk : r.Brings .writeFlash (addressBytes next ++ data) 0) (e : Exchanged (Session g))
      (answer : s.exchange r = .ok e) (accepted : e.Answers r .ok []) :
      Streaming image first failures (next + data.length) e.state
  | resumed (failures : List (Session g)) (next : Nat) (s : Session g)
      (before : Streaming image first failures next s) (r : Request) (data : Bytes)
      (part : data <+: image.drop next)
      (chunk : r.Brings .writeFlash (addressBytes next ++ data) 0) (e : Exchanged (Session g))
      (answer : s.exchange r = .ok e) (detail : Bytes) (failed : e.Answers r .failed detail) :
      Streaming image first (e.state :: failures) e.state.updater.cursor e.state
  | unfinished (failures : List (Session g)) (s : Session g)
      (before : Streaming image first failures image.length s) (r : Request)
      (final : r.Brings .finalizeFlash [] 1) (e : Exchanged (Session g))
      (answer : s.exchange r = .ok e) (detail : Bytes) (failed : e.Answers r .failed detail) :
      Streaming image first (e.state :: failures) image.length e.state

def Stranded (failures : List (Session g)) : Prop := ∃ f ∈ failures, f.StrandsVector

/-- What a host that sends an image keeps. -/
structure Underway (l : Layout) (image : Bytes) (failures : List (Session g)) (next : Nat)
    (s : Session g) : Prop where
  layout : s.updater.flash.layout = l
  within : next ≤ image.length
  faithful : (s.pending image next).Faithful
  vector : ∀ slot, l.slot = some slot →
    (s.pending image next).Vector slot (Stranded failures)
  unslotted : l.slot = none → ¬Stranded failures

theorem Underway.of_stream {l : Layout} (layout : s.updater.flash.layout = l)
    (within : next ≤ image.length)
    (faithful : Stream.Faithful ⟨s.updater, image.take next⟩)
    (vector : ∀ slot, l.slot = some slot →
      Stream.Vector slot ⟨s.updater, image.take next⟩ (Stranded failures))
    (unslotted : l.slot = none → ¬Stranded failures) : Underway l image failures next s := by
  refine ⟨layout, within, faithful.begun next, fun slot slotted => ?_, unslotted⟩
  have hv := (vector slot slotted).begun faithful.coherent
  rw [List.length_take_of_le within] at hv
  exact hv

theorem stranded_cons {f : Session g} :
    Stranded (f :: failures) ↔ f.StrandsVector ∨ Stranded failures := by
  simp [Stranded]

theorem strandsVector_iff {slot : VectorSlot} (slotted : s.updater.flash.layout.slot = some slot) :
    s.StrandsVector ↔ Stream.Strands slot s.updater := by
  constructor
  · rintro ⟨slot', slotted', strands⟩
    cases slotted.symm.trans slotted'
    exact strands
  · intro strands
    exact ⟨slot, slotted, strands⟩

theorem Underway.fail {l : Layout} {t : Stream g} {e : FlashError}
    (small : g.eraseSize < addressSpace) (size : l.writableEnd.toNat ≤ g.size)
    (within : next ≤ image.length) (faithful : t.Faithful)
    (layout : t.updater.flash.layout = l)
    (vector : ∀ slot, l.slot = some slot → t.Vector slot (Stranded failures))
    (unslotted : l.slot = none → ¬Stranded failures)
    (runs : Stream.Runs t (.error e) ⟨s.updater, image.take next⟩) :
    Underway l image (s :: failures) next s := by
  obtain ⟨hf, hl⟩ := runs.faithful small faithful
  simp only [layout] at hl
  refine .of_stream hl within hf (fun slot slotted => ?_) fun none => ?_
  · rw [stranded_cons, strandsVector_iff (by rw [hl]; exact slotted)]
    exact runs.vector_of_error small (by rw [layout]; exact size) faithful (vector slot slotted)
  · rw [stranded_cons]
    rintro (⟨slot, slotted, -⟩ | stranded)
    · rw [hl, none] at slotted
      cases slotted
    · exact unslotted none stranded

theorem Underway.extend {l : Layout} (h : Underway l image failures next s)
    (small : g.eraseSize < addressSpace) (fits : image.length < addressSpace) {data : Bytes}
    (part : data <+: image.drop next)
    {report : Except StreamError Progress} {u : Updater g}
    (he : s.updater.extend next data = .ok (report, u)) :
    next + data.length ≤ image.length ∧
      Stream.Runs (s.pending image next) (Stream.stepReport report)
        ⟨u, Stream.grown (image.take next) data u.cursor report⟩ ∧
      image.take next ++ data = image.take (next + data.length) := by
  obtain ⟨whole, within⟩ := part_of_chunk part h.within
  refine ⟨within, ?_, whole⟩
  have short : data.length < 0x100000000 :=
    Nat.lt_trans (Nat.lt_of_le_of_lt (Nat.le_of_add_left_le within) fits) (by decide)
  have runs := Stream.extend_runs small (fun _ _ => short) h.faithful.coherent he
  have hg : (if next = 0 then [] else image.take next) = image.take next := by
    split
    · rename_i zero
      rw [zero]
      rfl
    · rfl
  rw [Stream.accept, hg] at runs
  exact runs

theorem Streaming.underway (h : Streaming image first failures next s)
    (small : g.eraseSize < addressSpace) (reachable : first.Reachable)
    (size : first.updater.flash.layout.writableEnd.toNat ≤ g.size)
    (some_bytes : 0 < image.length) (fits : image.length < addressSpace) :
    Underway first.updater.flash.layout image failures next s := by
  -- On what the host has sent so far, the first request innermost.
  induction h with
  | start =>
    have ready := reachable.ready small
    refine ⟨rfl, Nat.zero_le _, ?_, fun slot slotted => ?_, fun _ => by simp [Stranded]⟩
    · exact ready.coherent.faithful_restarted
    · exact .inl ⟨⟨slotted, fun later => absurd (Nat.zero_sub _) later⟩, by simp [Stranded]⟩
  | taken failures next s before r data part chunk e answer accepted ih =>
    obtain ⟨report, he, taken, -⟩ :=
      write_of_exchange (Nat.lt_of_le_of_lt ih.within fits) chunk answer
    obtain ⟨progress, rfl⟩ | refused := taken
    · obtain ⟨within, runs, whole⟩ := ih.extend small fits part he
      have hl := (s.pending_layout image next).trans ih.layout
      obtain ⟨hf, layout⟩ := runs.faithful small ih.faithful
      rw [Stream.grown, whole] at runs hf
      refine .of_stream (layout.trans hl) within hf (fun slot slotted => ?_)
        ih.unslotted
      exact runs.vector_of_ok small ih.faithful (ih.vector slot slotted)
    · exact absurd accepted (refused _)
  | resumed failures next s before r data part chunk e answer detail failed ih =>
    obtain ⟨report, he, -, failure⟩ :=
      write_of_exchange (Nat.lt_of_le_of_lt ih.within fits) chunk answer
    obtain ⟨error, rfl⟩ | other := failure
    · obtain ⟨within, runs, whole⟩ := ih.extend small fits part he
      have hl := (s.pending_layout image next).trans ih.layout
      have hf := (runs.faithful small ih.faithful).1
      -- The cursor is cut back to a block that the host has sent before.
      have hc : e.state.updater.cursor ≤ next + data.length := by
        have hlen := hf.coherent.length
        rw [Stream.grown, whole, List.length_take, List.length_take] at hlen
        simp only at hlen
        omega
      rw [Stream.grown, whole, List.take_take, Nat.min_eq_left hc] at runs
      exact .fail small size (Nat.le_trans hc within) ih.faithful hl ih.vector ih.unslotted runs
    · exact absurd failed (other _)
  | unfinished failures s before r final e answer detail failed ih =>
    obtain ⟨progress, u, -, -, other⟩ | ⟨error, hf, -⟩ := finish_of_exchange final answer
    · exact absurd failed (other _)
    · have faithful := ih.faithful
      have vector := ih.vector
      rw [pending_length some_bytes] at faithful vector
      have runs : Stream.Runs ⟨s.updater, image⟩ (.error error)
          ⟨e.state.updater, image.take image.length⟩ := by
        rw [List.take_length]
        exact Stream.finish_runs faithful.coherent hf
      exact .fail small size (Nat.le_refl _) faithful ih.layout vector ih.unslotted runs

/-- Once the last end of the image is answered with success, a host that resumed after every failure
reads the image back exactly if no failure stranded it without its vector. -/
theorem recovered_serves_iff (small : g.eraseSize < addressSpace) (reachable : first.Reachable)
    (size : first.updater.flash.layout.writableEnd.toNat ≤ g.size)
    (accepts : first.updater.flash.layout.Accepts image)
    (sending : Streaming image first failures image.length s) {r : Request}
    (final : r.Brings .finalizeFlash [] 1) {e : Exchanged (Session g)}
    (answer : s.exchange r = .ok e) {erases : Bytes} (finished : e.Answers r .ok erases) :
    e.state.Serves image ↔ ∀ f ∈ failures, ¬f.StrandsVector := by
  have some_bytes := accepts.nonempty
  have fits : image.length < 0x10000 := by
    have := accepts.fits
    have := first.updater.flash.layout.applicationSize.toNat_lt
    omega
  obtain ⟨layout, -, faithful, vector, unslotted⟩ :=
    sending.underway small reachable size some_bytes fits
  rw [pending_length some_bytes] at faithful vector
  obtain ⟨progress, u, hf, hu, -⟩ | ⟨error, -, refused⟩ := finish_of_exchange final answer
  · have hl : u.flash.layout = first.updater.flash.layout := by
      have runs := (Stream.finish_runs faithful.coherent hf).faithful small faithful
      exact runs.2.trans layout
    have he : e.state.updater.flash.layout = first.updater.flash.layout := by
      rw [hu]
      exact hl
    -- The image behind its vector is there in any case, so all depends on the slot.
    have bytes : ∀ x < image.length, ¬e.state.updater.flash.layout.Guarded x →
        image[x]? = some (e.state.updater.flash.stored x) := by
      intro x hx free
      rw [he, ← layout] at free
      rw [hu]
      have hlen := faithful.coherent.length
      simp only at hlen
      exact faithful.finish small hf (by omega) free
    have spared_iff : (∀ f ∈ failures, ¬f.StrandsVector) ↔ ¬Stranded failures := by
      simp [Stranded]
    rw [spared_iff]
    cases hs : first.updater.flash.layout.slot with
    | none =>
      refine ⟨fun _ => unslotted hs, fun _ => ?_⟩
      exact serves_of_stored (by rw [he]; exact accepts) bytes fun slot slotted => by
        rw [he, hs] at slotted
        cases slotted
    | some slot =>
      have slotted : e.state.updater.flash.layout.slot = some slot := by rw [he, hs]
      obtain ⟨spared, word, moved, holds⟩ | ⟨stranded, lost⟩ :=
        faithful.finish_slot small (vector slot hs) some_bytes hf
      · refine ⟨fun _ => spared, fun _ => ?_⟩
        refine serves_of_stored (by rw [he]; exact accepts) bytes fun slot' slotted' => ?_
        cases slotted.symm.trans slotted'
        exact ⟨word, moved, by rw [hu]; exact ⟨holds.low, holds.high⟩⟩
      · refine ⟨fun serves => absurd serves ?_, fun spared => absurd stranded spared⟩
        refine not_serves_of_lost (by rw [he]; exact accepts) slotted ?_
        rw [hu]
        exact lost
  · exact absurd finished (refused _)

def endedTwice (schedule : List Fault) (p : Session .small → Exchanged (Session .small) → Bool) :
    Bool :=
  let chunk := Request.sealed .crc8 1 .writeFlash (addressBytes 0 ++ sixBytes)
  let final := Request.sealed .crc8 1 .finalizeFlash []
  ((start .interface (.small schedule) .none .disabled).exchange chunk).toOption.any fun e₁ =>
    decide (e₁.Answers chunk .ok []) && (e₁.state.exchange final).toOption.any fun e₂ =>
      decide (e₂.Answers final .failed [0x13]) && (e₂.state.exchange final).toOption.any fun e₃ =>
        p e₂.state e₃

theorem streaming_of_endedTwice (schedule : List Fault)
    {p : Session .small → Exchanged (Session .small) → Bool} (h : endedTwice schedule p = true) :
    ∃ (first f : Session .small) (e : Exchanged (Session .small)), first.Reachable ∧
      first.updater.flash = .small schedule ∧ Streaming sixBytes first [f] 6 f ∧
      f.exchange (.sealed .crc8 1 .finalizeFlash []) = .ok e ∧ p f e = true := by
  unfold endedTwice at h
  obtain ⟨e₁, first, h⟩ := exists_ok_of_any h
  rw [Bool.and_eq_true, decide_eq_true_eq] at h
  obtain ⟨taken, h⟩ := h
  obtain ⟨e₂, second, h⟩ := exists_ok_of_any h
  rw [Bool.and_eq_true, decide_eq_true_eq] at h
  obtain ⟨failed, h⟩ := h
  obtain ⟨e₃, third, h⟩ := exists_ok_of_any h
  have chunk := Streaming.taken [] 0 _ .start _ sixBytes (List.prefix_refl _)
    (Request.sealed_brings (by decide) (by decide) (by decide)) e₁ first taken
  have final := Streaming.unfinished [] _ chunk _
    (Request.sealed_brings (by decide) (by decide) (by decide)) e₂ second [0x13] failed
  refine ⟨_, e₂.state, e₃, .start _ _ _ _, ?_, final, third, h⟩
  rw [start_updater]
  rfl

/-- An erase of the slot's block that fails is made up for. -/
theorem recovered_after_erase_fault :
    ∃ (first f : Session .small) (e : Exchanged (Session .small)), first.Reachable ∧
      first.updater.flash = .small [⟨5, 8⟩] ∧ Streaming sixBytes first [f] 6 f ∧
      f.exchange (.sealed .crc8 1 .finalizeFlash []) = .ok e ∧ e.state.Serves sixBytes := by
  obtain ⟨first, f, e, reachable, flash, sending, answer, good⟩ :=
    streaming_of_endedTwice [⟨5, 8⟩]
      (p := fun f e => decide (e.Answers (.sealed .crc8 1 .finalizeFlash []) .ok [3]) &&
        decide (f.updater.flash.chip.faults = [.erase 4])) (by decide +kernel)
  rw [Bool.and_eq_true, decide_eq_true_eq, decide_eq_true_eq] at good
  obtain ⟨finished, faults⟩ := good
  refine ⟨first, f, e, reachable, flash, sending, answer, ?_⟩
  refine (recovered_serves_iff (by decide) reachable (by rw [flash]; decide)
    (by rw [flash]; exact sixBytes_accepted) sending
    (Request.sealed_brings (by decide) (by decide) (by decide)) answer finished).2 ?_
  intro f' hf'
  cases List.mem_singleton.1 hf'
  rintro ⟨slot, -, c, -, -, -, address, data, hit, -⟩
  rw [faults] at hit
  cases hit

/-- A page of the slot's block that fails is not: the end that follows is taken, and the image that
is read has no vector. -/
theorem vector_lost_after_page_fault :
    ∃ (first f : Session .small) (e : Exchanged (Session .small)), first.Reachable ∧
      first.updater.flash = .small [⟨6, 8⟩] ∧ Streaming sixBytes first [f] 6 f ∧
      f.exchange (.sealed .crc8 1 .finalizeFlash []) = .ok e ∧
      e.Answers (.sealed .crc8 1 .finalizeFlash []) .ok [4] ∧ ¬e.state.Serves sixBytes := by
  obtain ⟨first, f, e, reachable, flash, sending, answer, good⟩ :=
    streaming_of_endedTwice [⟨6, 8⟩]
      (p := fun _ e => decide (e.Answers (.sealed .crc8 1 .finalizeFlash []) .ok [4]) &&
        decide (e.state.updater.flash.imageByte 0 = 0xff)) (by decide +kernel)
  rw [Bool.and_eq_true, decide_eq_true_eq, decide_eq_true_eq] at good
  obtain ⟨finished, lost⟩ := good
  refine ⟨first, f, e, reachable, flash, sending, answer, finished, fun serves => ?_⟩
  have hb := (serves_iff (by decide)).1 serves 0 (by decide)
  rw [lost] at hb
  exact absurd hb (by decide)

end Session

end FieldUpdate
