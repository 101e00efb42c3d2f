import FieldUpdate.Proofs.Entry
import Mathlib.Data.List.Induction

namespace FieldUpdate

/-- A whole page of erased cells, which comes to hold exactly the data that is programmed into it. -/
structure PageReady (g : Geometry) (m : Memory g.size) (address : Nat) (data : Bytes) : Prop where
  aligned : address % g.writeSize = 0
  whole : data.length = g.writeSize
  erased : ∀ x, address ≤ x → x < address + g.writeSize → m.read x = 0xff
  stores : ∀ x, (Operation.apply m (.program address data)).read x =
    if address ≤ x ∧ x < address + g.writeSize then data.getD (x - address) 0xff else m.read x

/-- A block that does not hold what it is to hold. -/
structure EraseDue (g : Geometry) (m : Memory g.size) (address : Nat) (target : Nat → UInt8) :
    Prop where
  aligned : address % g.eraseSize = 0
  differs : ∃ x, address ≤ x ∧ x < address + g.eraseSize ∧ m.read x ≠ target x

section Cells

variable {g : Geometry} {m : Memory g.size} {target : Nat → UInt8} {start count k : Nat}

theorem pageReady_refill (aligned : start % g.eraseSize = 0) (size : start + g.eraseSize ≤ g.size)
    (hk : k < g.eraseSize / g.writeSize) :
    PageReady g (Operation.applyAll m (refill g target start k)) (start + k * g.writeSize)
      (gather target (start + k * g.writeSize) g.writeSize) := by
  have hb := page_le hk
  have erased : ∀ x, start + k * g.writeSize ≤ x → x < start + k * g.writeSize + g.writeSize →
      (Operation.applyAll m (refill g target start k)).read x = 0xff := by
    intro x h₁ h₂
    rw [read_applyAll_refill size (by omega), refilled, if_neg (by omega), if_pos (by omega)]
  refine ⟨?_, gather_length _ _ _, erased, fun x => ?_⟩
  · rw [Nat.add_mul_mod_self_right]
    exact page_aligned aligned
  · rw [read_apply_program (by omega) erased]
    split
    · rename_i hx
      rw [List.getD_eq_getElem?_getD, getElem?_gather, if_pos (by omega),
        Nat.add_sub_cancel' hx.1]
      rfl
    · rfl

/-- A refill begins with the erase and goes on with pages that are still erased. -/
theorem refill_starts {before after : List Operation} {op : Operation}
    (aligned : start % g.eraseSize = 0) (size : start + g.eraseSize ≤ g.size)
    (hc : count ≤ g.eraseSize / g.writeSize)
    (h : refill g target start count = before ++ op :: after) :
    (before = [] ∧ op = .erase start) ∨
      ∃ address data, op = .program address data ∧
        PageReady g (Operation.applyAll m before) address data := by
  cases before with
  | nil =>
    rw [refill, List.nil_append, List.cons.injEq] at h
    exact .inl ⟨rfl, h.1.symm⟩
  | cons first written =>
    rw [refill, List.cons_append, List.cons.injEq] at h
    obtain ⟨rfl, h⟩ := h
    obtain ⟨k, hk, rfl, rfl⟩ := pageWrites_split h
    exact .inr ⟨_, _, rfl, pageReady_refill aligned size (by omega)⟩

end Cells

namespace Event

variable {g : Geometry} {m : Memory g.size} {P : Memory g.size → Operation → Prop}
  {earlier later : List Event} {op : Operation}

/-- Operations that were accepted one after another, each of them polled to its end before the next;
the cells meet a condition whenever one is started. -/
inductive InTurn (P : Memory g.size → Operation → Prop) (m : Memory g.size) : List Event → Prop
  | nil : InTurn P m []
  | next (earlier : List Event) (e : Event) (op : Operation) (before : InTurn P m earlier)
      (accepted : e.accepted? = some op) (met : P (replay m earlier) op) :
      InTurn P m (.completed :: e :: earlier)

theorem InTurn.append (h : InTurn P m earlier) (h' : InTurn P (replay m earlier) later) :
    InTurn P m (later ++ earlier) := by
  induction h' with
  | nil => exact h
  | next between e op before accepted met ih =>
    rw [← replay_append] at met
    exact .next _ e op ih accepted met

theorem InTurn.at_start {e : Event} (h : InTurn P m (later ++ e :: earlier))
    (hs : e.started? = some op) :
    e.accepted? = some op ∧ (∃ rest, later = rest ++ [.completed]) ∧ P (replay m earlier) op := by
  generalize hl : later ++ e :: earlier = events at h
  induction h generalizing later with
  | nil => simp at hl
  | next earlier' e' op' before accepted met ih =>
    -- The start is the latest one, or one of those before it.
    obtain _ | ⟨last, _ | ⟨start, later⟩⟩ := later
    · rw [List.nil_append, List.cons.injEq] at hl
      cases hl.1
      cases hs
    · simp only [List.cons_append, List.nil_append, List.cons.injEq] at hl
      obtain ⟨rfl, rfl, rfl⟩ := hl
      cases e with
      | completed => cases hs
      | refused op => cases accepted
      | done op =>
        cases hs
        cases accepted
        exact ⟨rfl, ⟨[], rfl⟩, met⟩
      | faulted op bits =>
        cases hs
        cases accepted
        exact ⟨rfl, ⟨[], rfl⟩, met⟩
    · simp only [List.cons_append, List.cons.injEq] at hl
      obtain ⟨rfl, rfl, hl⟩ := hl
      obtain ⟨accepted, ⟨rest, rfl⟩, met⟩ := ih hl
      exact ⟨accepted, ⟨.completed :: start :: rest, rfl⟩, met⟩

theorem record_concat (ops : List Operation) (op : Operation) :
    record (ops ++ [op]) = .completed :: .done op :: record ops := record_append ops [op]

theorem replay_record (m : Memory g.size) (ops : List Operation) :
    replay m (record ops) = Operation.applyAll m ops := by
  induction ops using List.reverseRecOn with
  | nil => rfl
  | append_singleton ops op ih =>
    rw [record_concat, Operation.applyAll_append, ← ih]
    rfl

theorem inTurn_record {ops : List Operation}
    (met : ∀ before op after, ops = before ++ op :: after → P (Operation.applyAll m before) op) :
    InTurn P m (record ops) := by
  induction ops using List.reverseRecOn with
  | nil => exact .nil
  | append_singleton ops op ih =>
    rw [record_concat]
    refine .next _ (.done op) op (ih fun before op' after split => ?_) rfl ?_
    · exact met before op' (after ++ [op]) (by rw [split, List.append_assoc]; rfl)
    · rw [replay_record]
      exact met ops op [] rfl

end Event

namespace Programmer

variable {g : Geometry} {flash p : Programmer g}

def withMemory (p : Programmer g) (m : Memory g.size) : Programmer g :=
  { p with chip := { p.chip with memory := m } }

theorem wanted_withMemory (layout : p.layout = flash.layout) (start : Nat) (data : Bytes) :
    (flash.withMemory p.chip.memory).wanted start data = p.wanted start data := by
  funext x
  simp only [wanted, layout]
  rfl

/-- The blocks that a commit is about, each with what it is to hold: that of its data, and the
slot's if a vector moves. -/
inductive Targets (p : Programmer g) (c : Commit) : Nat → (Nat → UInt8) → Prop
  | data : Targets p c c.start (p.wanted c.start c.data)
  | vector (slot : VectorSlot) (word : UInt16) (slotted : p.layout.slot = some slot)
      (zero : c.start = 0) (movable : slot.toSlot (firstWord c.data) = some word) :
      Targets p c (slot.block g.eraseSize) (slot.holding word p.stored)

end Programmer

def Operation.Due {g : Geometry} (p : Programmer g) (c : Commit) : Operation → Prop
  | .program address data => PageReady g p.chip.memory address data
  | .erase address => ∃ target, p.Targets c address target ∧
      EraseDue g p.chip.memory address target

namespace Programmer

variable {g : Geometry} {flash p p' : Programmer g} {start : Nat} {target : Nat → UInt8}
  {data image : Bytes} {report : Except FlashError BlockOutcome}
  {P : Memory g.size → Operation → Prop}

theorem updateBlock_due (h : p.updateBlock start (gather target start g.eraseSize) = .ok (report, p'))
    (aligned : start % g.eraseSize = 0)
    (inside : start + g.eraseSize ≤ p.layout.writableEnd.toNat) :
    p' = p ∨ EraseDue g p.chip.memory start target := by
  by_cases same : ∀ x, start ≤ x → x < start + g.eraseSize → p.stored x = target x
  · cases (updateBlock_of_held (Nat.le_trans inside p.sound.writable_le) same).symm.trans h
    exact .inl rfl
  · push Not at same
    exact .inr ⟨aligned, same⟩

theorem Updated.inTurn (h : Updated p start target report p') (aligned : start % g.eraseSize = 0)
    (size : start + g.eraseSize ≤ g.size) (erase : P p.chip.memory (.erase start))
    (page : ∀ m address data, PageReady g m address data → P m (.program address data)) :
    ∃ events, p'.chip.events = events ++ p.chip.events ∧ Event.InTurn P p.chip.memory events := by
  -- A refill of the first `k` pages, as far as it was done.
  have refilled (k : Nat) (hk : k ≤ g.eraseSize / g.writeSize) :
      Event.InTurn P p.chip.memory (Event.record (refill g target start k)) := by
    apply Event.inTurn_record
    intro before op after split
    obtain ⟨rfl, rfl⟩ | ⟨address, data, rfl, ready⟩ := refill_starts aligned size hk split
    · exact erase
    · exact page _ _ _ ready
  cases h with
  | held same => exact ⟨[], rfl, .nil⟩
  | refused _ small => omega
  | written _ layout stored events => exact ⟨_, events, refilled _ (Nat.le_refl _)⟩
  | eraseFailed _ bits layout stored events =>
    exact ⟨[_, _], events, .next [] _ (.erase start) .nil rfl erase⟩
  | pageFailed _ bits k bound layout stored events =>
    refine ⟨_ :: _ :: _, events, .next _ _ _ (refilled k (Nat.le_of_lt bound)) rfl ?_⟩
    rw [Event.replay_record]
    exact page _ _ _ (pageReady_refill aligned size bound)

theorem updateBlock_inTurn
    (h : p.updateBlock start (gather target start g.eraseSize) = .ok (report, p'))
    (aligned : start % g.eraseSize = 0)
    (inside : start + g.eraseSize ≤ p.layout.writableEnd.toNat) (size : start + g.eraseSize ≤ g.size)
    (erase : EraseDue g p.chip.memory start target → P p.chip.memory (.erase start))
    (page : ∀ m address data, PageReady g m address data → P m (.program address data)) :
    ∃ events, Journal p events p' ∧ Event.InTurn P p.chip.memory events := by
  obtain rfl | due := updateBlock_due h aligned inside
  · exact ⟨[], .refl _, .nil⟩
  · obtain ⟨events, journal, -⟩ := updateBlock_journal h
    obtain ⟨_, _, answer, updated⟩ := p.updateBlock_spec target aligned inside
    cases answer.symm.trans h
    obtain ⟨added, he, inTurn⟩ := updated.inTurn aligned size (erase due) page
    cases List.append_cancel_right (journal.events_eq.symm.trans he)
    exact ⟨_, journal, inTurn⟩

section Commit

variable {c : Commit}

theorem block_inTurn
    (update : p.updateBlock c.start (gather (p.wanted c.start c.data) c.start g.eraseSize) =
      .ok (report, p'))
    (aligned : c.start % g.eraseSize = 0)
    (inside : c.start + g.eraseSize ≤ p.layout.writableEnd.toNat)
    (size : p.layout.writableEnd.toNat ≤ g.size) (layout : p.layout = flash.layout) :
    ∃ own, Journal p own p' ∧
      Event.InTurn (fun m op => op.Due (flash.withMemory m) c) p.chip.memory own := by
  refine updateBlock_inTurn update aligned inside (Nat.le_trans inside size) ?_
    fun _ _ _ ready => ready
  intro due
  rw [← wanted_withMemory layout] at due
  exact ⟨_, .data, due⟩

theorem vector_inTurn {slot : VectorSlot} {word : UInt16}
    (update : p.updateBlock (slot.block g.eraseSize)
      (gather (slot.holding word p.stored) (slot.block g.eraseSize) g.eraseSize) = .ok (report, p'))
    (slotted : p.layout.slot = some slot) (zero : c.start = 0)
    (movable : slot.toSlot (firstWord c.data) = some word) (small : g.eraseSize < addressSpace)
    (size : p.layout.writableEnd.toNat ≤ g.size) (layout : p.layout = flash.layout) :
    ∃ own, Journal p own p' ∧
      Event.InTurn (fun m op => op.Due (flash.withMemory m) c) p.chip.memory own := by
  have inside := slot_block_inside slotted small
  refine updateBlock_inTurn update (slot.block_aligned _) inside (Nat.le_trans inside size) ?_
    fun _ _ _ ready => ready
  intro due
  rw [layout] at slotted
  exact ⟨_, .vector slot word slotted zero movable, due⟩

/-- A commit erases the block of its data, and the slot's if it moves a vector, each only if it has
to. -/
theorem commit_inTurn (h : p.commit start data = .ok (report, p')) (placed : p.Placed start data)
    (small : g.eraseSize < addressSpace) (size : p.layout.writableEnd.toNat ≤ g.size)
    (layout : p.layout = flash.layout) :
    ∃ own, Journal p own p' ∧ Event.InTurn
      (fun m op => op.Due (flash.withMemory m) ⟨start, data, report⟩) p.chip.memory own := by
  by_cases fixed : p.layout.slot = none ∨ start ≠ 0
  · rw [commit_plain placed fixed] at h
    exact block_inTurn h placed.aligned (placed.inside small) size layout
  · obtain ⟨hs, rfl⟩ : p.layout.slot ≠ none ∧ start = 0 := by simpa using fixed
    obtain ⟨slot, slotted⟩ := Option.ne_none_iff_exists'.1 hs
    obtain ⟨-, -, rfl⟩ | ⟨word, vector, p₁, movable, whole, stored, rest⟩ :=
      commit_zero_cases h placed slotted small
    · exact ⟨[], .refl _, .nil⟩
    · obtain ⟨events, journal, inTurn⟩ := vector_inTurn (c := ⟨0, data, report⟩) stored slotted rfl
        movable small size layout
      obtain ⟨e, -, rfl⟩ | ⟨-, update⟩ := rest
      · exact ⟨events, journal, inTurn⟩
      · have hl := journal.layout_eq
        obtain ⟨events', journal', inTurn'⟩ := block_inTurn (c := ⟨0, data, report⟩) update
          placed.aligned (by rw [hl]; exact placed.inside small) (by rw [hl]; exact size)
          (hl.trans layout)
        refine ⟨events' ++ events, journal.trans journal', inTurn.append ?_⟩
        rw [← journal.memory_eq]
        exact inTurn'

end Commit

/-- Commits, the latest first, each with what happened at the part meanwhile: every operation was due
by the commit that started it. -/
inductive Disciplined (flash : Programmer g) (m : Memory g.size) :
    List (Commit × List Event) → Prop
  | nil : Disciplined flash m []
  | next (c : Commit) (own : List Event) (before : List (Commit × List Event))
      (earlier : Disciplined flash m before)
      (inTurn : Event.InTurn (fun m op => op.Due (flash.withMemory m) c)
        (Event.replay m (before.flatMap Prod.snd)) own) :
      Disciplined flash m ((c, own) :: before)

section History

variable {m : Memory g.size} {before later : List (Commit × List Event)}

theorem Disciplined.append (h : Disciplined flash m before)
    (h' : Disciplined flash (Event.replay m (before.flatMap Prod.snd)) later) :
    Disciplined flash m (later ++ before) := by
  induction h' with
  | nil => exact h
  | next c own between earlier inTurn ih =>
    refine .next c own (between ++ before) ih ?_
    rw [List.flatMap_append, Event.replay_append]
    exact inTurn

theorem Disciplined.commit {c : Commit} {own : List Event}
    (h : Disciplined flash m (later ++ (c, own) :: before)) :
    Event.InTurn (fun m op => op.Due (flash.withMemory m) c)
      (Event.replay m (before.flatMap Prod.snd)) own := by
  induction later with
  | nil =>
    cases h with
    | next _ _ _ earlier inTurn => exact inTurn
  | cons _ later ih =>
    cases h with
    | next _ _ _ earlier inTurn => exact ih earlier

end History

theorem Blocks.disciplined {commits : List Commit} (h : Blocks image start p commits p')
    (small : g.eraseSize < addressSpace) (size : p.layout.writableEnd.toNat ≤ g.size)
    (layout : p.layout = flash.layout) :
    ∃ history : List (Commit × List Event), commits = history.map Prod.fst ∧
      Journal p (history.flatMap Prod.snd) p' ∧ Disciplined flash p.chip.memory history := by
  induction h with
  | done start p => exact ⟨[], rfl, .refl p, .nil⟩
  | failed start data e p p' placed part commit =>
    obtain ⟨own, journal, inTurn⟩ := commit_inTurn commit placed small size layout
    refine ⟨[(⟨start, data, .error e⟩, own)], rfl, ?_, .next _ own [] .nil inTurn⟩
    rw [List.flatMap_singleton]
    exact journal
  | next start data outcome p p₁ later p' placed part commit rest ih =>
    obtain ⟨own, journal, inTurn⟩ := commit_inTurn commit placed small size layout
    have hl := journal.layout_eq
    obtain ⟨history, rfl, journal', disciplined⟩ := ih (by rw [hl]; exact size) (hl.trans layout)
    refine ⟨history ++ [(⟨start, data, .ok outcome⟩, own)], ?_, ?_, ?_⟩
    · rw [List.map_append]
      rfl
    · rw [List.flatMap_append, List.flatMap_singleton]
      exact journal.trans journal'
    · refine Disciplined.append (.next _ own [] .nil inTurn) ?_
      rw [List.flatMap_singleton, ← journal.memory_eq]
      exact disciplined

end Programmer

namespace Session

variable {g : Geometry} {flash : Programmer g} {s : Session g} {image : Bytes}

theorem Follows.disciplined (follows : s.Follows flash image) (small : g.eraseSize < addressSpace)
    (size : flash.layout.writableEnd.toNat ≤ g.size) :
    ∃ history : List (Commit × List Event), s.updater.commits = history.map Prod.fst ∧
      flash.Journal (history.flatMap Prod.snd) s.updater.flash ∧
      flash.Disciplined flash.chip.memory history := by
  induction follows with
  | start board children logger =>
    rw [start_updater]
    exact ⟨[], rfl, .refl _, .nil⟩
  | exchange s image r e before answer ih =>
    obtain ⟨history, told, journal, disciplined⟩ := ih
    obtain ⟨-, commits, p, hc, blocks, chip, layout, -⟩ :=
      Stream.meet_blocks small r.demand_short (before.faithful small) (meet_of_exchange answer)
    obtain ⟨history', rfl, journal', disciplined'⟩ := blocks.disciplined small
      (by rw [journal.layout_eq]; exact size) journal.layout_eq
    refine ⟨history' ++ history, ?_, ?_, disciplined.append ?_⟩
    · rw [hc, told, List.map_append]
    · rw [List.flatMap_append]
      exact journal.trans (journal'.trans (.of_chip_eq layout chip))
    · rw [← journal.memory_eq]
      exact disciplined'

/-- How flash is programmed, whatever is sent and whatever fails: each event at the part belongs to a
commit, and each operation that a commit starts is accepted and is polled to its end before anything
else happens. What is programmed is a whole page of erased cells, which take exactly its data, and a
block is erased only if it differs then from what the commit wants there. -/
theorem programming_discipline (small : g.eraseSize < addressSpace)
    (size : flash.layout.writableEnd.toNat ≤ g.size) (follows : s.Follows flash image) :
    ∃ history : List (Commit × List Event), s.updater.commits = history.map Prod.fst ∧
      s.updater.flash.chip.events = history.flatMap Prod.snd ++ flash.chip.events ∧
      s.updater.flash.chip.memory = Event.replay flash.chip.memory (history.flatMap Prod.snd) ∧
      ∀ later c own before, history = later ++ (c, own) :: before →
        ∀ after e earlier op, own = after ++ e :: earlier → e.started? = some op →
          e.accepted? = some op ∧ (∃ rest, after = rest ++ [.completed]) ∧
            op.Due (flash.withMemory
              (Event.replay flash.chip.memory (earlier ++ before.flatMap Prod.snd))) c := by
  obtain ⟨history, told, journal, disciplined⟩ := follows.disciplined small size
  refine ⟨history, told, journal.events_eq, journal.memory_eq, ?_⟩
  rintro later c own before rfl after e earlier op rfl started
  rw [Event.replay_append]
  exact disciplined.commit.at_start started

/-- Four bytes that begin with a jump: block zero is erased since it does not hold them yet, and the
first page meets a fault while it is erased. -/
theorem programming_discipline_faultedPage :
    ∃ (s : Session .small) (image : Bytes) (c : Commit) (m m' : Memory 16) (target : Nat → UInt8),
      s.Follows (.small [⟨3, 8⟩]) image ∧ c ∈ s.updater.commits ∧
      .done (.erase 0) ∈ s.updater.flash.chip.events ∧
      ((Programmer.small [⟨3, 8⟩]).withMemory m).Targets c 0 target ∧ EraseDue .small m 0 target ∧
      .faulted (.program 0 [0xff, 0xcb]) 8 ∈ s.updater.flash.chip.events ∧
      PageReady .small m' 0 [0xff, 0xcb] := by
  let r : Request := .sealed .crc8 1 .writeFlash (addressBytes 0 ++ [0x12, 0xc0, 3, 4])
  have demand : r.demand = .write 0 [0x12, 0xc0, 3, 4] :=
    Request.sealed_demand (by decide) (by decide)
  obtain ⟨s, follows, hs⟩ := exists_follows (.small [⟨3, 8⟩])
  obtain ⟨u, met, good⟩ := exists_ok_of_any
    (x := (Updater.idle (.small [⟨3, 8⟩])).meet (.write 0 [0x12, 0xc0, 3, 4]))
    (p := fun u => .done (.erase 0) ∈ u.flash.chip.events ∧
      .faulted (.program 0 [0xff, 0xcb]) 8 ∈ u.flash.chip.events) (by decide +kernel)
  obtain ⟨erased, faulted⟩ := of_decide_eq_true good
  rw [← hs, ← demand] at met
  obtain ⟨e, answer, rfl⟩ := exchange_of_meet met
  have follows := follows.exchange s [] r e answer
  obtain ⟨history, told, events, -, due⟩ :=
    programming_discipline (by decide) (by decide) follows
  have none : (Programmer.small [⟨3, 8⟩]).chip.events = [] := rfl
  rw [none, List.append_nil] at events
  have met {event : Event} {op : Operation} (started : event.started? = some op)
      (mem : event ∈ e.state.updater.flash.chip.events) : ∃ c ∈ e.state.updater.commits, ∃ m,
        op.Due ((Programmer.small [⟨3, 8⟩]).withMemory m) c := by
    rw [events] at mem
    obtain ⟨⟨c, own⟩, hc, he⟩ := List.mem_flatMap.1 mem
    obtain ⟨later, before, split⟩ := List.append_of_mem hc
    obtain ⟨after, earlier, split'⟩ := List.append_of_mem he
    refine ⟨c, ?_, _, (due later c own before split after event earlier op split' started).2.2⟩
    rw [told]
    exact List.mem_map_of_mem hc
  obtain ⟨c, hc, m, target, aims, differs⟩ := met rfl erased
  obtain ⟨_, -, m', ready⟩ := met rfl faulted
  exact ⟨e.state, _, c, m, m', target, follows, hc, erased, aims, differs, faulted, ready⟩

end Session

end FieldUpdate
