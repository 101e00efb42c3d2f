import FieldUpdate.Proofs.BlockUpdate
import Mathlib.Data.List.Basic

namespace FieldUpdate

/-- The status bits that the operation started after `n` others meets, if those are accepted. -/
def Fault.due : Option UInt16 → List Fault → Nat → Option UInt16
  | armed, schedule, 0 => (takeDue schedule).1.or armed
  | _, schedule, n + 1 =>
    due none ((takeDue schedule).2.map fun f => { f with after := f.after - 1 }) n

namespace Chip

variable {g : Geometry} {c : Chip g} {op : Operation} {ops before later : List Operation}
  {bits : UInt16} {n : Nat}

/-- What the operation that is started after `n` others will meet. -/
def meets (c : Chip g) (n : Nat) : Option UInt16 := Fault.due c.armed c.schedule n

def CalmFor (c : Chip g) (n : Nat) : Prop := ∀ m < n, c.meets m = none

structure FirstFault (c : Chip g) (n : Nat) (bits : UInt16) : Prop where
  calm : c.CalmFor n
  met : c.meets n = some bits

theorem meets_after (calm : c.meets 0 = none) (n : Nat) :
    (c.strike.after [op]).meets n = c.meets (n + 1) := by
  have armed : (c.strike.after [op]).armed = none := calm
  rw [meets, armed]
  rfl

theorem performAll_of_calm (fits : ∀ op ∈ ops, op.fits g) (calm : c.CalmFor ops.length) :
    ∃ c', c.performAll ops = (.ok (), c') ∧ c'.memory = Operation.applyAll c.memory ops ∧
      c'.events = Event.record ops ++ c.events ∧ ∀ n, c'.meets n = c.meets (ops.length + n) := by
  induction ops generalizing c with
  | nil => exact ⟨c, rfl, rfl, rfl, fun n => by rw [List.length_nil, Nat.zero_add]⟩
  | cons op rest ih =>
    have now := calm 0 (Nat.succ_pos _)
    have next : ∀ n, (c.strike.after [op]).meets n = c.meets (n + 1) := meets_after now
    obtain ⟨c', all, memory, events, meets⟩ :=
      ih (c := c.strike.after [op]) (fun op h => fits op (List.mem_cons_of_mem _ h))
        (fun m hm => (next m).trans (calm (m + 1) (Nat.succ_lt_succ hm)))
    refine ⟨c', ?_, memory, ?_, fun n => ?_⟩
    · rw [performAll, perform_of_unarmed (fits op List.mem_cons_self) now]
      exact all
    · rw [events, Event.record_cons]
      rfl
    · rw [meets, next, List.length_cons, Nat.add_right_comm]

theorem eq_take_cons_drop (at' : ops[n]? = some op) :
    ops = ops.take n ++ op :: ops.drop (n + 1) := by
  obtain ⟨here, rfl⟩ := List.getElem?_eq_some_iff.1 at'
  rw [List.getElem_cons_drop, List.take_append_drop]

theorem performAll_append {c' : Chip g} (done : c.performAll before = (.ok (), c')) :
    c.performAll (before ++ later) = c'.performAll later := by
  induction before generalizing c with
  | nil =>
    cases done
    rfl
  | cons op rest ih =>
    rw [performAll] at done
    rw [List.cons_append, performAll]
    split at done
    · cases done
    · exact ih done

theorem performAll_of_met (fits : ∀ op ∈ ops, op.fits g) (at' : ops[n]? = some op)
    (fault : c.FirstFault n bits) :
    ∃ c', c.performAll ops = (.error (.hardware bits), c') ∧
      c'.memory = Operation.applyAll c.memory (ops.take n) ∧
      c'.events = .completed :: .faulted op bits :: (Event.record (ops.take n) ++ c.events) := by
  obtain ⟨here, -⟩ := List.getElem?_eq_some_iff.1 at'
  have before : (ops.take n).length = n := List.length_take_of_le (Nat.le_of_lt here)
  have calm : c.CalmFor (ops.take n).length := by
    rw [before]
    exact fault.calm
  obtain ⟨c₁, done, memory, events, meets⟩ :=
    performAll_of_calm (fun op h => fits op (List.mem_of_mem_take h)) calm
  have met : c₁.meets 0 = some bits := by
    rw [meets, before]
    exact fault.met
  obtain ⟨c', failed, kept, events'⟩ := perform_of_armed (fits op (List.mem_of_getElem? at')) met
  refine ⟨c', ?_, kept.trans memory, ?_⟩
  · rw [eq_take_cons_drop at', performAll_append done, performAll, failed]
  · rw [events', events]

end Chip

/-- What it takes to bring the block at `start` to a content: an erase, and a write of each page
that is not blank. -/
def blockOperations (g : Geometry) (start : Nat) (content : Bytes) : List Operation :=
  .erase start :: (List.range (g.eraseSize / g.writeSize)).filterMap fun i =>
    let page := (content.drop (i * g.writeSize)).take g.writeSize
    if isBlank page then none else some (.program (start + i * g.writeSize) page)

section Content

variable {g : Geometry} {start : Nat} {content : Bytes} {view target : Nat → UInt8}

def viewed (start : Nat) (content : Bytes) : Nat → UInt8 := fun x => content.getD (x - start) 0xff

theorem gather_viewed (start : Nat) {content : Bytes} {n : Nat} (h : n ≤ content.length) :
    gather (viewed start content) start n = content.take n := by
  apply List.ext_getElem?
  intro i
  rw [getElem?_gather, List.getElem?_take, viewed, Nat.add_sub_cancel_left]
  split
  · rename_i inside
    rw [List.getD_eq_getElem?_getD, List.getElem?_eq_getElem (by omega), Option.getD_some]
  · rfl

theorem gather_eq_iff {n : Nat} : gather view start n = gather target start n ↔
    ∀ x, start ≤ x → x < start + n → view x = target x := by
  simp only [gather, List.map_inj_left, List.mem_range]
  exact forall_offset_iff (P := fun x => view x = target x)

theorem take_gather (view : Nat → UInt8) {start m n : Nat} (h : m ≤ n) :
    (gather view start n).take m = gather view start m := by
  have front : ((gather view start n).drop 0).take m = gather view (start + 0) m :=
    drop_take_gather view (by omega)
  rwa [List.drop_zero, Nat.add_zero] at front

theorem gather_append (view : Nat → UInt8) (start m n : Nat) :
    gather view start (m + n) = gather view start m ++ gather view (start + m) n := by
  simp [gather, List.range_add, Nat.add_assoc, Function.comp_def]

theorem gather_refilled {size n : Nat} (h : n ≤ size) :
    gather (refilled view target start size n) start size =
      gather target start n ++ blank (size - n) := by
  have front : gather (refilled view target start size n) start n = gather target start n :=
    gather_eq_iff.2 fun x h₁ h₂ => if_pos ⟨h₁, h₂⟩
  have back : gather (refilled view target start size n) (start + n) (size - n) =
      gather (fun _ => 0xff) (start + n) (size - n) :=
    gather_eq_iff.2 fun x h₁ h₂ => by rw [refilled, if_neg (by omega), if_pos (by omega)]
  have erased : gather (fun _ => 0xff) (start + n) (size - n) = blank (size - n) := by
    rw [gather, List.map_const', List.length_range, blank]
  conv => lhs; rw [← Nat.add_sub_cancel' h]
  rw [gather_append, Nat.add_sub_cancel' h, front, back, erased]

theorem pageWrites_eq (size : Nat) (target : Nat → UInt8) (start count : Nat) :
    pageWrites size target start count = (List.range count).filterMap fun i =>
      if isBlank (gather target (start + i * size) size) then none
      else some (.program (start + i * size) (gather target (start + i * size) size)) := by
  induction count generalizing start with
  | zero => rfl
  | succ count ih =>
    have behind (i : Nat) : start + (i + 1) * size = start + size + i * size := by
      rw [Nat.succ_mul]
      omega
    rw [List.range_succ_eq_map, List.filterMap_cons, List.filterMap_map, pageWrites]
    simp only [Function.comp_def, behind, Nat.zero_mul, Nat.add_zero]
    rw [← ih]
    split <;> rfl

theorem blockOperations_gather (target : Nat → UInt8) (start : Nat) :
    blockOperations g start (gather target start g.eraseSize) =
      refill g target start (g.eraseSize / g.writeSize) := by
  rw [blockOperations, refill, pageWrites_eq]
  refine congrArg _ (List.filterMap_congr fun i hi => ?_)
  rw [drop_take_gather target (page_le (List.mem_range.1 hi))]

end Content

namespace Programmer

variable {g : Geometry} {p : Programmer g} {start : Nat} {content : Bytes} {target : Nat → UInt8}

def block (p : Programmer g) (start : Nat) : Bytes := p.chip.memory.window start g.eraseSize

theorem refillBlock_eq (aligned : start % g.eraseSize = 0)
    (inside : start + g.eraseSize ≤ p.layout.writableEnd.toNat) :
    p.refillBlock start (gather target start g.eraseSize) =
      ((p.chip.performAll (refill g target start (g.eraseSize / g.writeSize))).1,
        { p with
          chip := (p.chip.performAll (refill g target start (g.eraseSize / g.writeSize))).2
          completedErases := if (p.chip.perform (.erase start)).1.isOk then
            min 255 (p.completedErases + 1) else p.completedErases }) := by
  have hw : p.writable start g.eraseSize = true := decide_eq_true inside
  rw [refillBlock, erase, if_neg (by omega), hw, refill, Chip.performAll]
  cases p.chip.perform (.erase start) with
  | mk report chip =>
    cases report with
    | error e => rfl
    | ok done =>
      simp only [Bool.not_true, Bool.false_eq_true, if_false, pages_block]
      rw [programPages_eq (page_aligned aligned)
        (by rw [Nat.div_mul_cancel g.writeSize_dvd]; exact inside)]
      rfl

theorem refillBlock_of_calm (aligned : start % g.eraseSize = 0)
    (inside : start + g.eraseSize ≤ p.layout.writableEnd.toNat)
    (size : start + g.eraseSize ≤ g.size)
    (calm : p.chip.CalmFor (refill g target start (g.eraseSize / g.writeSize)).length) :
    ∃ p', p.refillBlock start (gather target start g.eraseSize) = (.ok (), p') ∧
      p'.stored = refilled p.stored target start g.eraseSize g.eraseSize ∧
      p'.completedErases = min 255 (p.completedErases + 1) ∧
      p'.chip.events =
        Event.record (refill g target start (g.eraseSize / g.writeSize)) ++ p.chip.events := by
  have fits : ∀ op ∈ refill g target start (g.eraseSize / g.writeSize), op.fits g :=
    fits_refill aligned size
  obtain ⟨c', done, memory, events, -⟩ := Chip.performAll_of_calm fits calm
  have erased := Chip.perform_of_unarmed (fits _ List.mem_cons_self) (calm 0 (Nat.succ_pos _))
  rw [refillBlock_eq aligned inside, done, erased]
  refine ⟨_, rfl, ?_, rfl, events⟩
  funext x
  change c'.memory.read x = _
  rw [memory, read_applyAll_refill size (Nat.div_mul_le_self g.eraseSize g.writeSize),
    Nat.div_mul_cancel g.writeSize_dvd]
  rfl

/-- A fault of the erase leaves the block alone, one of a page leaves it erased from there on. -/
theorem refillBlock_of_met {n : Nat} {bits : UInt16} {op : Operation}
    (aligned : start % g.eraseSize = 0)
    (inside : start + g.eraseSize ≤ p.layout.writableEnd.toNat)
    (size : start + g.eraseSize ≤ g.size)
    (at' : (refill g target start (g.eraseSize / g.writeSize))[n]? = some op)
    (fault : p.chip.FirstFault n bits) :
    ∃ p', p.refillBlock start (gather target start g.eraseSize) = (.error (.hardware bits), p') ∧
      p'.chip.events = .completed :: .faulted op bits ::
        (Event.record ((refill g target start (g.eraseSize / g.writeSize)).take n) ++
          p.chip.events) ∧
      (op = .erase start ∧ p'.stored = p.stored ∧ p'.completedErases = p.completedErases ∨
        ∃ i < g.eraseSize / g.writeSize,
          op = .program (start + i * g.writeSize)
            (gather target (start + i * g.writeSize) g.writeSize) ∧
          p'.stored = refilled p.stored target start g.eraseSize (i * g.writeSize) ∧
          p'.completedErases = min 255 (p.completedErases + 1)) := by
  have fits : ∀ op ∈ refill g target start (g.eraseSize / g.writeSize), op.fits g :=
    fits_refill aligned size
  obtain ⟨c', failed, memory, events⟩ := Chip.performAll_of_met fits at' fault
  rw [refillBlock_eq aligned inside, failed]
  refine ⟨_, rfl, events, ?_⟩
  cases n with
  | zero =>
    obtain rfl : op = .erase start := (Option.some.inj at').symm
    obtain ⟨c₁, now, -, -⟩ := Chip.perform_of_armed (fits _ List.mem_cons_self) fault.met
    refine .inl ⟨rfl, congrArg Memory.read memory, ?_⟩
    rw [now]
    rfl
  | succ n =>
    -- The erase was done, so the fault met one of the pages.
    have erased := Chip.perform_of_unarmed (fits _ List.mem_cons_self) (fault.calm 0 (Nat.succ_pos n))
    rw [refill, List.getElem?_cons_succ] at at'
    obtain ⟨i, bound, pages, rfl⟩ := pageWrites_split (Chip.eq_take_cons_drop at')
    refine .inr ⟨i, bound, rfl, ?_, ?_⟩
    · rw [refill, List.take_succ_cons, pages] at memory
      funext x
      change c'.memory.read x = _
      rw [memory]
      exact read_applyAll_refill size (pages_le (Nat.le_of_lt bound)) x
    · rw [erased]
      rfl

theorem block_of_stored {p' : Programmer g} {n : Nat} (h : n ≤ g.eraseSize)
    (stored : p'.stored = refilled p.stored target start g.eraseSize n) :
    p'.block start = gather target start n ++ blank (g.eraseSize - n) := by
  have view : p'.block start = gather p'.stored start g.eraseSize := rfl
  rw [view, stored, gather_refilled h]

/-- A block that has its content is left as it is, and one that differs is erased and written. An
update that meets a fault reports it: if the erase met it then the block is still as it was, else
the block has its content up to the page that met it and is erased from there on. -/
theorem updateBlock_by_first_fault (p : Programmer g) {start : Nat} {content : Bytes}
    (aligned : start % g.eraseSize = 0)
    (inside : start + g.eraseSize ≤ min p.layout.writableEnd.toNat g.size)
    (whole : content.length = g.eraseSize) :
    ∃ report p', p.updateBlock start content = .ok (report, p') ∧
      (∀ x, x < start ∨ start + g.eraseSize ≤ x → p'.stored x = p.stored x) ∧
      (report = .ok .unchanged ↔ p.block start = content) ∧
      (p.block start = content → p' = p) ∧
      (p.block start ≠ content →
        (p.chip.CalmFor (blockOperations g start content).length →
          report = .ok .written ∧ p'.block start = content ∧
            p'.completedErases = min 255 (p.completedErases + 1) ∧
            p'.chip.events = Event.record (blockOperations g start content) ++ p.chip.events) ∧
        ∀ n bits op, p.chip.FirstFault n bits →
          (blockOperations g start content)[n]? = some op →
          report = .error (.hardware bits) ∧
            p'.chip.events = .completed :: .faulted op bits ::
              (Event.record ((blockOperations g start content).take n) ++ p.chip.events) ∧
            (op = .erase start ∧ p'.block start = p.block start ∧
                p'.completedErases = p.completedErases ∨
              ∃ i, op = .program (start + i * g.writeSize)
                  ((content.drop (i * g.writeSize)).take g.writeSize) ∧
                p'.block start = content.take (i * g.writeSize) ++
                  blank (g.eraseSize - i * g.writeSize) ∧
                p'.completedErases = min 255 (p.completedErases + 1))) := by
  obtain ⟨writable, size⟩ := Nat.le_min.1 inside
  have addresses := Nat.le_trans writable p.sound.writable_le
  -- The content is what some view has there, and a refill is said in terms of views.
  obtain ⟨target, rfl⟩ : ∃ target, content = gather target start g.eraseSize := by
    refine ⟨viewed start content, ?_⟩
    rw [gather_viewed start (Nat.le_of_eq whole.symm), ← whole, List.take_length]
  obtain ⟨report, p', updated, spec⟩ := p.updateBlock_spec target aligned writable
  refine ⟨report, p', updated, fun x => spec.stored_outside, ?_⟩
  have same : p.block start = gather target start g.eraseSize ↔
      ∀ x, start ≤ x → x < start + g.eraseSize → p.stored x = target x := gather_eq_iff
  by_cases held : p.block start = gather target start g.eraseSize
  · rw [updateBlock_of_held addresses (same.1 held)] at updated
    cases updated
    exact ⟨iff_of_true rfl held, fun _ => rfl, fun differs => absurd held differs⟩
  · rw [updateBlock_of_differs addresses (mt same.2 held)] at updated
    cases updated
    rw [blockOperations_gather]
    refine ⟨iff_of_false ?_ held, fun same => absurd same held, fun _ => ⟨?_, ?_⟩⟩
    · cases (p.refillBlock start (gather target start g.eraseSize)).1 <;> nofun
    · intro calm
      obtain ⟨p', done, stored, erases, events⟩ :=
        refillBlock_of_calm aligned writable size calm
      rw [done]
      refine ⟨rfl, ?_, erases, events⟩
      rw [block_of_stored (Nat.le_refl _) stored, Nat.sub_self]
      exact List.append_nil _
    · intro n bits op fault at'
      obtain ⟨p', failed, events, left⟩ := refillBlock_of_met aligned writable size at' fault
      rw [failed]
      refine ⟨rfl, events, ?_⟩
      obtain ⟨rfl, stored, erases⟩ | ⟨i, bound, rfl, stored, erases⟩ := left
      · exact .inl ⟨rfl, congrArg (gather · start g.eraseSize) stored, erases⟩
      · have page := page_le bound
        refine .inr ⟨i, ?_, ?_, erases⟩
        · rw [drop_take_gather target page]
        · rw [block_of_stored (by omega) stored, take_gather target (by omega)]

/-- The second page of a block meets a fault. -/
theorem updateBlock_by_first_fault_secondPage :
    0 % Geometry.small.eraseSize = 0 ∧
      0 + Geometry.small.eraseSize ≤
        min (small [⟨2, 8⟩]).layout.writableEnd.toNat Geometry.small.size ∧
      ([1, 2, 3, 4] : Bytes).length = Geometry.small.eraseSize ∧
      ∃ p', (small [⟨2, 8⟩]).updateBlock 0 [1, 2, 3, 4] = .ok (.error (.hardware 8), p') ∧
        p'.block 0 = [1, 2, 0xff, 0xff] ∧ p'.completedErases = 1 := by
  have aligned : 0 % Geometry.small.eraseSize = 0 := by decide
  have inside : 0 + Geometry.small.eraseSize ≤
      min (small [⟨2, 8⟩]).layout.writableEnd.toNat Geometry.small.size := by decide
  have whole : ([1, 2, 3, 4] : Bytes).length = Geometry.small.eraseSize := by decide
  refine ⟨aligned, inside, whole, ?_⟩
  obtain ⟨report, p', updated, -, -, -, differs⟩ :=
    updateBlock_by_first_fault (small [⟨2, 8⟩]) aligned inside whole
  have calm : (small [⟨2, 8⟩]).chip.CalmFor 2 := by
    change ∀ m < 2, (small [⟨2, 8⟩]).chip.meets m = none
    decide
  obtain ⟨rfl, -, left⟩ := (differs (by decide)).2 2 8 (.program 2 [3, 4]) ⟨calm, rfl⟩ rfl
  refine ⟨p', updated, ?_⟩
  obtain ⟨impossible, -⟩ | ⟨i, same, block, erases⟩ := left
  · cases impossible
  · have page : 2 = 0 + i * 2 := (Operation.program.inj same).1
    obtain rfl : i = 1 := by omega
    exact ⟨block, erases⟩

end Programmer

end FieldUpdate
