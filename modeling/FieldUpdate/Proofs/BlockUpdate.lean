import FieldUpdate.Programmer
import FieldUpdate.Proofs.Operations

namespace FieldUpdate

def gather (view : Nat → UInt8) (start n : Nat) : Bytes :=
  (List.range n).map fun i => view (start + i)

theorem gather_length (view : Nat → UInt8) (start n : Nat) : (gather view start n).length = n := by
  simp [gather]

theorem getElem?_gather (view : Nat → UInt8) (start n i : Nat) :
    (gather view start n)[i]? = if i < n then some (view (start + i)) else none := by
  by_cases h : i < n <;> simp [gather, h]

theorem gather_succ (view : Nat → UInt8) (start n : Nat) :
    gather view start (n + 1) = view start :: gather view (start + 1) n := by
  simp [gather, List.range_succ_eq_map, Function.comp_def, Nat.add_comm, Nat.add_left_comm]

theorem drop_take_gather (view : Nat → UInt8) {start n at' m : Nat} (h : at' + m ≤ n) :
    ((gather view start n).drop at').take m = gather view (start + at') m := by
  apply List.ext_getElem?
  intro i
  rw [List.getElem?_take, List.getElem?_drop, getElem?_gather, getElem?_gather]
  by_cases hi : i < m
  · rw [if_pos hi, if_pos (by omega), if_pos hi, Nat.add_assoc]
  · rw [if_neg hi, if_neg hi]

theorem forall_offset_iff {P : Nat → Prop} {start n : Nat} :
    (∀ i < n, P (start + i)) ↔ ∀ x, start ≤ x → x < start + n → P x := by
  constructor
  · intro h x h₁ h₂
    have offset := h (x - start) (by omega)
    rwa [Nat.add_sub_cancel' h₁] at offset
  · intro h i hi
    exact h _ (by omega) (by omega)

theorem isBlank_gather {view : Nat → UInt8} {start n : Nat} :
    isBlank (gather view start n) = true ↔ ∀ x, start ≤ x → x < start + n → view x = 0xff := by
  simp only [isBlank, gather, List.all_map, List.all_eq_true, List.mem_range, Function.comp_apply,
    beq_iff_eq]
  exact forall_offset_iff (P := (view · = 0xff))

/-- A view whose block at `start` has the first `n` bytes of a target and is erased after them. -/
def refilled (view target : Nat → UInt8) (start size n : Nat) : Nat → UInt8 := fun x =>
  if start ≤ x ∧ x < start + n then target x
  else if start ≤ x ∧ x < start + size then 0xff
  else view x

section Cells

variable {g : Geometry}

theorem page_aligned {start : Nat} (h : start % g.eraseSize = 0) : start % g.writeSize = 0 :=
  Nat.mod_eq_zero_of_dvd (Nat.dvd_trans g.writeSize_dvd (Nat.dvd_of_mod_eq_zero h))

theorem pages_le {k : Nat} (h : k ≤ g.eraseSize / g.writeSize) : k * g.writeSize ≤ g.eraseSize :=
  (Nat.le_div_iff_mul_le g.writeSize_pos).1 h

theorem page_le {k : Nat} (h : k < g.eraseSize / g.writeSize) :
    k * g.writeSize + g.writeSize ≤ g.eraseSize := by
  rw [← Nat.succ_mul]
  exact pages_le h

theorem read_apply_erase {m : Memory g.size} {start : Nat} (h : start + g.eraseSize ≤ g.size)
    (x : Nat) :
    (Operation.apply m (.erase start)).read x =
      if start ≤ x ∧ x < start + g.eraseSize then 0xff else m.read x := by
  rw [Operation.apply, Memory.read_store]
  by_cases hx : start ≤ x ∧ x < start + g.eraseSize
  · rw [if_pos hx, if_pos ⟨hx.1, by omega⟩, blank, List.getElem?_replicate_of_lt (by omega)]
    rfl
  · rw [if_neg hx]
    split
    · rw [blank, List.getElem?_eq_none (by rw [List.length_replicate]; omega)]
      rfl
    · rfl

theorem read_apply_program {m : Memory g.size} {target : Nat → UInt8} {start n : Nat}
    (h : start + n ≤ g.size) (erased : ∀ x, start ≤ x → x < start + n → m.read x = 0xff)
    (x : Nat) :
    (Operation.apply m (.program start (gather target start n))).read x =
      if start ≤ x ∧ x < start + n then target x else m.read x := by
  have hw : m.window start n = gather m.read start n := rfl
  rw [Operation.apply, Memory.read_store, gather_length, hw, List.getElem?_zipWith,
    getElem?_gather, getElem?_gather]
  by_cases hx : start ≤ x ∧ x < start + n
  · rw [if_pos hx, if_pos ⟨hx.1, by omega⟩, if_pos (by omega), if_pos (by omega),
      Nat.add_sub_cancel' hx.1, erased x hx.1 hx.2]
    exact UInt8.neg_one_and
  · rw [if_neg hx]
    split
    · rw [if_neg (by omega), if_neg (by omega)]
      rfl
    · rfl

/-- The page writes that bring `count` erased pages to a target; blank pages need none. -/
def pageWrites (size : Nat) (target : Nat → UInt8) : Nat → Nat → List Operation
  | _, 0 => []
  | start, count + 1 =>
    if isBlank (gather target start size) then pageWrites size target (start + size) count
    else .program start (gather target start size) ::
      pageWrites size target (start + size) count

theorem read_applyAll_pageWrites {m : Memory g.size} {target : Nat → UInt8} {start count : Nat}
    (h : start + count * g.writeSize ≤ g.size)
    (erased : ∀ x, start ≤ x → x < start + count * g.writeSize → m.read x = 0xff) (x : Nat) :
    (Operation.applyAll m (pageWrites g.writeSize target start count)).read x =
      if start ≤ x ∧ x < start + count * g.writeSize then target x else m.read x := by
  induction count generalizing m start with
  | zero =>
    rw [if_neg (by omega)]
    rfl
  | succ count ih =>
    rw [Nat.succ_mul] at h erased
    rw [pageWrites, Nat.succ_mul]
    split
    · -- A blank page is not written: its target is what an erase leaves.
      rename_i hb
      rw [ih (by omega) fun x h₁ h₂ => erased x (by omega) (by omega)]
      by_cases hx : start ≤ x ∧ x < start + g.writeSize
      · rw [if_neg (by omega), if_pos (by omega), erased x hx.1 (by omega),
          isBlank_gather.1 hb x hx.1 hx.2]
      · split <;> split <;> first | rfl | omega
    · have hp (x : Nat) :
          (Operation.apply m (.program start (gather target start g.writeSize))).read x =
            if start ≤ x ∧ x < start + g.writeSize then target x else m.read x :=
        read_apply_program (by omega) (fun x h₁ h₂ => erased x h₁ (by omega)) x
      rw [Operation.applyAll, List.foldl_cons, ← Operation.applyAll, ih (by omega), hp]
      · by_cases hx : start ≤ x ∧ x < start + g.writeSize
        · rw [if_neg (by omega), if_pos hx, if_pos (by omega)]
        · rw [if_neg hx]
          split <;> split <;> first | rfl | omega
      · intro y h₁ h₂
        rw [hp, if_neg (by omega), erased y (by omega) (by omega)]

/-- What comes before one of the page writes is what brings the pages before it to the target. -/
theorem pageWrites_split {size : Nat} {target : Nat → UInt8} {start count : Nat}
    {before after : List Operation} {op : Operation}
    (h : pageWrites size target start count = before ++ op :: after) :
    ∃ k, k < count ∧ before = pageWrites size target start k ∧
      op = .program (start + k * size) (gather target (start + k * size) size) := by
  -- By the pages; a blank one adds no write, and the count moves on.
  induction count generalizing start before with
  | zero => exact absurd (congrArg List.length h) (by simp [pageWrites])
  | succ count ih =>
    rw [pageWrites] at h
    split at h
    · rename_i hb
      obtain ⟨k, hk, rfl, rfl⟩ := ih h
      refine ⟨k + 1, by omega, ?_, ?_⟩
      · rw [pageWrites, if_pos hb]
      · rw [Nat.succ_mul, Nat.add_assoc, Nat.add_comm size]
    · rename_i hb
      cases before with
      | nil =>
        rw [List.nil_append, List.cons.injEq] at h
        refine ⟨0, by omega, rfl, ?_⟩
        rw [← h.1, Nat.zero_mul, Nat.add_zero]
      | cons first before =>
        rw [List.cons_append, List.cons.injEq] at h
        obtain ⟨rfl, h⟩ := h
        obtain ⟨k, hk, rfl, rfl⟩ := ih h
        refine ⟨k + 1, by omega, ?_, ?_⟩
        · rw [pageWrites, if_neg hb]
        · rw [Nat.succ_mul, Nat.add_assoc, Nat.add_comm size]

def refill (g : Geometry) (target : Nat → UInt8) (start count : Nat) : List Operation :=
  .erase start :: pageWrites g.writeSize target start count

theorem read_applyAll_refill {m : Memory g.size} {target : Nat → UInt8} {start count : Nat}
    (h : start + g.eraseSize ≤ g.size) (hc : count * g.writeSize ≤ g.eraseSize) (x : Nat) :
    (Operation.applyAll m (refill g target start count)).read x =
      refilled m.read target start g.eraseSize (count * g.writeSize) x := by
  rw [refill, Operation.applyAll, List.foldl_cons, ← Operation.applyAll,
    read_applyAll_pageWrites (by omega), read_apply_erase h]
  · rfl
  · intro y h₁ h₂
    rw [read_apply_erase h, if_pos (by omega)]

theorem countP_refill (target : Nat → UInt8) (start count : Nat) :
    (refill g target start count).countP Operation.isErase = 1 := by
  have pages : (pageWrites g.writeSize target start count).countP Operation.isErase = 0 := by
    apply List.countP_eq_zero.2
    intro op h
    obtain ⟨before, later, split⟩ := List.append_of_mem h
    obtain ⟨k, -, -, rfl⟩ := pageWrites_split split
    exact Bool.false_ne_true
  rw [refill, List.countP_cons, pages]
  rfl

end Cells

namespace Programmer

variable {g : Geometry}

theorem pages_gather (target : Nat → UInt8) (start count : Nat) :
    pages g.writeSize (gather target start (count * g.writeSize)) =
      (List.range count).map fun i => gather target (start + i * g.writeSize) g.writeSize := by
  rw [pages, gather_length, Nat.mul_div_cancel _ g.writeSize_pos]
  apply List.map_congr_left
  intro i hi
  have h := Nat.mul_le_mul_right g.writeSize (Nat.succ_le_of_lt (List.mem_range.1 hi))
  rw [Nat.succ_mul] at h
  exact drop_take_gather target h

theorem pages_block (target : Nat → UInt8) (start : Nat) :
    pages g.writeSize (gather target start g.eraseSize) =
      (List.range (g.eraseSize / g.writeSize)).map
        fun i => gather target (start + i * g.writeSize) g.writeSize := by
  conv => lhs; rw [← Nat.div_mul_cancel g.writeSize_dvd]
  exact pages_gather target start _

theorem programPage_eq {p : Programmer g} {target : Nat → UInt8} {start : Nat}
    (aligned : start % g.writeSize = 0)
    (inside : start + g.writeSize ≤ p.layout.writableEnd.toNat) :
    p.programPage start (gather target start g.writeSize) =
      ((p.chip.perform (.program start (gather target start g.writeSize))).1,
        { p with chip := (p.chip.perform (.program start (gather target start g.writeSize))).2 }) := by
  have h := g.writeSize_pos
  have hl := gather_length target start g.writeSize
  have he : (gather target start g.writeSize).isEmpty = false := by
    rw [List.isEmpty_eq_false_iff, ← List.length_pos_iff]
    omega
  simp [programPage, he, hl, aligned, writable, inside]

theorem programPages_eq {p : Programmer g} {target : Nat → UInt8} {start count : Nat}
    (aligned : start % g.writeSize = 0)
    (inside : start + count * g.writeSize ≤ p.layout.writableEnd.toNat) :
    p.programPages start
        ((List.range count).map fun i => gather target (start + i * g.writeSize) g.writeSize) =
      ((p.chip.performAll (pageWrites g.writeSize target start count)).1,
        { p with chip := (p.chip.performAll (pageWrites g.writeSize target start count)).2 }) := by
  -- By the pages: a blank one is skipped on both sides.
  induction count generalizing p start with
  | zero => rfl
  | succ count ih =>
    rw [Nat.succ_mul] at inside
    have hs : (List.range (count + 1)).map
        (fun i => gather target (start + i * g.writeSize) g.writeSize) =
        gather target start g.writeSize :: (List.range count).map
          fun i => gather target (start + g.writeSize + i * g.writeSize) g.writeSize := by
      simp only [List.range_succ_eq_map, List.map_cons, List.map_map, Function.comp_def,
        Nat.zero_mul, Nat.add_zero, Nat.succ_mul, Nat.add_assoc, Nat.add_comm g.writeSize]
    rw [hs, programPages, pageWrites]
    split
    · exact ih (by rw [Nat.add_mod_right, aligned]) (by omega)
    · rw [programPage_eq aligned (by omega), Chip.performAll]
      generalize p.chip.perform (.program start (gather target start g.writeSize)) = result
      obtain ⟨report, chip⟩ := result
      cases report with
      | error e => rfl
      | ok u => exact ih (by rw [Nat.add_mod_right, aligned]) (by simp only; omega)

/-- All that an update of the block at `start` to a target may come to. -/
inductive Updated (p : Programmer g) (start : Nat) (target : Nat → UInt8) :
    Except FlashError BlockOutcome → Programmer g → Prop
  /-- The block is as it should be. -/
  | held (same : ∀ x, start ≤ x → x < start + g.eraseSize → p.stored x = target x) :
      Updated p start target (.ok .unchanged) p
  | written (p' : Programmer g) (layout : p'.layout = p.layout)
      (stored : p'.stored = refilled p.stored target start g.eraseSize g.eraseSize)
      (events : p'.chip.events =
        Event.record (refill g target start (g.eraseSize / g.writeSize)) ++ p.chip.events)
      (erases : p'.completedErases = min 255 (p.completedErases + 1))
      (quiet : p.chip.Quiet → p'.chip.Quiet) :
      Updated p start target (.ok .written) p'
  /-- The part is too small for the block. -/
  | refused (p' : Programmer g) (small : g.size < start + g.eraseSize)
      (layout : p'.layout = p.layout) (stored : p'.stored = p.stored)
      (events : p'.chip.events = .refused (.erase start) :: p.chip.events)
      (erases : p'.completedErases = p.completedErases)
      (quiet : p.chip.Quiet → p'.chip.Quiet) :
      Updated p start target (.error .invalidPage) p'
  | eraseFailed (p' : Programmer g) (bits : UInt16) (layout : p'.layout = p.layout)
      (stored : p'.stored = p.stored)
      (events : p'.chip.events = .completed :: .faulted (.erase start) bits :: p.chip.events)
      (erases : p'.completedErases = p.completedErases)
      (loud : ¬p.chip.Quiet) :
      Updated p start target (.error (.hardware bits)) p'
  /-- The first `k` pages have their new content and the others are erased. -/
  | pageFailed (p' : Programmer g) (bits : UInt16) (k : Nat)
      (bound : k < g.eraseSize / g.writeSize) (layout : p'.layout = p.layout)
      (stored : p'.stored = refilled p.stored target start g.eraseSize (k * g.writeSize))
      (events : p'.chip.events =
        .completed :: .faulted (.program (start + k * g.writeSize)
          (gather target (start + k * g.writeSize) g.writeSize)) bits ::
        (Event.record (refill g target start k) ++ p.chip.events))
      (erases : p'.completedErases = min 255 (p.completedErases + 1))
      (loud : ¬p.chip.Quiet) :
      Updated p start target (.error (.hardware bits)) p'

theorem fits_page {start k : Nat} {target : Nat → UInt8} (aligned : start % g.eraseSize = 0)
    (h : start + g.eraseSize ≤ g.size) (hk : k < g.eraseSize / g.writeSize) :
    Operation.fits g (.program (start + k * g.writeSize)
      (gather target (start + k * g.writeSize) g.writeSize)) := by
  have hw := g.writeSize_pos
  have hd := page_aligned aligned
  have hb := page_le hk
  have hl := gather_length target (start + k * g.writeSize) g.writeSize
  have he : (gather target (start + k * g.writeSize) g.writeSize).isEmpty = false := by
    rw [List.isEmpty_eq_false_iff, ← List.length_pos_iff]
    omega
  have hs : start + k * g.writeSize + g.writeSize ≤ g.size := by omega
  simp [Operation.fits, he, hl, hd, hs]

theorem fits_refill {start : Nat} {target : Nat → UInt8} (aligned : start % g.eraseSize = 0)
    (size : start + g.eraseSize ≤ g.size) :
    ∀ op ∈ refill g target start (g.eraseSize / g.writeSize), op.fits g := by
  intro op h
  obtain rfl | h := List.mem_cons.1 h
  · simp [Operation.fits, aligned, size]
  · obtain ⟨before, later, split⟩ := List.append_of_mem h
    obtain ⟨k, hk, -, rfl⟩ := pageWrites_split split
    exact fits_page aligned size hk

/-- A block that differs from its target is erased and written, as far as the part goes along. -/
theorem refillBlock_spec {p : Programmer g} {start : Nat} {target : Nat → UInt8}
    (aligned : start % g.eraseSize = 0)
    (inside : start + g.eraseSize ≤ p.layout.writableEnd.toNat) :
    Updated p start target
      ((p.refillBlock start (gather target start g.eraseSize)).1.map fun _ => .written)
      (p.refillBlock start (gather target start g.eraseSize)).2 := by
  have hN : g.eraseSize / g.writeSize * g.writeSize = g.eraseSize :=
    Nat.div_mul_cancel g.writeSize_dvd
  have hpages := pages_block (g := g) target start
  have hd := page_aligned aligned
  have hw : p.writable start g.eraseSize = true := decide_eq_true inside
  obtain ⟨report, c₁, he, h⟩ := p.chip.perform_spec (.erase start)
  rw [refillBlock, erase, if_neg (by omega), hw, he]
  cases h with
  | refused _ unfit memory events quiet =>
    refine .refused _ ?_ rfl (congrArg Memory.read memory) events rfl quiet
    simpa [Operation.fits, aligned] using unfit
  | faulted bits _ fits memory events loud =>
    exact .eraseFailed _ bits rfl (congrArg Memory.read memory) events rfl loud
  | done _ fits memory events quiet =>
    have hsize : start + g.eraseSize ≤ g.size := by simpa [Operation.fits, aligned] using fits
    simp only [Bool.not_true, Bool.false_eq_true, if_false, hpages]
    obtain ⟨report, c₂, he', h⟩ :=
      c₁.performAll_spec (pageWrites g.writeSize target start (g.eraseSize / g.writeSize))
    rw [programPages_eq hd (by rw [hN]; exact inside)]
    simp only [he']
    -- The cells once the first pages of the block are written.
    have cells : ∀ k, k ≤ g.eraseSize / g.writeSize →
        c₂.memory = Operation.applyAll c₁.memory (pageWrites g.writeSize target start k) →
        c₂.read = refilled p.stored target start g.eraseSize (k * g.writeSize) := by
      intro k hk hm
      funext x
      rw [Chip.read, hm, memory]
      exact read_applyAll_refill hsize (pages_le hk) x
    cases h with
    | done _ memory' events' quiet' =>
      refine .written _ rfl ?_ ?_ rfl (quiet' ∘ quiet)
      · have hc := cells _ (Nat.le_refl _) memory'
        rwa [hN] at hc
      · rw [events', events, refill, Event.record_cons]
    | faulted before op after bits _ split memory' events' loud =>
      obtain ⟨k, hk, rfl, rfl⟩ := pageWrites_split split
      refine .pageFailed _ bits k hk rfl (cells k (by omega) memory') ?_ rfl (loud ∘ quiet)
      rw [events', events, refill, Event.record_cons]
    | refused before op after _ split unfit memory' events' quiet' =>
      -- The block was erased, so it lies in the part, and so do its pages.
      obtain ⟨k, hk, rfl, rfl⟩ := pageWrites_split split
      exact absurd (fits_page aligned hsize hk) unfit

theorem refillBlock_of_quiet {p : Programmer g} {start : Nat} {target : Nat → UInt8}
    (aligned : start % g.eraseSize = 0)
    (inside : start + g.eraseSize ≤ p.layout.writableEnd.toNat) (size : start + g.eraseSize ≤ g.size)
    (quiet : p.chip.Quiet) :
    p.refillBlock start (gather target start g.eraseSize) =
      (.ok (), { p with
        chip := p.chip.after (refill g target start (g.eraseSize / g.writeSize))
        completedErases := min 255 (p.completedErases + 1) }) := by
  have hw : p.writable start g.eraseSize = true := decide_eq_true inside
  have fits : ∀ op ∈ refill g target start (g.eraseSize / g.writeSize), op.fits g :=
    fits_refill aligned size
  have he := fits _ List.mem_cons_self
  have hp : ∀ op ∈ pageWrites g.writeSize target start (g.eraseSize / g.writeSize), op.fits g :=
    fun op h => fits op (List.mem_cons_of_mem _ h)
  rw [refillBlock, erase, if_neg (by omega), hw, Chip.perform_of_quiet quiet he, pages_block]
  simp only [Bool.not_true, Bool.false_eq_true, if_false]
  have hc := Chip.performAll_of_quiet (c := p.chip.after [.erase start]) quiet ⟨rfl, rfl⟩ hp
  rw [programPages_eq (page_aligned aligned)
    (by rw [Nat.div_mul_cancel g.writeSize_dvd]; exact inside)]
  simp only [hc, Chip.after_cons, refill]

theorem holds_spec (p : Programmer g) (start n : Nat) (target : Nat → UInt8)
    (h : start + n ≤ addressSpace) :
    ∃ same, p.holds start (gather target start n) = .ok same ∧
      (same = true ↔ ∀ x, start ≤ x → x < start + n → p.stored x = target x) := by
  induction n generalizing start with
  | zero => exact ⟨true, rfl, by simp; omega⟩
  | succ n ih =>
    rw [gather_succ, holds, if_neg (by omega)]
    by_cases hb : p.stored start = target start
    · obtain ⟨same, he, hi⟩ := ih (start + 1) (by omega)
      refine ⟨same, by rw [if_pos hb, he], hi.trans ⟨?_, ?_⟩⟩
      · intro h x h₁ h₂
        by_cases hx : x = start
        · rw [hx, hb]
        · exact h x (by omega) (by omega)
      · intro h x h₁ h₂
        exact h x (by omega) (by omega)
    · refine ⟨false, by rw [if_neg hb], ?_⟩
      simp only [Bool.false_eq_true, false_iff]
      exact fun h => hb (h start (by omega) (by omega))

theorem updateBlock_of_held {p : Programmer g} {start : Nat} {target : Nat → UInt8}
    (inside : start + g.eraseSize ≤ addressSpace)
    (same : ∀ x, start ≤ x → x < start + g.eraseSize → p.stored x = target x) :
    p.updateBlock start (gather target start g.eraseSize) = .ok (.ok .unchanged, p) := by
  obtain ⟨held, holds, hi⟩ := p.holds_spec start g.eraseSize target inside
  rw [hi.2 same] at holds
  rw [updateBlock, if_neg (by rw [gather_length]; simp), holds]
  rfl

theorem updateBlock_of_differs {p : Programmer g} {start : Nat} {target : Nat → UInt8}
    (inside : start + g.eraseSize ≤ addressSpace)
    (differs : ¬∀ x, start ≤ x → x < start + g.eraseSize → p.stored x = target x) :
    p.updateBlock start (gather target start g.eraseSize) =
      .ok ((p.refillBlock start (gather target start g.eraseSize)).1.map fun _ => .written,
        (p.refillBlock start (gather target start g.eraseSize)).2) := by
  obtain ⟨held, holds, hi⟩ := p.holds_spec start g.eraseSize target inside
  rw [Bool.eq_false_iff.2 (mt hi.1 differs)] at holds
  rw [updateBlock, if_neg (by rw [gather_length]; simp), holds]
  rfl

/-- An update of a block in the writable part has an answer. -/
theorem updateBlock_spec (p : Programmer g) {start : Nat} (target : Nat → UInt8)
    (aligned : start % g.eraseSize = 0)
    (inside : start + g.eraseSize ≤ p.layout.writableEnd.toNat) :
    ∃ report p', p.updateBlock start (gather target start g.eraseSize) = .ok (report, p') ∧
      Updated p start target report p' := by
  have addresses := Nat.le_trans inside p.sound.writable_le
  by_cases same : ∀ x, start ≤ x → x < start + g.eraseSize → p.stored x = target x
  · exact ⟨.ok .unchanged, p, updateBlock_of_held addresses same, .held same⟩
  · exact ⟨_, _, updateBlock_of_differs addresses same, refillBlock_spec aligned inside⟩

namespace Updated

variable {p p' : Programmer g} {start : Nat} {target : Nat → UInt8}
  {report : Except FlashError BlockOutcome} {outcome : BlockOutcome}

theorem layout_eq (h : Updated p start target report p') : p'.layout = p.layout := by
  cases h with
  | held same => rfl
  | written _ layout => exact layout
  | refused _ small layout => exact layout
  | eraseFailed _ bits layout => exact layout
  | pageFailed _ bits k bound layout => exact layout

theorem stored_of_ok (h : Updated p start target (.ok outcome) p') (x : Nat) :
    p'.stored x = if start ≤ x ∧ x < start + g.eraseSize then target x else p.stored x := by
  cases h with
  | held same =>
    split
    · rename_i hx
      exact same x hx.1 hx.2
    · rfl
  | written _ layout stored =>
    rw [stored, refilled]
    split <;> rfl

theorem stored_outside (h : Updated p start target report p') {x : Nat}
    (hx : x < start ∨ start + g.eraseSize ≤ x) : p'.stored x = p.stored x := by
  cases h with
  | held same => rfl
  | written _ layout stored =>
    rw [stored, refilled, if_neg (by omega), if_neg (by omega)]
  | refused _ small layout stored => rw [stored]
  | eraseFailed _ bits layout stored => rw [stored]
  | pageFailed _ bits k bound layout stored =>
    have hk := page_le bound
    rw [stored, refilled, if_neg (by omega), if_neg (by omega)]

theorem ok_of_quiet (h : Updated p start target report p') (quiet : p.chip.Quiet)
    (size : start + g.eraseSize ≤ g.size) : (∃ outcome, report = .ok outcome) ∧ p'.chip.Quiet := by
  cases h with
  | held same => exact ⟨⟨_, rfl⟩, quiet⟩
  | written _ layout stored events erases kept => exact ⟨⟨_, rfl⟩, kept quiet⟩
  | refused _ small => omega
  | eraseFailed _ bits layout stored events erases loud => exact absurd quiet loud
  | pageFailed _ bits k bound layout stored events erases loud => exact absurd quiet loud

end Updated

end Programmer

def Geometry.small : Geometry where
  size := 16
  writeSize := 2
  eraseSize := 4

/-- Six bytes of application and the slot in the two bytes behind it. -/
def Layout.small : Layout := ⟨6, 8, some ⟨6, Relocation.relativeJump⟩⟩

/-- A small part that begins with a jump to the loader. -/
def Programmer.small (schedule : List Fault) : Programmer .small where
  chip :=
    { Chip.erased .small with memory := (Memory.erased _).store 0 [0xff, 0xcb], schedule }
  layout := .small
  completedErases := 0
  sound := Layout.verdict_eq_ok_iff.1 (by decide)

end FieldUpdate
