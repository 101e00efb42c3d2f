import FieldUpdate.Proofs.Host

namespace FieldUpdate

namespace Programmer

variable {g : Geometry} {p p' p'' : Programmer g}

/-- What becomes of the vector at address zero: it stays as it is, or programming its page met a
fault and it is erased. -/
inductive Redirected (p p' : Programmer g) : Prop
  | kept (met : List Operation) (faults : p'.chip.faults = met ++ p.chip.faults)
      (spared : ∀ data, .program 0 data ∉ met) (stored : ∀ x < 2, p'.stored x = p.stored x)
  | lost (met : List Operation) (faults : p'.chip.faults = met ++ p.chip.faults)
      (data : Bytes) (hit : .program 0 data ∈ met) (stored : ∀ x < 2, p'.stored x = 0xff)

namespace Redirected

theorem of_chip_eq (h : p'.chip = p.chip) : Redirected p p' :=
  .kept [] (by rw [h]; rfl) (fun _ => List.not_mem_nil) fun x _ => by rw [stored, stored, h]

theorem trans (h : Redirected p p') (h' : Redirected p' p'') : Redirected p p'' := by
  cases h' with
  | lost met' faults' data' hit' stored' =>
    -- The fault came in the second part, whatever happened in the first.
    have hf : ∃ met, p''.chip.faults = met ++ p.chip.faults ∧ Operation.program 0 data' ∈ met := by
      cases h with
      | kept met faults spared stored =>
        exact ⟨met' ++ met, by rw [faults', faults, List.append_assoc],
          List.mem_append_left _ hit'⟩
      | lost met faults data hit stored =>
        exact ⟨met' ++ met, by rw [faults', faults, List.append_assoc],
          List.mem_append_left _ hit'⟩
    obtain ⟨met, faults, hit⟩ := hf
    exact .lost met faults data' hit stored'
  | kept met' faults' spared' stored' =>
    cases h with
    | kept met faults spared stored =>
      refine .kept (met' ++ met) (by rw [faults', faults, List.append_assoc]) ?_ ?_
      · intro data hit
        obtain hit | hit := List.mem_append.1 hit
        · exact spared' data hit
        · exact spared data hit
      · intro x hx
        rw [stored' x hx, stored x hx]
    | lost met faults data hit stored =>
      refine .lost (met' ++ met) (by rw [faults', faults, List.append_assoc]) data
        (List.mem_append_right _ hit) ?_
      intro x hx
      rw [stored' x hx, stored x hx]

/-- The vector stays exactly if its page was spared or there was nothing to lose. -/
theorem kept_iff (h : Redirected p p') :
    ∃ met, p'.chip.faults = met ++ p.chip.faults ∧
      ((∀ x < 2, p'.stored x = p.stored x) ↔
        (∀ x < 2, p.stored x = 0xff) ∨ ∀ data, Operation.program 0 data ∉ met) := by
  cases h with
  | kept met faults spared stored => exact ⟨met, faults, fun _ => .inr spared, fun _ => stored⟩
  | lost met faults data hit stored =>
    refine ⟨met, faults, ?_, ?_⟩
    · intro same
      exact .inl fun x hx => (same x hx).symm.trans (stored x hx)
    · rintro (blank | spared) x hx
      · rw [stored x hx, blank x hx]
      · exact absurd hit (spared data)

end Redirected

theorem Updated.redirected {start : Nat} {target : Nat → UInt8}
    {report : Except FlashError BlockOutcome} (h : Updated p start target report p')
    (page : 2 ≤ g.writeSize) (aligned : start % g.eraseSize = 0)
    (same : start = 0 → ∀ x < 2, target x = p.stored x) : Redirected p p' := by
  have block := Nat.le_of_dvd p.sound.eraseSize_pos g.writeSize_dvd
  -- A block that does not start at zero starts behind the vector.
  have behind : start ≠ 0 → 2 ≤ start := by
    intro hs
    have := Nat.le_of_dvd (Nat.pos_of_ne_zero hs) (Nat.dvd_of_mod_eq_zero aligned)
    omega
  have front : ∀ n, (start = 0 → 2 ≤ n) → ∀ x < 2,
      refilled p.stored target start g.eraseSize n x = p.stored x := by
    intro n hn x hx
    by_cases hs : start = 0
    · have := hn hs
      rw [refilled, if_pos (by omega), same hs x hx]
    · have := behind hs
      rw [refilled, if_neg (by omega), if_neg (by omega)]
  cases h with
  | held _ => exact .of_chip_eq rfl
  | written _ layout stored events =>
    refine .kept [] ?_ (fun _ => List.not_mem_nil) ?_
    · rw [Chip.faults, events, Chip.faults_record]
      rfl
    · rw [stored]
      exact front _ fun _ => by omega
  | refused _ small layout stored events =>
    refine .kept [] ?_ (fun _ => List.not_mem_nil) fun x _ => by rw [stored]
    rw [Chip.faults, events]
    rfl
  | eraseFailed _ bits layout stored events =>
    refine .kept [.erase start] ?_ (fun _ => by simp) fun x _ => by rw [stored]
    rw [Chip.faults, events]
    rfl
  | pageFailed _ bits k bound layout stored events =>
    have hf : p'.chip.faults = [.program (start + k * g.writeSize)
        (gather target (start + k * g.writeSize) g.writeSize)] ++ p.chip.faults := by
      rw [Chip.faults, events]
      simp only [List.filterMap_cons, Event.faulted?, Chip.faults_record]
      rfl
    by_cases first : start + k * g.writeSize = 0
    · rw [first] at hf
      refine .lost _ hf _ (List.mem_singleton.2 rfl) ?_
      intro x hx
      rw [stored, refilled, if_neg (by omega), if_pos (by omega)]
    · refine .kept _ hf ?_ ?_
      · intro data hit
        rw [List.mem_singleton, Operation.program.injEq] at hit
        exact first hit.1.symm
      · rw [stored]
        refine front _ fun hs => ?_
        have hk : k ≠ 0 := by
          rintro rfl
          exact first (by rw [hs, Nat.zero_mul])
        exact Nat.le_trans page (Nat.le_mul_of_pos_left _ (Nat.pos_of_ne_zero hk))

theorem Committed.redirected {start : Nat} {data : Bytes} {report : Except FlashError BlockOutcome}
    (h : Committed p start data report p') (placed : p.Placed start data)
    (page : 2 ≤ g.writeSize) (slotted : p.layout.slot.isSome) : Redirected p p' := by
  cases h with
  | plain _ _ fixed update =>
    refine update.redirected page placed.aligned fun zero => ?_
    obtain hn | hn := fixed
    · rw [hn] at slotted
      cases slotted
    · exact absurd zero hn
  | unsupported slot _ zero unmovable => exact .of_chip_eq rfl
  | vectorFailed slot word e _ slotted' zero whole movable vector =>
    refine vector.redirected page (slot.block_aligned _) fun _ x hx => ?_
    have h2 := two_le_slot slotted' (by have := placed.nonempty; have := placed.le_application; omega)
    rw [VectorSlot.holding, if_neg (by omega), if_neg (by omega)]
  | moved slot word o p₁ _ _ slotted' zero whole movable vector update =>
    have h2 := two_le_slot slotted' (by have := placed.nonempty; have := placed.le_application; omega)
    refine (vector.redirected page (slot.block_aligned _) fun _ x hx => ?_).trans
      (update.redirected page (Nat.zero_mod _) fun _ x hx => ?_)
    · rw [VectorSlot.holding, if_neg (by omega), if_neg (by omega)]
    · exact wanted_of_kept ⟨by rw [vector.layout_eq]; exact slotted, rfl, hx⟩

end Programmer

namespace Stream

variable {g : Geometry}

theorem Step.redirected {s s' : Stream g} {report : Except FlashError Unit} (step : Step s report s')
    (small : g.eraseSize < addressSpace) (page : 2 ≤ g.writeSize) (ready : s.updater.Ready)
    (slotted : s.updater.flash.layout.slot.isSome) :
    s.updater.flash.Redirected s'.updater.flash := by
  obtain ⟨same, -⟩ | ⟨data, outcome, placed, committed⟩ := step.flash_cases small ready
  · exact .of_chip_eq same
  · exact committed.redirected placed page slotted

theorem Path.redirected {s s' : Stream g} (h : Path s s') (small : g.eraseSize < addressSpace)
    (page : 2 ≤ g.writeSize) (coherent : s.Coherent)
    (slotted : s.updater.flash.layout.slot.isSome) :
    s.updater.flash.Redirected s'.updater.flash :=
  (h.keeps (P := fun t => t.Coherent ∧ t.updater.flash.layout.slot.isSome ∧
      s.updater.flash.Redirected t.updater.flash)
    (fun ⟨hc, hs, hr⟩ => ⟨hc.restarted, hs, hr.trans (.of_chip_eq rfl)⟩)
    (fun ⟨hc, hs, hr⟩ step => ⟨step.coherent small hc,
      by rw [step.layout_eq small hc.ready]; exact hs,
      hr.trans (step.redirected small page hc.ready hs)⟩)
    ⟨coherent, slotted, .of_chip_eq rfl⟩).2.2

end Stream

namespace Session

variable {g : Geometry}

/-- Whatever a host sends and whatever fails, the vector that leads to the loader is what it was
exactly if no fault ever hit its page, or if it was erased to begin with. -/
theorem redirect_kept_iff (small : g.eraseSize < addressSpace) (page : 2 ≤ g.writeSize)
    {board : Board} {flash : Programmer g} {children : Children} {logger : Logger}
    (slotted : flash.layout.slot.isSome) {requests : List Request} {replies : List (Option Bytes)}
    {s : Session g}
    (served : (start board flash children logger).exchangeAll requests = .ok (replies, s)) :
    ∃ met, s.updater.flash.chip.faults = met ++ flash.chip.faults ∧
      ((∀ x < 2, s.updater.flash.stored x = flash.stored x) ↔
        (∀ x < 2, flash.stored x = 0xff) ∨ ∀ data, Operation.program 0 data ∉ met) := by
  have hu := start_updater board flash children logger
  have coherent : Stream.Coherent ⟨(start board flash children logger).updater, []⟩ := by
    rw [hu]
    exact (Stream.faithful_idle flash).coherent
  obtain ⟨accepted, path⟩ := exchangeAll_path served small coherent
  have hr := path.redirected small page coherent (by simp only [hu]; exact slotted)
  simp only [hu] at hr
  exact hr.kept_iff

/-- An erase of block zero that fails is made up for when the block comes again. -/
theorem redirect_kept_after_erase_fault :
    ∃ (requests : List Request) (replies : List (Option Bytes)) (s : Session .small),
      (start .interface (.small [⟨2, 8⟩]) .none .disabled).exchangeAll requests =
        .ok (replies, s) ∧
      s.updater.flash.chip.faults = [.erase 0] ∧
      ∀ x < 2, s.updater.flash.stored x = (Programmer.small [⟨2, 8⟩]).stored x := by
  obtain ⟨⟨replies, s⟩, served, good⟩ := exists_ok_of_any
    (x := (start .interface (.small [⟨2, 8⟩]) .none .disabled).exchangeAll
      (List.replicate 2 (.sealed .crc8 1 .writeFlash (addressBytes 0 ++ [0x12, 0xc0, 3, 4]))))
    (p := fun a => a.2.updater.flash.chip.faults = [.erase 0]) (by decide +kernel)
  have faults := of_decide_eq_true good
  obtain ⟨met, hm, kept⟩ := redirect_kept_iff (by decide) (by decide) rfl served
  rw [show (Programmer.small [⟨2, 8⟩]).chip.faults = [] from rfl, List.append_nil, faults] at hm
  refine ⟨_, replies, s, served, faults, kept.2 (.inr fun data hit => ?_)⟩
  rw [← hm, List.mem_singleton] at hit
  cases hit

/-- A page of block zero that fails is not: the commit that follows succeeds without the vector. -/
theorem redirect_lost_after_page_fault :
    ∃ (requests : List Request) (replies : List (Option Bytes)) (s : Session .small),
      (start .interface (.small [⟨3, 8⟩]) .none .disabled).exchangeAll requests =
        .ok (replies, s) ∧
      s.updater.commits.head?.map (fun c => (c.start, c.outcome)) = some (0, .ok .written) ∧
      s.updater.flash.stored 1 ≠ (Programmer.small [⟨3, 8⟩]).stored 1 := by
  obtain ⟨⟨replies, s⟩, served, good⟩ := exists_ok_of_any
    (x := (start .interface (.small [⟨3, 8⟩]) .none .disabled).exchangeAll
      (List.replicate 2 (.sealed .crc8 1 .writeFlash (addressBytes 0 ++ [0x12, 0xc0, 3, 4]))))
    (p := fun a =>
      a.2.updater.commits.head?.map (fun c => (c.start, c.outcome)) = some (0, .ok .written) ∧
        a.2.updater.flash.stored 1 ≠ (Programmer.small [⟨3, 8⟩]).stored 1) (by decide +kernel)
  exact ⟨_, replies, s, served, of_decide_eq_true good⟩

end Session

end FieldUpdate
