import FieldUpdate.Proofs.BlockFaults
import Mathlib.Data.List.Nodup

namespace FieldUpdate

/-- Of faults for different operations at most one is due, and the others are kept. -/
theorem takeDue_spec {schedule : List Fault} (apart : (schedule.map Fault.after).Nodup) :
    (∀ bits, (takeDue schedule).1 = some bits ↔ ⟨0, bits⟩ ∈ schedule) ∧
      (∀ f, f ∈ (takeDue schedule).2 ↔ f ∈ schedule ∧ f.after ≠ 0) ∧
      (takeDue schedule).2.Sublist schedule := by
  -- By the schedule; that no two faults are for one operation makes the due one unique.
  induction schedule with
  | nil => simp [takeDue]
  | cons f rest ih =>
    obtain ⟨fresh, apart⟩ := List.nodup_cons.1 apart
    obtain ⟨due, kept, sublist⟩ := ih apart
    by_cases now : f.after = 0
    · have others : ∀ f ∈ rest, f.after ≠ 0 := fun f' member same =>
        fresh (List.mem_map.2 ⟨f', member, same.trans now.symm⟩)
      have taken : takeDue (f :: rest) = (some f.bits, rest) := by rw [takeDue, if_pos now]
      rw [taken]
      refine ⟨fun bits => ?_, fun f' => ?_, List.sublist_cons_self f rest⟩
      · have foreign : (⟨0, bits⟩ : Fault) ∉ rest := fun member => others _ member rfl
        obtain ⟨after, bits'⟩ := f
        obtain rfl : after = 0 := now
        simp [foreign, eq_comm]
      · constructor
        · exact fun member => ⟨List.mem_cons_of_mem f member, others f' member⟩
        · rintro ⟨member, later⟩
          obtain rfl | member := List.mem_cons.1 member
          · exact absurd now later
          · exact member
    · have left : takeDue (f :: rest) = ((takeDue rest).1, f :: (takeDue rest).2) := by
        rw [takeDue, if_neg now]
      rw [left]
      refine ⟨fun bits => ?_, fun f' => ?_, sublist.cons_cons f⟩
      · have different : (⟨0, bits⟩ : Fault) ≠ f := fun same => now (same ▸ rfl)
        rw [due, List.mem_cons, or_iff_right different]
      · rw [List.mem_cons, List.mem_cons, kept]
        constructor
        · rintro (rfl | ⟨member, later⟩)
          · exact ⟨.inl rfl, now⟩
          · exact ⟨.inr member, later⟩
        · rintro ⟨rfl | member, later⟩
          · exact .inl rfl
          · exact .inr ⟨member, later⟩

theorem Fault.due_eq_some_iff {schedule : List Fault} {n : Nat} {bits : UInt16}
    (apart : (schedule.map Fault.after).Nodup) :
    Fault.due none schedule n = some bits ↔ ⟨n, bits⟩ ∈ schedule := by
  -- By the starts: each brings all faults one closer, and they stay apart.
  induction n generalizing schedule with
  | zero =>
    rw [Fault.due, Option.or_none]
    exact (takeDue_spec apart).1 bits
  | succ n ih =>
    obtain ⟨-, kept, sublist⟩ := takeDue_spec apart
    rw [Fault.due, ih, List.mem_map]
    · constructor
      · rintro ⟨⟨after, _⟩, member, closer⟩
        obtain ⟨member, later⟩ := (kept _).1 member
        cases after with
        | zero => exact absurd rfl later
        | succ after =>
          cases closer
          exact member
      · intro member
        exact ⟨⟨n + 1, bits⟩, (kept _).2 ⟨member, Nat.succ_ne_zero n⟩, rfl⟩
    · rw [List.map_map]
      have closer : (takeDue schedule).2.map (Fault.after ∘ fun f => { f with after := f.after - 1 }) =
          ((takeDue schedule).2.map Fault.after).map (· - 1) := by
        rw [List.map_map]
        rfl
      rw [closer]
      refine List.Nodup.map_on ?_ (apart.sublist (sublist.map _))
      intro a ha b hb same
      obtain ⟨f, hf, rfl⟩ := List.mem_map.1 ha
      obtain ⟨f', hf', rfl⟩ := List.mem_map.1 hb
      have later := ((kept f).1 hf).2
      have later' := ((kept f').1 hf').2
      omega

namespace Chip

variable {g : Geometry} {c d last : Chip g} {op : Operation} {n : Nat} {bits : UInt16}
  {report : Except FlashError Unit} {ops : List (Nat × Operation)}

/-- Polling up to the first report: the number of polls, the report and the part after it. -/
inductive Waits : Chip g → Nat → Except FlashError Unit → Chip g → Prop
  | ready (c last : Chip g) (report : Except FlashError Unit)
      (poll : c.poll = (some report, last)) : Waits c 1 report last
  | busy (c c' last : Chip g) (n : Nat) (report : Except FlashError Unit)
      (poll : c.poll = (none, c')) (later : Waits c' n report last) : Waits c (n + 1) report last

/-- A wait ends with the poll that comes after all busy ones. -/
theorem waits_iff : c.Waits n report last ↔ n = c.busy + 1 ∧ c.wait = (report, last) := by
  constructor
  · intro waits
    induction waits with
    | ready c last report poll =>
      rw [wait_eq_poll, poll]
      unfold Chip.poll at poll
      split at poll
      · rename_i idle
        exact ⟨by omega, rfl⟩
      · cases poll
    | busy c c' last n report poll later ih =>
      obtain ⟨polls, waited⟩ := ih
      rw [wait_eq_poll, poll]
      unfold Chip.poll at poll
      split at poll
      · cases poll
      · rename_i busy
        cases poll
        change n = c.busy - 1 + 1 at polls
        exact ⟨by omega, waited⟩
  · rintro ⟨rfl, waited⟩
    -- By the number of busy polls that are left.
    generalize busy : c.busy = k at *
    induction k generalizing c with
    | zero =>
      rw [wait_eq_poll, poll, if_pos busy] at waited
      cases waited
      refine .ready c _ _ ?_
      rw [poll, if_pos busy]
    | succ k ih =>
      have some_busy : ¬c.busy = 0 := by omega
      rw [wait_eq_poll, poll, if_neg some_busy] at waited
      refine .busy c c.tick last (k + 1) report ?_ (ih waited ?_)
      · rw [poll, if_neg some_busy]
      · rw [tick, busy]
        rfl

theorem perform_of_accepted (accepted : c.start op = (.ok (), d)) :
    d.busy = c.busyCycles ∧ c.perform op = d.wait := by
  have performed : c.perform op = d.wait := by rw [perform, accepted]
  refine ⟨?_, performed⟩
  unfold start at accepted
  simp only at accepted
  split at accepted
  · cases accepted
    unfold begin
    split <;> rfl
  · cases accepted

def reports (c : Chip g) : List (Nat × Operation) → List (Except FlashError Unit)
  | [] => []
  | (busyCycles, op) :: rest =>
    let (report, c) := { c with busyCycles }.perform op
    report :: c.reports rest

def Accepts (g : Geometry) (ops : List (Nat × Operation)) (n : Nat) : Prop :=
  ∃ x, ops[n]? = some x ∧ x.2.fits g

theorem accepts_zero {busyCycles : Nat} {rest : List (Nat × Operation)} :
    Accepts g ((busyCycles, op) :: rest) 0 ↔ op.fits g := by simp [Accepts]

/-- The fault that came due last, up to the operation after `n` others, was met by none of them. -/
def Faces (c : Chip g) (ops : List (Nat × Operation)) (n : Nat) (bits : UInt16) : Prop :=
  ∃ k ≤ n, c.meets k = some bits ∧ (∀ m, k < m → m ≤ n → c.meets m = none) ∧
    ∀ m, k ≤ m → m < n → ¬Accepts g ops m

theorem perform_unfit (unfit : ¬op.fits g) : c.perform op =
    (.error .invalidPage, { c.strike with events := .refused op :: c.events }) := by
  simp [perform, start, unfit, strike]

theorem perform_eq_hardware_iff :
    (c.perform op).1 = .error (.hardware bits) ↔ op.fits g ∧ c.meets 0 = some bits := by
  have strike : c.meets 0 = c.strike.armed := rfl
  by_cases fits : op.fits g
  · rw [strike]
    cases armed : c.strike.armed with
    | none => simp [perform_of_unarmed fits armed, fits]
    | some met =>
      obtain ⟨c', failed, -, -⟩ := perform_of_armed fits armed
      simp [failed, fits]
  · simp [perform_unfit fits, fits]

/-- Nothing is left of a fault that an operation met, but one that was due for an operation that is
refused stays for the next. -/
theorem meets_perform (c : Chip g) (op : Operation) (n : Nat) : (c.perform op).2.meets n =
    (c.meets (n + 1)).or (if n = 0 ∧ ¬op.fits g then c.meets 0 else none) := by
  by_cases fits : op.fits g
  · have consumed : (c.perform op).2.armed = none ∧
        (c.perform op).2.schedule = c.strike.schedule := by
      rw [perform_of_fits fits, begin]
      split
      · exact ⟨rfl, rfl⟩
      · rename_i armed
        exact ⟨armed, rfl⟩
    rw [meets, consumed.1, consumed.2, if_neg fun refused => refused.2 fits, Option.or_none]
    rfl
  · rw [perform_unfit fits]
    cases n with
    | zero =>
      have next : c.meets 1 = (takeDue c.strike.schedule).1 := Option.or_none
      rw [next, if_pos ⟨rfl, fits⟩]
      rfl
    | succ n =>
      rw [if_neg fun first => Nat.succ_ne_zero n first.1, Option.or_none]
      rfl

theorem faces_perform (c : Chip g) (busyCycles : Nat) (op : Operation)
    (rest : List (Nat × Operation)) (n : Nat) (bits : UInt16) :
    (c.perform op).2.Faces rest n bits ↔ c.Faces ((busyCycles, op) :: rest) (n + 1) bits := by
  have shift (m : Nat) : Accepts g ((busyCycles, op) :: rest) (m + 1) ↔ Accepts g rest m := Iff.rfl
  have meets := c.meets_perform op
  constructor
  · rintro ⟨k, within, met, last, refused⟩
    have behind (m : Nat) (later : k + 1 < m) (bound : m ≤ n + 1) : c.meets m = none := by
      obtain ⟨j, rfl⟩ : ∃ j, m = j + 1 := ⟨m - 1, by omega⟩
      have clear := last j (by omega) (by omega)
      rw [meets] at clear
      exact (Option.or_eq_none_iff.1 clear).1
    have skipped (m : Nat) (from_k : k + 1 ≤ m) (bound : m < n + 1) :
        ¬Accepts g ((busyCycles, op) :: rest) m := by
      obtain ⟨j, rfl⟩ : ∃ j, m = j + 1 := ⟨m - 1, by omega⟩
      exact mt (shift j).1 (refused j (by omega) (by omega))
    rw [meets] at met
    cases due : c.meets (k + 1) with
    | some other =>
      rw [due] at met
      exact ⟨k + 1, by omega, due.trans met, behind, skipped⟩
    | none =>
      -- What is faced next was due for the operation that was refused just now.
      rw [due, Option.none_or] at met
      split at met
      · rename_i left
        obtain ⟨rfl, unfit⟩ := left
        refine ⟨0, Nat.zero_le _, met, fun m later bound => ?_, fun m _ bound => ?_⟩
        · obtain rfl | later : m = 1 ∨ 1 < m := by omega
          · exact due
          · exact behind m later bound
        · obtain rfl | later : m = 0 ∨ 1 ≤ m := by omega
          · exact mt accepts_zero.1 unfit
          · exact skipped m later bound
      · cases met
  · rintro ⟨k, within, met, last, refused⟩
    cases k with
    | zero =>
      have unfit : ¬op.fits g := mt accepts_zero.2 (refused 0 (Nat.le_refl 0) (Nat.succ_pos n))
      refine ⟨0, Nat.zero_le n, ?_, fun m later bound => ?_, fun m _ bound => ?_⟩
      · rw [meets, last 1 (by omega) (by omega), if_pos ⟨rfl, unfit⟩]
        exact met
      · rw [meets, last (m + 1) (by omega) (by omega), if_neg (by omega)]
        rfl
      · exact mt (shift m).2 (refused (m + 1) (by omega) (by omega))
    | succ k =>
      refine ⟨k, by omega, ?_, fun m later bound => ?_, fun m from_k bound => ?_⟩
      · rw [meets, met]
        rfl
      · rw [meets, last (m + 1) (by omega) (by omega), if_neg (by omega)]
        rfl
      · exact mt (shift m).2 (refused (m + 1) (by omega) (by omega))

theorem reports_eq_hardware_iff : (c.reports ops)[n]? = some (.error (.hardware bits)) ↔
    Accepts g ops n ∧ c.Faces ops n bits := by
  induction ops generalizing c n with
  | nil => simp [reports, Accepts]
  | cons x rest ih =>
    obtain ⟨busyCycles, op⟩ := x
    cases n with
    | zero =>
      have faced : c.Faces ((busyCycles, op) :: rest) 0 bits ↔ c.meets 0 = some bits := by
        constructor
        · rintro ⟨k, first, met, -, -⟩
          obtain rfl := Nat.le_zero.1 first
          exact met
        · intro met
          exact ⟨0, Nat.le_refl 0, met, fun m later bound => by omega, fun m _ bound => by omega⟩
      have first : (c.reports ((busyCycles, op) :: rest))[0]? =
          some ({ c with busyCycles }.perform op).1 := rfl
      rw [first, Option.some.injEq, perform_eq_hardware_iff, faced, accepts_zero]
      exact Iff.rfl
    | succ n =>
      have next : (c.reports ((busyCycles, op) :: rest))[n + 1]? =
          (({ c with busyCycles }.perform op).2.reports rest)[n]? := rfl
      rw [next, ih, faces_perform { c with busyCycles } busyCycles op rest n bits]
      exact Iff.rfl

theorem reports_eq_scheduled_iff (fits : ∀ x ∈ ops, x.2.fits g) (unarmed : c.armed = none)
    (apart : (c.schedule.map Fault.after).Nodup) :
    (c.reports ops)[n]? = some (.error (.hardware bits)) ↔
      n < ops.length ∧ ⟨n, bits⟩ ∈ c.schedule := by
  have accepted (m : Nat) : Accepts g ops m ↔ m < ops.length := by
    constructor
    · rintro ⟨x, here, -⟩
      exact (List.getElem?_eq_some_iff.1 here).1
    · intro inside
      exact ⟨ops[m], List.getElem?_eq_getElem inside, fits _ (List.getElem_mem inside)⟩
  rw [reports_eq_hardware_iff, accepted, ← Fault.due_eq_some_iff apart, ← unarmed]
  refine and_congr_right fun inside => ?_
  constructor
  · rintro ⟨k, within, met, -, refused⟩
    obtain rfl | earlier := Nat.eq_or_lt_of_le within
    · exact met
    · have unfit := refused k (Nat.le_refl k) earlier
      exact absurd ((accepted k).2 (by omega)) unfit
  · intro met
    exact ⟨n, Nat.le_refl n, met, fun m later bound => by omega, fun m from_n bound => by omega⟩

end Chip

end FieldUpdate
