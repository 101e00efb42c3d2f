import FieldUpdate.Proofs.Updates

namespace FieldUpdate

namespace Operation

def address : Operation → Nat
  | erase address => address
  | program address _ => address

def stop (g : Geometry) : Operation → Nat
  | erase address => address + g.eraseSize
  | program address data => address + data.length

theorem read_apply_outside {g : Geometry} (m : Memory g.size) (op : Operation) {x : Nat}
    (outside : x < op.address ∨ op.stop g ≤ x) : (op.apply m).read x = m.read x := by
  cases op with
  | erase address =>
    simp only [Operation.address, stop] at outside
    rw [apply, Memory.read_store]
    split
    · rw [blank, List.getElem?_eq_none (by rw [List.length_replicate]; omega)]
      rfl
    · rfl
  | program address data =>
    simp only [Operation.address, stop] at outside
    rw [apply, Memory.read_store]
    split
    · rw [List.getElem?_eq_none (by rw [List.length_zipWith]; omega)]
      rfl
    · rfl

end Operation

namespace Event

variable {g : Geometry} {m : Memory g.size} {lo hi x : Nat} {events earlier later : List Event}

def started? : Event → Option Operation
  | refused op => some op
  | done op => some op
  | faulted op _ => some op
  | completed => none

/-- The cells after some events, the latest of which comes first. -/
def replay (m : Memory g.size) : List Event → Memory g.size
  | [] => m
  | .done op :: earlier => op.apply (replay m earlier)
  | .refused _ :: earlier => replay m earlier
  | .faulted _ _ :: earlier => replay m earlier
  | .completed :: earlier => replay m earlier

def Within (g : Geometry) (lo hi : Nat) (events : List Event) : Prop :=
  ∀ e ∈ events, ∀ op, e.started? = some op →
    lo ≤ op.address ∧ op.address < op.stop g ∧ op.stop g ≤ hi

theorem replay_append (m : Memory g.size) (later earlier : List Event) :
    replay m (later ++ earlier) = replay (replay m earlier) later := by
  induction later with
  | nil => rfl
  | cons e later ih => cases e <;> simp only [List.cons_append, replay, ih]

theorem within_nil : Within g lo hi [] := fun _ h => nomatch h

theorem Within.append (h : Within g lo hi earlier) (h' : Within g lo hi later) :
    Within g lo hi (later ++ earlier) := by
  intro e he
  obtain he | he := List.mem_append.1 he
  · exact h' e he
  · exact h e he

theorem Within.mono {lo' hi' : Nat} (h : Within g lo hi events) (hl : lo' ≤ lo) (hh : hi ≤ hi') :
    Within g lo' hi' events := by
  intro e he op hs
  obtain ⟨h₁, nonempty, h₂⟩ := h e he op hs
  exact ⟨Nat.le_trans hl h₁, nonempty, Nat.le_trans h₂ hh⟩

theorem Within.before (h : Within g lo hi (later ++ earlier)) : Within g lo hi earlier :=
  fun e he => h e (List.mem_append_right later he)

theorem within_of_only {op : Operation} (nonempty : op.address < op.stop g)
    (only : events.filterMap started? = [op]) : Within g op.address (op.stop g) events := by
  intro e he op' hs
  have hm := List.mem_filterMap.2 ⟨e, he, hs⟩
  rw [only, List.mem_singleton] at hm
  rw [hm]
  exact ⟨Nat.le_refl _, nonempty, Nat.le_refl _⟩

theorem Within.read_replay (h : Within g lo hi events) (outside : x < lo ∨ hi ≤ x) :
    (replay m events).read x = m.read x := by
  induction events with
  | nil => rfl
  | cons e earlier ih =>
    have rest := ih fun e he => h e (List.mem_cons_of_mem _ he)
    cases e with
    | done op =>
      obtain ⟨h₁, -, h₂⟩ := h _ List.mem_cons_self op rfl
      rw [replay, op.read_apply_outside _ (by omega), rest]
    | refused op => exact rest
    | faulted op bits => exact rest
    | completed => exact rest

end Event

namespace Programmer

variable {g : Geometry} {p p' p'' : Programmer g} {events events' : List Event}

/-- What was done to flash between two moments: the events of that time account for its cells,
and none of their operations went past the end of the writable part. -/
structure Journal (p : Programmer g) (events : List Event) (p' : Programmer g) : Prop where
  layout_eq : p'.layout = p.layout
  events_eq : p'.chip.events = events ++ p.chip.events
  memory_eq : p'.chip.memory = Event.replay p.chip.memory events
  writable : Event.Within g 0 p.layout.writableEnd.toNat events

namespace Journal

theorem of_chip_eq (layout : p'.layout = p.layout) (chip : p'.chip = p.chip) :
    Journal p [] p' := ⟨layout, by rw [chip]; rfl, by rw [chip]; rfl, Event.within_nil⟩

theorem refl (p : Programmer g) : Journal p [] p := of_chip_eq rfl rfl

theorem trans (h : Journal p events p') (h' : Journal p' events' p'') :
    Journal p (events' ++ events) p'' := by
  refine ⟨h'.layout_eq.trans h.layout_eq, ?_, ?_, ?_⟩
  · rw [h'.events_eq, h.events_eq, List.append_assoc]
  · rw [h'.memory_eq, h.memory_eq, Event.replay_append]
  · exact h.writable.append (by rw [← h.layout_eq]; exact h'.writable)

end Journal

theorem perform_journal (p : Programmer g) (op : Operation) (completedErases : Nat)
    (nonempty : op.address < op.stop g) (writable : op.stop g ≤ p.layout.writableEnd.toNat) :
    ∃ events, Journal p events { p with chip := (p.chip.perform op).2, completedErases } ∧
      Event.Within g op.address (op.stop g) events := by
  obtain ⟨report, chip, he, h⟩ := p.chip.perform_spec op
  rw [he]
  -- However the operation went, it is the only one that was started.
  have noted (events : List Event) (added : chip.events = events ++ p.chip.events)
      (cells : chip.memory = Event.replay p.chip.memory events)
      (only : events.filterMap Event.started? = [op]) :
      ∃ events, Journal p events { p with chip, completedErases } ∧
        Event.Within g op.address (op.stop g) events := by
    have within := Event.within_of_only nonempty only
    exact ⟨events, ⟨rfl, added, cells, within.mono (Nat.zero_le _) writable⟩, within⟩
  cases h with
  | done _ fits memory events kept => exact noted [.completed, .done op] events memory rfl
  | faulted bits _ fits memory events loud =>
    exact noted [.completed, .faulted op bits] events memory rfl
  | refused _ unfit memory events kept => exact noted [.refused op] events memory rfl

theorem erase_journal (p : Programmer g) (address : Nat) :
    ∃ events, Journal p events (p.erase address).2 ∧
      Event.Within g address (address + g.eraseSize) events := by
  unfold erase
  split
  · exact ⟨[], .refl p, Event.within_nil⟩
  · split
    · exact ⟨[], .refl p, Event.within_nil⟩
    · rename_i inside
      have writable : (Operation.erase address).stop g ≤ p.layout.writableEnd.toNat := by
        simpa [Programmer.writable, Operation.stop] using inside
      have nonempty : (Operation.erase address).address < (Operation.erase address).stop g :=
        Nat.lt_add_of_pos_right p.sound.eraseSize_pos
      split
      · rename_i e chip hc
        have h := p.perform_journal _ p.completedErases nonempty writable
        rw [hc] at h
        exact h
      · rename_i chip hc
        have h := p.perform_journal _ (min 255 (p.completedErases + 1)) nonempty writable
        rw [hc] at h
        exact h

theorem programPage_journal (p : Programmer g) (address : Nat) (data : Bytes) :
    ∃ events, Journal p events (p.programPage address data).2 ∧
      Event.Within g address (address + g.writeSize) events := by
  unfold programPage
  split
  · exact ⟨[], .refl p, Event.within_nil⟩
  · rename_i short
    split
    · exact ⟨[], .refl p, Event.within_nil⟩
    · rename_i inside
      have writable : (Operation.program address data).stop g ≤ p.layout.writableEnd.toNat := by
        simpa [Programmer.writable, Operation.stop] using inside
      simp only [Bool.or_eq_true, decide_eq_true_eq, not_or, List.isEmpty_iff] at short
      have nonempty : (Operation.program address data).address <
          (Operation.program address data).stop g :=
        Nat.lt_add_of_pos_right (List.length_pos_iff.2 short.1.1)
      obtain ⟨events, journal, within⟩ := p.perform_journal _ p.completedErases nonempty writable
      have hl : data.length ≤ g.writeSize := by omega
      exact ⟨events, journal, within.mono (Nat.le_refl _) (Nat.add_le_add_left hl address)⟩

theorem programPages_journal (p : Programmer g) (address : Nat) (pages : List Bytes) :
    ∃ events, Journal p events (p.programPages address pages).2 ∧
      Event.Within g address (address + pages.length * g.writeSize) events := by
  induction pages generalizing p address with
  | nil => exact ⟨[], .refl p, Event.within_nil⟩
  | cons page rest ih =>
    rw [List.length_cons, Nat.succ_mul]
    have reach : address + g.writeSize + rest.length * g.writeSize ≤
        address + (rest.length * g.writeSize + g.writeSize) := by omega
    rw [programPages]
    split
    · obtain ⟨events, journal, within⟩ := ih p (address + g.writeSize)
      exact ⟨events, journal, within.mono (Nat.le_add_right _ _) reach⟩
    · obtain ⟨events, journal, within⟩ := p.programPage_journal address page
      have within := within.mono (Nat.le_refl _)
        (show address + g.writeSize ≤ address + (rest.length * g.writeSize + g.writeSize) by omega)
      generalize p.programPage address page = result at journal ⊢
      obtain ⟨report, p₁⟩ := result
      cases report with
      | error e => exact ⟨events, journal, within⟩
      | ok done =>
        obtain ⟨events', journal', within'⟩ := ih p₁ (address + g.writeSize)
        exact ⟨events' ++ events, journal.trans journal',
          within.append (within'.mono (Nat.le_add_right _ _) reach)⟩

theorem refillBlock_journal (p : Programmer g) (start : Nat) {content : Bytes}
    (length : content.length = g.eraseSize) :
    ∃ events, Journal p events (p.refillBlock start content).2 ∧
      Event.Within g start (start + g.eraseSize) events := by
  obtain ⟨events, journal, within⟩ := p.erase_journal start
  unfold refillBlock
  generalize p.erase start = result at journal ⊢
  obtain ⟨report, p₁⟩ := result
  cases report with
  | error e => exact ⟨events, journal, within⟩
  | ok done =>
    obtain ⟨events', journal', within'⟩ := p₁.programPages_journal start (pages g.writeSize content)
    have hl : (pages g.writeSize content).length * g.writeSize = g.eraseSize := by
      rw [pages, List.length_map, List.length_range, length, Nat.div_mul_cancel g.writeSize_dvd]
    rw [hl] at within'
    exact ⟨events' ++ events, journal.trans journal', within.append within'⟩

/-- An update of a block is about that block, wherever it starts. -/
theorem updateBlock_journal {start : Nat} {content : Bytes}
    {report : Except FlashError BlockOutcome} (h : p.updateBlock start content = .ok (report, p')) :
    ∃ events, Journal p events p' ∧ Event.Within g start (start + g.eraseSize) events := by
  unfold updateBlock at h
  split at h
  · cases h
  · rename_i length
    obtain ⟨same, -, h⟩ := bind_eq_ok.1 h
    split at h
    · cases h
      exact ⟨[], .refl p, Event.within_nil⟩
    · cases h
      exact p.refillBlock_journal start (Classical.not_not.1 length)

theorem journal_kept (p : Programmer g) :
    KeptByUpdates fun p' => ∃ events, Journal p events p' := by
  intro p₁ p₂ start content report noted update
  rcases noted with ⟨events, journal⟩
  rcases updateBlock_journal update with ⟨events', journal', -⟩
  exact ⟨events' ++ events, journal.trans journal'⟩

end Programmer

namespace Updater

variable {g : Geometry} {u u' : Updater g} {data : Bytes}

theorem extend_journal {address : Nat} {report : Except StreamError Progress}
    (h : u.extend address data = .ok (report, u')) : ∃ events, u.flash.Journal events u'.flash :=
  kept_by_extend u.flash.journal_kept ⟨[], .refl _⟩ h

theorem finish_journal {report : Except FlashError Progress}
    (h : u.finish = .ok (report, u')) : ∃ events, u.flash.Journal events u'.flash :=
  kept_by_finish u.flash.journal_kept ⟨[], .refl _⟩ h

theorem meet_journal {demand : Demand} (h : u.meet demand = .ok u') :
    ∃ events, u.flash.Journal events u'.flash := by
  cases demand with
  | nothing =>
    cases h
    exact ⟨[], .refl _⟩
  | write address data =>
    obtain ⟨⟨report, u₁⟩, extend, h⟩ := bind_eq_ok.1 h
    cases h
    exact extend_journal extend
  | finish =>
    obtain ⟨⟨report, u₁⟩, finish, h⟩ := bind_eq_ok.1 h
    obtain ⟨events, journal⟩ := finish_journal finish
    cases report with
    | error e =>
      cases h
      exact ⟨events, journal⟩
    | ok progress =>
      cases h
      exact ⟨[] ++ events, journal.trans (.of_chip_eq rfl rfl)⟩

/-- The updaters that frames and direct calls reach over a part, in any order and whatever fails. -/
inductive Driven (flash : Programmer g) : Updater g → Prop
  | idle : Driven flash (.idle flash)
  | erase (u : Updater g) (before : Driven flash u) (address : Nat) :
      Driven flash { u with flash := (u.flash.erase address).2 }
  | programPage (u : Updater g) (before : Driven flash u) (address : Nat) (data : Bytes) :
      Driven flash { u with flash := (u.flash.programPage address data).2 }
  | updateBlock (u : Updater g) (before : Driven flash u) (start : Nat) (content : Bytes)
      (report : Except FlashError BlockOutcome) (p : Programmer g)
      (answer : u.flash.updateBlock start content = .ok (report, p)) :
      Driven flash { u with flash := p }
  | extend (u : Updater g) (before : Driven flash u) (address : Nat) (data : Bytes)
      (report : Except StreamError Progress) (u' : Updater g)
      (answer : u.extend address data = .ok (report, u')) : Driven flash u'
  | finish (u : Updater g) (before : Driven flash u) (report : Except FlashError Progress)
      (u' : Updater g) (answer : u.finish = .ok (report, u')) : Driven flash u'
  | exchange (s : Session g) (before : Driven flash s.updater) (r : Request)
      (e : Exchanged (Session g)) (answer : s.exchange r = .ok e) : Driven flash e.state.updater

theorem Driven.journal {flash : Programmer g} (h : Driven flash u) :
    ∃ events, flash.Journal events u.flash := by
  -- By what was done last: each call adds a journal of its own.
  induction h with
  | idle => exact ⟨[], .refl flash⟩
  | erase u before address ih =>
    obtain ⟨events, journal⟩ := ih
    obtain ⟨events', journal', -⟩ := u.flash.erase_journal address
    exact ⟨events' ++ events, journal.trans journal'⟩
  | programPage u before address data ih =>
    obtain ⟨events, journal⟩ := ih
    obtain ⟨events', journal', -⟩ := u.flash.programPage_journal address data
    exact ⟨events' ++ events, journal.trans journal'⟩
  | updateBlock u before start content report p answer ih =>
    obtain ⟨events, journal⟩ := ih
    obtain ⟨events', journal', -⟩ := Programmer.updateBlock_journal answer
    exact ⟨events' ++ events, journal.trans journal'⟩
  | extend u before address data report u' answer ih =>
    obtain ⟨events, journal⟩ := ih
    obtain ⟨events', journal'⟩ := extend_journal answer
    exact ⟨events' ++ events, journal.trans journal'⟩
  | finish u before report u' answer ih =>
    obtain ⟨events, journal⟩ := ih
    obtain ⟨events', journal'⟩ := finish_journal answer
    exact ⟨events' ++ events, journal.trans journal'⟩
  | exchange s before r e answer ih =>
    obtain ⟨events, journal⟩ := ih
    obtain ⟨events', journal'⟩ := meet_journal (Session.meet_of_exchange answer)
    exact ⟨events' ++ events, journal.trans journal'⟩

end Updater

end FieldUpdate
