import FieldUpdate.Chip

namespace FieldUpdate

def Event.faulted? : Event → Option Operation
  | faulted op _ => some op
  | done _ => none
  | refused _ => none
  | completed => none

/-- What a part records of operations that were done in this order. -/
def Event.record (ops : List Operation) : List Event :=
  ops.reverse.flatMap fun op => [.completed, .done op]

theorem Event.record_cons (op : Operation) (ops : List Operation) (events : List Event) :
    Event.record (op :: ops) ++ events = Event.record ops ++ (.completed :: .done op :: events) := by
  simp [record]

theorem Event.record_append (ops ops' : List Operation) :
    Event.record (ops ++ ops') = Event.record ops' ++ Event.record ops := by
  simp [record]

theorem Event.faulted?_record (ops : List Operation) :
    (Event.record ops).filterMap Event.faulted? = [] := by
  apply List.filterMap_eq_nil_iff.2
  intro e he
  obtain ⟨op, -, h⟩ := List.mem_flatMap.1 he
  simp only [List.mem_cons, List.not_mem_nil, or_false] at h
  obtain rfl | rfl := h <;> rfl

def Operation.applyAll {g : Geometry} (m : Memory g.size) (ops : List Operation) : Memory g.size :=
  ops.foldl Operation.apply m

theorem Operation.applyAll_append {g : Geometry} (m : Memory g.size) (ops ops' : List Operation) :
    applyAll m (ops ++ ops') = applyAll (applyAll m ops) ops' := List.foldl_append

namespace Chip

variable {g : Geometry}

def Quiet (c : Chip g) : Prop := c.armed = none ∧ c.schedule = []

def faults (c : Chip g) : List Operation := c.events.filterMap Event.faulted?

theorem faults_record (ops : List Operation) (events : List Event) :
    (Event.record ops ++ events).filterMap Event.faulted? = events.filterMap Event.faulted? := by
  rw [List.filterMap_append, Event.faulted?_record, List.nil_append]

theorem strike_of_quiet {c : Chip g} (h : c.Quiet) : c.strike = c := by
  obtain ⟨memory, busyCycles, busy, armed, pending, schedule, events⟩ := c
  obtain ⟨rfl, rfl⟩ := h
  rfl

theorem waitOut_eq (n : Nat) (c : Chip g) :
    waitOut n c = (c.complete.1, { c.complete.2 with busy := c.busy - n }) := by
  induction n generalizing c with
  | zero => rfl
  | succ n ih =>
    rw [waitOut, ih]
    simp only [complete, tick, show c.busy - 1 - n = c.busy - (n + 1) by omega]

theorem wait_eq_poll (c : Chip g) :
    c.wait = match c.poll with
      | (some report, c') => (report, c')
      | (none, c') => c'.wait := by
  unfold wait poll
  cases hb : c.busy with
  | zero => rfl
  | succ n =>
    simp only [Nat.succ_ne_zero, if_false, waitOut, tick, hb]
    rfl

def after (c : Chip g) (ops : List Operation) : Chip g :=
  { c with
    memory := Operation.applyAll c.memory ops
    busy := 0
    pending := none
    events := Event.record ops ++ c.events }

theorem after_cons (c : Chip g) (op : Operation) (ops : List Operation) :
    (c.after [op]).after ops = c.after (op :: ops) := by
  simp [after, Event.record, Operation.applyAll]

/-- An operation that fits is started, and waited for whatever it meets. -/
theorem perform_of_fits {c : Chip g} {op : Operation} (fits : op.fits g) :
    c.perform op =
      ((c.strike.begin op).complete.1, { (c.strike.begin op).complete.2 with busy := 0 }) := by
  have h : c.perform op = (c.strike.begin op).wait := by simp [perform, start, fits]
  rw [h, wait, waitOut_eq, Nat.sub_self]

theorem perform_of_unarmed {c : Chip g} {op : Operation} (fits : op.fits g)
    (armed : c.strike.armed = none) : c.perform op = (.ok (), c.strike.after [op]) := by
  rw [perform_of_fits fits]
  simp [begin, armed, complete, after, Event.record, Operation.applyAll]

theorem perform_of_armed {c : Chip g} {op : Operation} {bits : UInt16} (fits : op.fits g)
    (armed : c.strike.armed = some bits) :
    ∃ c', c.perform op = (.error (.hardware bits), c') ∧ c'.memory = c.memory ∧
      c'.events = .completed :: .faulted op bits :: c.events := by
  rw [perform_of_fits fits]
  simp only [begin, armed, complete]
  exact ⟨_, rfl, rfl, rfl⟩

/-- What an operation may come to. -/
inductive Performed (c : Chip g) (op : Operation) : Except FlashError Unit → Chip g → Prop
  | done (c' : Chip g) (fits : op.fits g) (memory : c'.memory = op.apply c.memory)
      (events : c'.events = .completed :: .done op :: c.events) (quiet : c.Quiet → c'.Quiet) :
      Performed c op (.ok ()) c'
  | faulted (bits : UInt16) (c' : Chip g) (fits : op.fits g) (memory : c'.memory = c.memory)
      (events : c'.events = .completed :: .faulted op bits :: c.events) (loud : ¬c.Quiet) :
      Performed c op (.error (.hardware bits)) c'
  | refused (c' : Chip g) (unfit : ¬op.fits g) (memory : c'.memory = c.memory)
      (events : c'.events = .refused op :: c.events) (quiet : c.Quiet → c'.Quiet) :
      Performed c op (.error .invalidPage) c'

theorem perform_spec (c : Chip g) (op : Operation) :
    ∃ report c', c.perform op = (report, c') ∧ Performed c op report c' := by
  by_cases hf : op.fits g
  · cases ha : c.strike.armed with
    | none =>
      refine ⟨_, _, perform_of_unarmed hf ha, .done _ hf rfl rfl fun hq => ?_⟩
      rw [strike_of_quiet hq]
      exact hq
    | some bits =>
      obtain ⟨c', h, memory, events⟩ := perform_of_armed hf ha
      refine ⟨_, c', h, .faulted bits c' hf memory events fun hq => ?_⟩
      -- A quiet part has nothing to arm.
      rw [strike_of_quiet hq, hq.1] at ha
      cases ha
  · have h : c.perform op =
        (.error .invalidPage, { c.strike with events := .refused op :: c.strike.events }) := by
      simp [perform, start, hf]
    refine ⟨_, _, h, .refused _ hf rfl rfl fun hq => ?_⟩
    rw [strike_of_quiet hq]
    exact hq

def performAll (c : Chip g) : List Operation → Except FlashError Unit × Chip g
  | [] => (.ok (), c)
  | op :: rest =>
    match c.perform op with
    | (.error e, c) => (.error e, c)
    | (.ok (), c) => c.performAll rest

/-- What a list of operations may come to: all are done, or those before one that fails. -/
inductive PerformedAll (c : Chip g) (ops : List Operation) :
    Except FlashError Unit → Chip g → Prop
  | done (c' : Chip g) (memory : c'.memory = Operation.applyAll c.memory ops)
      (events : c'.events = Event.record ops ++ c.events) (quiet : c.Quiet → c'.Quiet) :
      PerformedAll c ops (.ok ()) c'
  | faulted (before : List Operation) (op : Operation) (after : List Operation) (bits : UInt16)
      (c' : Chip g) (split : ops = before ++ op :: after)
      (memory : c'.memory = Operation.applyAll c.memory before)
      (events : c'.events = .completed :: .faulted op bits :: (Event.record before ++ c.events))
      (loud : ¬c.Quiet) :
      PerformedAll c ops (.error (.hardware bits)) c'
  | refused (before : List Operation) (op : Operation) (after : List Operation) (c' : Chip g)
      (split : ops = before ++ op :: after) (unfit : ¬op.fits g)
      (memory : c'.memory = Operation.applyAll c.memory before)
      (events : c'.events = .refused op :: (Event.record before ++ c.events))
      (quiet : c.Quiet → c'.Quiet) :
      PerformedAll c ops (.error .invalidPage) c'

theorem performAll_spec (c : Chip g) (ops : List Operation) :
    ∃ report c', c.performAll ops = (report, c') ∧ PerformedAll c ops report c' := by
  induction ops generalizing c with
  | nil => exact ⟨_, _, rfl, .done c rfl rfl id⟩
  | cons op rest ih =>
    obtain ⟨report, c₁, he, h⟩ := c.perform_spec op
    rw [performAll, he]
    cases h with
    | faulted bits _ fits memory events loud =>
      exact ⟨_, _, rfl, .faulted [] op rest bits c₁ rfl memory events loud⟩
    | refused _ unfit memory events quiet =>
      exact ⟨_, _, rfl, .refused [] op rest c₁ rfl unfit memory events quiet⟩
    | done _ fits memory events quiet =>
      -- The first was done, so what the others come to decides.
      obtain ⟨report, c₂, he', h⟩ := ih c₁
      refine ⟨report, c₂, he', ?_⟩
      cases h with
      | done _ memory' events' quiet' =>
        refine .done c₂ ?_ ?_ (quiet' ∘ quiet)
        · rw [memory', memory]
          rfl
        · rw [events', events, Event.record_cons]
      | faulted before op' after bits _ split memory' events' loud =>
        refine .faulted (op :: before) op' after bits c₂ ?_ ?_ ?_ (loud ∘ quiet)
        · rw [split, List.cons_append]
        · rw [memory', memory]
          rfl
        · rw [events', events, Event.record_cons]
      | refused before op' after _ split unfit memory' events' quiet' =>
        refine .refused (op :: before) op' after c₂ ?_ unfit ?_ ?_ (quiet' ∘ quiet)
        · rw [split, List.cons_append]
        · rw [memory', memory]
          rfl
        · rw [events', events, Event.record_cons]

theorem perform_of_quiet {c : Chip g} {op : Operation} (quiet : c.Quiet) (fits : op.fits g) :
    c.perform op = (.ok (), c.after [op]) := by
  have unarmed : c.strike.armed = none := by
    rw [strike_of_quiet quiet]
    exact quiet.1
  rw [perform_of_unarmed fits unarmed, strike_of_quiet quiet]

theorem performAll_of_quiet {c : Chip g} {ops : List Operation} (quiet : c.Quiet)
    (ready : c.busy = 0 ∧ c.pending = none) (fits : ∀ op ∈ ops, op.fits g) :
    c.performAll ops = (.ok (), c.after ops) := by
  induction ops generalizing c with
  | nil =>
    obtain ⟨memory, busyCycles, busy, armed, pending, schedule, events⟩ := c
    obtain ⟨rfl, rfl⟩ := ready
    rfl
  | cons op rest ih =>
    rw [performAll, perform_of_quiet quiet (fits op List.mem_cons_self),
      ← after_cons c op rest]
    exact ih (c := c.after [op]) quiet ⟨rfl, rfl⟩ fun op h => fits op (List.mem_cons_of_mem _ h)

theorem erases_after (c : Chip g) (ops : List Operation) :
    (c.after ops).erases = c.erases + ops.countP Operation.isErase := by
  induction ops generalizing c with
  | nil => rfl
  | cons op rest ih =>
    rw [← after_cons, ih, List.countP_cons]
    simp [after, erases, Event.record, Event.accepted?, List.countP_cons]
    omega

end Chip

end FieldUpdate
