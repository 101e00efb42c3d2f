import FieldUpdate.Proofs.Calls
import FieldUpdate.Proofs.Refusals

namespace FieldUpdate

def Inbound.request (f : Inbound) (framing : Framing) (buffer : Bytes) : Request where
  framing
  address := f.address
  buffer := overlay buffer f.bytes
  len := f.len
  maxReply := min f.maxReply (overlay buffer f.bytes).length

theorem Listener.assign_of_assigned {l : Listener} {address : UInt8}
    (h : l.assigned = some address) : l.assign address = l := by
  rw [assign, ← h]

/-- One arrival, the session that takes it and what that leaves behind. -/
structure Turn (g : Geometry) where
  session : Session g
  framing : Framing
  buffer : Bytes
  arrival : Arrival
  arrived : Arrived g

namespace Turn

variable {g : Geometry}

def request? (t : Turn g) : Option Request :=
  match t.arrival with
  | .frame f =>
    if t.session.listener.hears f.address then some (f.request t.framing t.buffer) else none
  | .quiet => none
  | .failure _ => none

theorem request?_of_heard {s : Session g} {framing : Framing} {buffer : Bytes} {f : Inbound}
    {arrived : Arrived g} (heard : s.listener.hears f.address) :
    request? ⟨s, framing, buffer, .frame f, arrived⟩ = some (f.request framing buffer) :=
  if_pos heard

theorem request?_of_unheard {s : Session g} {framing : Framing} {buffer : Bytes} {f : Inbound}
    {arrived : Arrived g} (unheard : ¬s.listener.hears f.address) :
    request? ⟨s, framing, buffer, .frame f, arrived⟩ = none := if_neg unheard

/-- The address that is still to be announced: it was taken in a turn whose reply could not be sent,
and nothing was served to its end since. -/
def owes (t : Turn g) (before : Option UInt8) : Option UInt8 :=
  match t.request?, t.arrived.result with
  | none, _ => before
  | some _, .ok () => none
  | some r, .error _ => (r.addressing? t.session.board).join.or before

theorem owes_of_served {t : Turn g} {r : Request} (served : t.request? = some r)
    (finished : t.arrived.result = .ok ()) (before : Option UInt8) : t.owes before = none := by
  rw [owes, served, finished]

/-- The listener that the bus was last told of. -/
def told (t : Turn g) (before : Listener) : Listener :=
  (t.arrived.actions.filterMap BusAction.announced?).getLast?.getD before

end Turn

def lastTold {g : Geometry} (before : Listener) (turns : List (Turn g)) : Listener :=
  ((turns.flatMap fun t => t.arrived.actions).filterMap BusAction.announced?).getLast?.getD before

theorem lastTold_cons {g : Geometry} (before : Listener) (t : Turn g) (turns : List (Turn g)) :
    lastTold before (t :: turns) = lastTold (t.told before) turns := by
  rw [lastTold, List.flatMap_cons, List.filterMap_append, List.getLast?_append, Option.getD_or]
  rfl

def lastOwed {g : Geometry} (turns : List (Turn g)) : Option UInt8 :=
  turns.foldl (fun before t => t.owes before) none

namespace Session

variable {g : Geometry} {s s' last : Session g} {framing : Framing} {buffer : Bytes}
  {arrival : Arrival} {arrived : Arrived g} {turns : List (Turn g)}

inductive Takes : Session g → List (Turn g) → Session g → Prop
  | nil (s : Session g) : Takes s [] s
  | cons (t : Turn g) (rest : List (Turn g)) (last : Session g)
      (answer : t.session.arrive t.framing t.buffer t.arrival = .ok t.arrived)
      (later : Takes t.arrived.session rest last) : Takes t.session (t :: rest) last

/-- All that an arrival may come to. -/
inductive Took (s : Session g) (framing : Framing) (buffer : Bytes) : Arrival → Arrived g → Prop
  | quiet : Took s framing buffer .quiet ⟨.ok (), s, buffer, [.received]⟩
  | failed (reason : String) :
      Took s framing buffer (.failure reason) ⟨.error (.receive reason), s, buffer, [.received]⟩
  | ignored (f : Inbound) (unheard : ¬s.listener.hears f.address) :
      Took s framing buffer (.frame f)
        ⟨.ok (), s.note (.ignored f.address), overlay buffer f.bytes, [.received]⟩
  | unsent (f : Inbound) (heard : s.listener.hears f.address) (e : Exchanged (Session g))
      (answer : s.exchange (f.request framing buffer) = .ok e) (replied : e.reply ≠ none)
      (reason : String) (fails : f.sendError = some reason) :
      Took s framing buffer (.frame f) ⟨.error (.send reason), e.state, e.buffer, [.received]⟩
  | served (f : Inbound) (heard : s.listener.hears f.address) (e : Exchanged (Session g))
      (answer : s.exchange (f.request framing buffer) = .ok e)
      (sent : e.reply ≠ none → f.sendError = none) :
      Took s framing buffer (.frame f)
        ⟨.ok (), e.state.announce.1, e.buffer,
          .received :: (e.reply.toList.map .sent ++ e.state.announce.2)⟩

theorem took (h : s.arrive framing buffer arrival = .ok arrived) :
    Took s framing buffer arrival arrived := by
  cases arrival with
  | quiet =>
    cases h
    exact .quiet
  | failure reason =>
    cases h
    exact .failed reason
  | frame f =>
    rw [arrive] at h
    simp only at h
    split at h
    · rename_i heard
      obtain ⟨e, answer, h⟩ := bind_eq_ok.1 h
      split at h
      · rename_i silent
        cases h
        have served := Took.served f heard e answer fun replied => absurd silent replied
        rw [silent] at served
        exact served
      · rename_i reply replied
        split at h
        · rename_i reason fails
          cases h
          exact .unsent f heard e answer (by rw [replied]; exact Option.some_ne_none reply) reason
            fails
        · rename_i sent
          cases h
          have served := Took.served f heard e answer fun _ => sent
          rw [replied] at served
          exact served
    · rename_i unheard
      cases h
      exact .ignored f unheard

theorem announce_eq_of_due {s : Session g} (due : s.announceDue = true) :
    s.announce = ({ s with announceDue := false }, [.announced s.listener]) := if_pos due

theorem announce_eq_of_not_due {s : Session g} (told : s.announceDue = false) :
    s.announce = (s, []) := by rw [announce, told]; rfl

theorem announce_announceDue (s : Session g) : s.announce.1.announceDue = false := by
  cases hd : s.announceDue with
  | true =>
    rw [announce_eq_of_due hd]
  | false =>
    rw [announce_eq_of_not_due hd]
    exact hd

theorem announce_actions (s : Session g) : s.announce.2 =
    (if s.announceDue then some s.announce.1.listener else none).toList.map .announced := by
  rw [announce]
  cases s.announceDue with
  | true => rfl
  | false => rfl

/-- The bus was last told of `told`, and then an address was taken if one is owed. -/
structure Owing (told : Listener) (owed : Option UInt8) (s : Session g) : Prop where
  due : s.announceDue = owed.isSome
  listener : s.listener = owed.elim told told.assign

theorem Owing.readdressed {told : Listener} {owed : Option UInt8} (h : Owing told owed s)
    (address : Option UInt8) (due : s'.announceDue = (s.announceDue || address.isSome))
    (listener : s'.listener = (address.map some).elim s.listener fun assigned =>
      { s.listener with assigned }) : Owing told (address.or owed) s' := by
  rw [h.due] at due
  rw [h.listener] at listener
  constructor
  · rw [due]
    cases address <;> cases owed <;> rfl
  · rw [listener]
    cases address <;> cases owed <;> rfl

theorem told_announce (address : Option (Option UInt8))
    (due : s'.announceDue = (s.announceDue || address.isSome))
    (listener : s'.listener = address.elim s.listener fun assigned =>
      { s.listener with assigned }) :
    (s'.announce.2.filterMap BusAction.announced?).getLast?.getD s.listener =
      s'.announce.1.listener := by
  cases hd : s'.announceDue with
  | true =>
    rw [announce_eq_of_due hd]
    rfl
  | false =>
    rw [hd, eq_comm, Bool.or_eq_false_iff, Option.isSome_eq_false_iff, Option.isNone_iff_eq_none] at due
    rw [announce_eq_of_not_due hd, listener, due.2]
    rfl

theorem Owing.announced {told : Listener} {owed : Option UInt8} (h : Owing told owed s)
    (address : Option (Option UInt8)) (due : s'.announceDue = (s.announceDue || address.isSome))
    (listener : s'.listener = address.elim s.listener fun assigned =>
      { s.listener with assigned }) :
    Owing ((s'.announce.2.filterMap BusAction.announced?).getLast?.getD told) none
      s'.announce.1 := by
  refine ⟨s'.announce_announceDue, ?_⟩
  cases owed with
  | none =>
    have same : s.listener = told := h.listener
    rw [← same]
    exact (told_announce address due listener).symm
  | some taken =>
    have waits : s.announceDue = true := h.due
    rw [waits, Bool.true_or] at due
    rw [announce_eq_of_due due]
    rfl

theorem filterMap_announced?_sent (reply : Option Bytes) (actions : List BusAction) :
    (BusAction.received :: (reply.toList.map .sent ++ actions)).filterMap BusAction.announced? =
      actions.filterMap BusAction.announced? := by
  cases reply <;> rfl

theorem Owing.turn {t : Turn g} {told : Listener} {owed : Option UInt8}
    (h : Owing told owed t.session)
    (answer : t.session.arrive t.framing t.buffer t.arrival = .ok t.arrived) :
    Owing (t.told told) (t.owes owed) t.arrived.session := by
  rcases t with ⟨s, framing, buffer, arrival, arrived⟩
  replace answer : Took s framing buffer arrival arrived := took answer
  cases answer with
  | quiet => exact h
  | failed reason => exact h
  | ignored f unheard =>
    rw [Turn.owes, Turn.request?_of_unheard unheard]
    exact ⟨h.due, h.listener⟩
  | unsent f heard e answer replied reason fails =>
    rw [Turn.owes, Turn.request?_of_heard heard]
    have release := addressing?_of_reply answer replied s.board
    have due := exchange_announceDue answer
    have listener := exchange_listener answer
    rw [release] at due listener
    exact h.readdressed _ (by rw [due, Option.isSome_map]) listener
  | served f heard e answer sent =>
    rw [Turn.owes, Turn.request?_of_heard heard, Turn.told, filterMap_announced?_sent]
    exact h.announced _ (exchange_announceDue answer) (exchange_listener answer)

/-- A turn that goes well leaves the bus knowing what the session listens to, if it knew before. -/
theorem told_of_ok {t : Turn g}
    (answer : t.session.arrive t.framing t.buffer t.arrival = .ok t.arrived)
    (ok : t.arrived.result = .ok ()) : t.told t.session.listener = t.arrived.session.listener := by
  rcases t with ⟨s, framing, buffer, arrival, arrived⟩
  replace answer : Took s framing buffer arrival arrived := took answer
  cases answer with
  | quiet => rfl
  | failed reason => cases ok
  | ignored f unheard => rfl
  | unsent f heard e answer replied reason fails => cases ok
  | served f heard e answer sent =>
    rw [Turn.told, filterMap_announced?_sent]
    exact told_announce _ (exchange_announceDue answer) (exchange_listener answer)

theorem Takes.owing {told : Listener} {owed : Option UInt8} (run : Takes s turns last)
    (h : Owing told owed s) :
    Owing (lastTold told turns) (turns.foldl (fun before t => t.owes before) owed) last := by
  induction run generalizing told owed with
  | nil s => exact h
  | cons t rest last answer later ih =>
    rw [lastTold_cons, List.foldl_cons]
    exact ih (h.turn answer)

/-- Whatever arrived, the bus was last told of what the session listens to exactly if no other
address is owed, that is, one that was taken in a turn whose reply could not be sent, with nothing
served to its end since. -/
theorem told_iff_nothing_owed (settled : s.announceDue = false) (run : Takes s turns last) :
    lastTold s.listener turns = last.listener ↔
      ∀ address, lastOwed turns = some address →
        (lastTold s.listener turns).assigned = some address := by
  have owing := run.owing (⟨settled, rfl⟩ : Owing s.listener none s)
  rw [owing.listener]
  unfold lastOwed
  cases turns.foldl (fun before t => t.owes before) none with
  | none => exact ⟨fun _ _ => nofun, fun _ => rfl⟩
  | some address =>
    constructor
    · intro same other owed
      cases owed
      rw [same]
      rfl
    · intro assigned
      exact (Listener.assign_of_assigned (assigned address rfl)).symm

/-- An address is assigned and the acknowledgement fails; the frame that comes next is served, and
the bus is told. -/
theorem told_iff_nothing_owed_served :
    ∃ (s last : Session .small) (turns : List (Turn .small)), Takes s turns last ∧
      turns.map (fun t => t.arrived.result) = [.error (.send "busy"), .ok (), .ok ()] ∧
      lastTold s.listener turns = last.listener ∧ last.listener.assigned = some 0x10 := by
  let buffer : Bytes := List.replicate maxFrame 0
  let assign : Arrival :=
    .frame ⟨8, Framing.crc8.enclose 8 [1, 0x10, 0], 4, maxFrame, some "busy"⟩
  let f : Inbound := ⟨0x10, Framing.crc8.enclose 0x10 [0], 2, maxFrame, none⟩
  have settled := congrArg Standing.announceDue
    (start_standing .interface (.small []) .none .disabled)
  have taken : ((start .interface (.small []) .none .disabled).arrive .crc8 buffer
      assign).toOption.any fun a => (a.session.arrive .crc8 buffer .quiet).toOption.any fun b =>
        (b.session.arrive .crc8 buffer (.frame f)).toOption.any fun c =>
          [a, b, c].map Arrived.result = [.error (.send "busy"), .ok (), .ok ()] ∧
            b.session.listener.hears f.address ∧ c.session.listener.assigned = some 0x10 := by
    decide +kernel
  generalize start .interface (.small []) .none .disabled = s at settled taken
  obtain ⟨a, first, taken⟩ := exists_ok_of_any taken
  obtain ⟨b, second, taken⟩ := exists_ok_of_any taken
  obtain ⟨c, third, taken⟩ := exists_ok_of_any taken
  obtain ⟨results, heard, assigned⟩ := of_decide_eq_true taken
  have run := Takes.cons ⟨s, .crc8, buffer, assign, a⟩ _ _ first
    (.cons ⟨a.session, .crc8, buffer, .quiet, b⟩ _ _ second
      (.cons ⟨b.session, .crc8, buffer, .frame f, c⟩ _ _ third (.nil c.session)))
  refine ⟨s, c.session, _, run, results, ?_, assigned⟩
  apply (told_iff_nothing_owed settled run).2
  have finished : c.result = .ok () := by injections
  intro address owed
  cases (Turn.owes_of_served (Turn.request?_of_heard heard) finished _).symm.trans owed

/-- An address is assigned and the acknowledgement fails; nothing arrives, and the bus is not told. -/
theorem untold_after_unsent :
    ∃ (s last : Session .small) (turns : List (Turn .small)), s.announceDue = false ∧
      Takes s turns last ∧ turns.map (fun t => t.arrived.result) = [.error (.send "busy"), .ok ()] ∧
      lastTold s.listener turns ≠ last.listener := by
  let buffer : Bytes := List.replicate maxFrame 0
  let assign : Arrival :=
    .frame ⟨8, Framing.crc8.enclose 8 [1, 0x10, 0], 4, maxFrame, some "busy"⟩
  have settled := congrArg Standing.announceDue
    (start_standing .interface (.small []) .none .disabled)
  have taken : ((start .interface (.small []) .none .disabled).arrive .crc8 buffer
      assign).toOption.any fun a => (a.session.arrive .crc8 buffer .quiet).toOption.any fun b =>
        [a, b].map Arrived.result = [.error (.send "busy"), .ok ()] ∧
          ([a, b].flatMap Arrived.actions).filterMap BusAction.announced? = [] ∧
          (start .interface (.small []) .none .disabled).listener ≠ b.session.listener := by
    decide +kernel
  generalize start .interface (.small []) .none .disabled = s at settled taken
  obtain ⟨a, first, taken⟩ := exists_ok_of_any taken
  obtain ⟨b, second, taken⟩ := exists_ok_of_any taken
  obtain ⟨results, silent, differs⟩ := of_decide_eq_true taken
  refine ⟨s, b.session, _, settled, .cons ⟨s, .crc8, buffer, assign, a⟩ _ _ first
    (.cons ⟨a.session, .crc8, buffer, .quiet, b⟩ _ _ second (.nil b.session)), results, ?_⟩
  have told := congrArg (fun announced => announced.getLast?.getD s.listener) silent
  exact fun same => differs (told.symm.trans same)

end Session

end FieldUpdate
