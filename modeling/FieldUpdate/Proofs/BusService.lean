import FieldUpdate.Proofs.Turns

namespace FieldUpdate

namespace Turn

variable {g : Geometry} {t : Turn g} {s : Session g} {framing : Framing} {buffer : Bytes}
  {f : Inbound} {arrived : Arrived g} {e : Exchanged (Session g)}

def reply? (t : Turn g) : Option Bytes :=
  t.request?.bind fun r => (t.session.exchange r).toOption.bind Exchanged.reply

def failure? (t : Turn g) : Option BusError :=
  match t.arrival with
  | .quiet => none
  | .failure reason => some (.receive reason)
  | .frame f => t.reply?.bind fun _ => f.sendError.map .send

def exit? (t : Turn g) : Option Exit := t.request?.bind Request.exit?

def stop? (t : Turn g) : Option ServeEnd := (t.failure?.map .failed).or (t.exit?.map .left)

def sent? (t : Turn g) : Option Bytes := if t.failure? = none then t.reply? else none

/-- What is announced: the listener, once a request is served that changes it or an announcement
was still due. -/
def announced? (t : Turn g) : Option Listener :=
  if t.failure? = none ∧
      t.request?.any fun r => t.session.announceDue || (r.addressing? t.session.board).isSome then
    some t.arrived.session.listener
  else none

/-- The bus is asked once, then comes the reply and then the announcement; what is not for the
session leaves nothing but lines in the log. -/
structure Orderly (t : Turn g) : Prop where
  result : t.arrived.result = t.failure?.elim (.ok ()) .error
  actions : t.arrived.actions =
    .received :: (t.sent?.toList.map .sent ++ t.announced?.toList.map .announced)
  unheard : t.request? = none →
    t.arrived.actions = [.received] ∧ t.session.Noted t.arrived.session

theorem stop?_eq_none : t.stop? = none ↔ t.failure? = none ∧ t.exit? = none := by
  rw [stop?, Option.or_eq_none_iff, Option.map_eq_none_iff, Option.map_eq_none_iff]

theorem reply?_of_unheard (unheard : t.request? = none) : t.reply? = none := by
  rw [reply?, unheard]
  rfl

theorem announced?_of_unheard (unheard : t.request? = none) : t.announced? = none := by
  rw [announced?, unheard]
  exact if_neg fun served => nomatch served.2

theorem reply?_of_heard (heard : s.listener.hears f.address)
    (answer : s.exchange (f.request framing buffer) = .ok e) :
    reply? ⟨s, framing, buffer, .frame f, arrived⟩ = e.reply := by
  rw [reply?, request?_of_heard heard, Option.bind_some, answer]
  rfl

theorem failure?_frame : failure? ⟨s, framing, buffer, .frame f, arrived⟩ =
    (reply? ⟨s, framing, buffer, .frame f, arrived⟩).bind fun _ => f.sendError.map .send := rfl

theorem failure?_of_unheard (unheard : ¬s.listener.hears f.address) :
    failure? ⟨s, framing, buffer, .frame f, arrived⟩ = none := by
  rw [failure?_frame, reply?_of_unheard (request?_of_unheard unheard), Option.bind_none]

theorem failure?_of_unsent (heard : s.listener.hears f.address)
    (answer : s.exchange (f.request framing buffer) = .ok e) (replied : e.reply ≠ none)
    {reason : String} (fails : f.sendError = some reason) :
    failure? ⟨s, framing, buffer, .frame f, arrived⟩ = some (.send reason) := by
  obtain ⟨reply, replied⟩ := Option.ne_none_iff_exists'.1 replied
  rw [failure?_frame, reply?_of_heard heard answer, replied, Option.bind_some, fails,
    Option.map_some]

theorem failure?_of_sent (heard : s.listener.hears f.address)
    (answer : s.exchange (f.request framing buffer) = .ok e)
    (sent : e.reply ≠ none → f.sendError = none) :
    failure? ⟨s, framing, buffer, .frame f, arrived⟩ = none := by
  rw [failure?_frame, reply?_of_heard heard answer]
  cases replied : e.reply with
  | none => rfl
  | some reply =>
    rw [Option.bind_some, sent (by rw [replied]; exact Option.some_ne_none reply), Option.map_none]

theorem sent?_of_failure {error : BusError} (fails : t.failure? = some error) :
    t.sent? = none := by
  rw [sent?, fails]
  rfl

theorem announced?_of_failure {error : BusError} (fails : t.failure? = some error) :
    t.announced? = none := by
  rw [announced?, fails]
  exact if_neg fun goes => nomatch goes.1

end Turn

def Served.after {g : Geometry} (before : List BusAction) (x : Served g) : Served g :=
  { x with actions := before ++ x.actions }

namespace Session

variable {g : Geometry} {s last : Session g} {framing : Framing} {buffer left : Bytes}
  {arrival : Arrival} {turns : List (Turn g)}

theorem orderly {t : Turn g}
    (answer : t.session.arrive t.framing t.buffer t.arrival = .ok t.arrived) : t.Orderly := by
  rcases t with ⟨s, framing, buffer, arrival, arrived⟩
  replace answer : Took s framing buffer arrival arrived := took answer
  cases answer with
  | quiet => exact ⟨rfl, rfl, fun _ => ⟨rfl, .refl s⟩⟩
  | failed reason => exact ⟨rfl, rfl, fun _ => ⟨rfl, .refl s⟩⟩
  | ignored f unheard =>
    refine ⟨?_, ?_, fun _ => ⟨rfl, noted_note s _⟩⟩
    · rw [Turn.failure?_of_unheard unheard]
      rfl
    · rw [Turn.sent?, Turn.reply?_of_unheard (Turn.request?_of_unheard unheard),
        Turn.announced?_of_unheard (Turn.request?_of_unheard unheard), ite_self]
      rfl
  | unsent f heard e answer replied reason fails =>
    refine ⟨?_, ?_, fun unheard => ?_⟩
    · rw [Turn.failure?_of_unsent heard answer replied fails]
      rfl
    · rw [Turn.sent?_of_failure (Turn.failure?_of_unsent heard answer replied fails),
        Turn.announced?_of_failure (Turn.failure?_of_unsent heard answer replied fails)]
      rfl
    · cases (Turn.request?_of_heard heard).symm.trans unheard
  | served f heard e answer sent =>
    refine ⟨?_, ?_, fun unheard => ?_⟩
    · rw [Turn.failure?_of_sent heard answer sent]
      rfl
    · rw [Turn.sent?, Turn.announced?, Turn.failure?_of_sent heard answer sent, if_pos rfl,
        Turn.reply?_of_heard heard answer, Turn.request?_of_heard heard, announce_actions,
        exchange_announceDue answer]
      simp
    · cases (Turn.request?_of_heard heard).symm.trans unheard

/-- The session takes some arrivals one after the other, into one buffer. -/
inductive TakesInto (framing : Framing) :
    Session g → Bytes → List (Turn g) → Session g → Bytes → Prop
  | nil (s : Session g) (buffer : Bytes) : TakesInto framing s buffer [] s buffer
  | cons (t : Turn g) (turns : List (Turn g)) (last : Session g) (left : Bytes)
      (same : t.framing = framing)
      (answer : t.session.arrive t.framing t.buffer t.arrival = .ok t.arrived)
      (later : TakesInto framing t.arrived.session t.arrived.buffer turns last left) :
      TakesInto framing t.session t.buffer (t :: turns) last left

theorem TakesInto.split {before after : List (Turn g)}
    (run : TakesInto framing s buffer (before ++ after) last left) :
    ∃ mid between, TakesInto framing s buffer before mid between ∧
      TakesInto framing mid between after last left := by
  induction before generalizing s buffer with
  | nil => exact ⟨s, buffer, .nil s buffer, run⟩
  | cons t before ih =>
    cases run with
    | cons t later last left same answer later =>
      obtain ⟨mid, between, head, tail⟩ := ih later
      exact ⟨mid, between, .cons t before mid between same answer head, tail⟩

theorem TakesInto.orderly (run : TakesInto framing s buffer turns last left) :
    ∀ t ∈ turns, t.Orderly := by
  induction run with
  | nil s buffer => exact List.forall_mem_nil _
  | cons t turns last left same answer later ih =>
    exact List.forall_mem_cons.2 ⟨Session.orderly answer, ih⟩

/-- As long as the bus does not fail, it knows what the session listens to. -/
theorem TakesInto.told (run : TakesInto framing s buffer turns last left)
    (goes : ∀ t ∈ turns, t.stop? = none) : lastTold s.listener turns = last.listener := by
  induction run with
  | nil s buffer => rfl
  | cons t turns last left same answer later ih =>
    obtain ⟨first, goes⟩ := List.forall_mem_cons.1 goes
    have ok := (Session.orderly answer).result
    rw [(Turn.stop?_eq_none.1 first).1] at ok
    rw [lastTold_cons, told_of_ok answer ok]
    exact ih goes

def parted (s : Session g) : ServeEnd → Session g
  | .left exit => s.note (.leaving exit)
  | .failed _ => s
  | .waiting => s

/-- How serving a bus ends after some actions, by what stopped it and by what was not yet taken. -/
inductive Ends (last : Session g) (framing : Framing) (buffer : Bytes) (actions : List BusAction) :
    Option ServeEnd → List Arrival → Checked (Served g) → Prop
  | stopped (stop : ServeEnd) (rest : List Arrival) :
      Ends last framing buffer actions (some stop) rest (.ok ⟨stop, last.parted stop, actions⟩)
  | waiting : Ends last framing buffer actions none [] (.ok ⟨.waiting, last, actions⟩)
  | crashed (f : Inbound) (rest : List Arrival) (crash : Crash)
      (heard : last.listener.hears f.address)
      (answer : last.exchange (f.request framing buffer) = .error crash) :
      Ends last framing buffer actions none (.frame f :: rest) (.error crash)

theorem Ends.after {actions : List BusAction} {stop : Option ServeEnd} {rest : List Arrival}
    {result : Checked (Served g)} (h : Ends last framing buffer actions stop rest result)
    (before : List BusAction) :
    Ends last framing buffer (before ++ actions) stop rest (result.map (Served.after before)) := by
  cases h with
  | stopped stop rest => exact .stopped stop rest
  | waiting => exact .waiting
  | crashed f rest crash heard answer => exact .crashed f rest crash heard answer

end Session

end FieldUpdate
