import FieldUpdate.Proofs.Lockstep

namespace FieldUpdate

/-- What can happen to a session: a call, or a change of the hardware around it. -/
inductive Stimulus
  | request (r : Request)
  | arrival (framing : Framing) (buffer : Bytes) (arrival : Arrival)
  /-- The session serves a bus that these arrivals are on. -/
  | service (framing : Framing) (arrivals : List Arrival)
  /-- The part has one more fault in store. -/
  | fault (f : Fault)
  /-- The part stays busy for so many polls with every operation from now on. -/
  | pace (cycles : Nat)
  /-- These select lines cannot be driven from now on, and all others can. -/
  | breakage (lines : List Nat)

inductive Response
  | exchanged (reply : Option Bytes) (buffer : Bytes)
  | arrived (result : Except BusError Unit) (buffer : Bytes) (actions : List BusAction)
  | served (stop : ServeEnd) (actions : List BusAction)
  deriving DecidableEq

namespace Updater

variable {g : Geometry}

def facing (u : Updater g) (f : Fault) : Updater g :=
  { u with flash.chip.schedule := u.flash.chip.schedule ++ [f] }

def paced (u : Updater g) (cycles : Nat) : Updater g :=
  { u with flash.chip.busyCycles := cycles }

/-- Updaters that stay in step while the same happens to the parts below them. -/
structure Parallel (R : Updater g → Updater g → Prop) : Prop extends Lockstep R where
  facing : ∀ {u v} f, R u v → R (u.facing f) (v.facing f)
  paced : ∀ {u v} cycles, R u v → R (u.paced cycles) (v.paced cycles)

theorem parallel_eq : Parallel (Eq (α := Updater g)) where
  toLockstep := lockstep_eq
  facing f same := by rw [same]
  paced cycles same := by rw [same]

end Updater

structure Arrived.SameUpTo {g : Geometry} (S : Session g → Session g → Prop) (p q : Arrived g) :
    Prop where
  result : p.result = q.result
  buffer : p.buffer = q.buffer
  actions : p.actions = q.actions
  session : S p.session q.session

structure Served.SameUpTo {g : Geometry} (S : Session g → Session g → Prop) (x y : Served g) :
    Prop where
  stop : x.stop = y.stop
  actions : x.actions = y.actions
  session : S x.session y.session

namespace Session

variable {g : Geometry} {s t : Session g}

def respond (s : Session g) : Stimulus → Checked (Option Response × Session g)
  | .request r => do
    let e ← s.exchange r
    return (some (.exchanged e.reply e.buffer), e.state)
  | .arrival framing buffer arrival => do
    let p ← s.arrive framing buffer arrival
    return (some (.arrived p.result p.buffer p.actions), p.session)
  | .service framing arrivals => do
    let x ← s.serve framing arrivals
    return (some (.served x.stop x.actions), x.session)
  | .fault f => .ok (none, { s with updater := s.updater.facing f })
  | .pace cycles => .ok (none, { s with updater := s.updater.paced cycles })
  | .breakage lines => .ok (none, { s with children := s.children.setBroken lines })

def respondAll (s : Session g) : List Stimulus → Checked (List Response × Session g)
  | [] => .ok ([], s)
  | x :: rest => do
    let (response, s) ← s.respond x
    let (later, last) ← s.respondAll rest
    return (response.toList ++ later, last)

section Twins

variable {R : Updater g → Updater g → Prop} {L : Logger → Logger → Prop} {framing : Framing}

theorem Twins.listener (h : Twins R L s t) : t.listener = s.listener := by
  obtain ⟨v, l, rfl, -, -⟩ := h
  rfl

theorem Twins.exit (h : Twins R L s t) : t.exit = s.exit := by
  obtain ⟨v, l, rfl, -, -⟩ := h
  rfl

theorem Twins.announce (h : Twins R L s t) :
    s.announce.2 = t.announce.2 ∧ Twins R L s.announce.1 t.announce.1 := by
  obtain ⟨v, l, rfl, related, logged⟩ := h
  unfold Session.announce
  simp only
  split
  · exact ⟨rfl, v, l, rfl, related, logged⟩
  · exact ⟨rfl, v, l, rfl, related, logged⟩

theorem Twins.arrive (h : Twins R L s t) (lockstep : Updater.Lockstep R)
    (ties : Ties R (Twins R L)) (framing : Framing) (buffer : Bytes) (arrival : Arrival) :
    Alike (Arrived.SameUpTo (Twins R L)) (s.arrive framing buffer arrival)
      (t.arrive framing buffer arrival) := by
  cases arrival with
  | quiet => exact .answered _ _ ⟨rfl, rfl, rfl, h⟩
  | failure reason => exact .answered _ _ ⟨rfl, rfl, rfl, h⟩
  | frame f =>
    rw [Session.arrive, Session.arrive, h.listener]
    simp only
    split
    · apply (h.exchange lockstep ties _).bind
      rintro e e' - same
      obtain ⟨announced, later⟩ := same.state.announce
      rw [same.reply, announced]
      cases e'.reply with
      | none => exact .answered _ _ ⟨rfl, same.buffer, rfl, later⟩
      | some reply =>
        simp only
        split
        · exact .answered _ _ ⟨rfl, same.buffer, rfl, same.state⟩
        · exact .answered _ _ ⟨rfl, same.buffer, rfl, later⟩
    · exact .answered _ _ ⟨rfl, rfl, rfl, ties.note _ h⟩

theorem Twins.serveFrom (h : Twins R L s t) (lockstep : Updater.Lockstep R)
    (ties : Ties R (Twins R L)) (buffer : Bytes) (arrivals : List Arrival) :
    Alike (Served.SameUpTo (Twins R L)) (s.serveFrom framing buffer arrivals)
      (t.serveFrom framing buffer arrivals) := by
  induction arrivals generalizing s t buffer with
  | nil => exact .answered _ _ ⟨rfl, rfl, h⟩
  | cons arrival rest ih =>
    apply (h.arrive lockstep ties framing buffer arrival).bind
    rintro p q - same
    rw [same.result, same.actions, same.buffer, same.session.exit]
    cases q.result with
    | error e => exact .answered _ _ ⟨rfl, rfl, same.session⟩
    | ok done =>
      simp only
      cases p.session.exit with
      | some exit => exact .answered _ _ ⟨rfl, rfl, ties.note _ same.session⟩
      | none =>
        apply (ih same.session q.buffer).bind
        rintro x y - later
        exact .answered _ _ ⟨later.stop, congrArg (q.actions ++ ·) later.actions, later.session⟩

theorem Twins.serve (h : Twins R L s t) (lockstep : Updater.Lockstep R)
    (ties : Ties R (Twins R L)) (arrivals : List Arrival) :
    Alike (Served.SameUpTo (Twins R L)) (s.serve framing arrivals) (t.serve framing arrivals) := by
  apply (h.serveFrom lockstep ties _ arrivals).bind
  rintro x y - same
  refine .answered _ _ ⟨same.stop, ?_, same.session⟩
  rw [h.listener]
  exact congrArg (_ :: ·) same.actions

/-- Twins respond alike, and stay twins when the same happens to the hardware of both. -/
theorem Twins.respond (h : Twins R L s t) (parallel : Updater.Parallel R)
    (ties : Ties R (Twins R L)) (x : Stimulus) :
    Alike (SameReport (Twins R L)) (s.respond x) (t.respond x) := by
  cases x with
  | request r =>
    apply (h.exchange parallel.toLockstep ties r).bind
    rintro e e' - same
    exact .answered _ _ ⟨by rw [same.reply, same.buffer], same.state⟩
  | arrival framing buffer arrival =>
    apply (h.arrive parallel.toLockstep ties framing buffer arrival).bind
    rintro p q - same
    exact .answered _ _ ⟨by rw [same.result, same.buffer, same.actions], same.session⟩
  | service framing arrivals =>
    apply (h.serve parallel.toLockstep ties arrivals).bind
    rintro x y - same
    exact .answered _ _ ⟨by rw [same.stop, same.actions], same.session⟩
  | fault f => exact .answered _ _ ⟨rfl, ties.put h (parallel.facing f (ties.updater h))⟩
  | pace cycles => exact .answered _ _ ⟨rfl, ties.put h (parallel.paced cycles (ties.updater h))⟩
  | breakage lines =>
    obtain ⟨v, l, rfl, related, logged⟩ := h
    exact .answered _ _ ⟨rfl, v, l, rfl, related, logged⟩

theorem Twins.respondAll (h : Twins R L s t) (parallel : Updater.Parallel R)
    (ties : Ties R (Twins R L)) (stimuli : List Stimulus) :
    Alike (SameReport (Twins R L)) (s.respondAll stimuli) (t.respondAll stimuli) := by
  induction stimuli generalizing s t with
  | nil => exact .answered _ _ ⟨rfl, h⟩
  | cons x rest ih =>
    apply (h.respond parallel ties x).bind
    rintro ⟨response, s'⟩ ⟨_, t'⟩ - ⟨rfl, related⟩
    apply (ih related).bind
    rintro ⟨later, last⟩ ⟨_, last'⟩ - ⟨rfl, related'⟩
    exact .answered _ _ ⟨rfl, related'⟩

end Twins

def SameButLog (s t : Session g) : Prop := ∃ logger, t = { s with logger }

/-- Logging has no influence. Two sessions that differ in nothing but their loggers respond alike to
whatever happens to them, and then differ in nothing else either: neither the level of a logger nor
its sink, which may refuse any of the pieces of a line, has a part in it. Sessions that are started
alike but for their loggers are two such sessions. -/
theorem log_unheeded (logger : Logger) :
    (∀ (s : Session g) (stimuli : List Stimulus),
      Alike (SameReport SameButLog) (s.respondAll stimuli)
        ({ s with logger }.respondAll stimuli)) ∧
    ∀ (board : Board) (flash : Programmer g) (children : Children) (other : Logger),
      (start board flash children other).SameButLog (start board flash children logger) := by
  constructor
  · intro s stimuli
    have ties : Ties Eq (Twins (g := g) Eq fun _ _ => True) := ties_twins fun _ _ _ => trivial
    have twins : Twins Eq (fun _ _ => True) s { s with logger } :=
      ⟨s.updater, logger, rfl, rfl, trivial⟩
    apply (twins.respondAll Updater.parallel_eq ties stimuli).mono
    rintro ⟨responses, s'⟩ ⟨_, t'⟩ - ⟨rfl, v, l, rfl, rfl, -⟩
    exact ⟨rfl, l, rfl⟩
  · intro board flash children other
    unfold start
    simp only
    split
    · exact ⟨_, rfl⟩
    · exact ⟨_, rfl⟩

end Session

end FieldUpdate
