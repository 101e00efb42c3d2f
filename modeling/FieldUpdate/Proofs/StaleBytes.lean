import FieldUpdate.Proofs.Lockstep
import FieldUpdate.Proofs.Replies
import Mathlib.Data.List.Forall2

namespace FieldUpdate

theorem Alike.bind_eq {α β γ : Type} {R : α → β → Prop} {x : Checked α} {y : Checked β}
    {f : α → Checked γ} {k : β → Checked γ} (h : Alike R x y)
    (next : ∀ a b, x = .ok a → y = .ok b → R a b → f a = k b) : (x >>= f) = y >>= k := by
  cases h with
  | crashed crash => rfl
  | answered a b related => exact next a b rfl rfl related

structure Request.SameFrame (r r' : Request) : Prop where
  framing : r'.framing = r.framing
  address : r'.address = r.address
  maxReply : r'.maxReply = r.maxReply
  size : r'.buffer.length = r.buffer.length
  frame : r'.frame = r.frame

namespace Request.SameFrame

variable {r r' : Request}

theorem room_eq (h : r.SameFrame r') : r'.room = r.room := by
  rw [room, room, h.maxReply, h.size]

theorem body_eq (h : r.SameFrame r') : r'.body = r.body := by
  rw [body, body, h.frame, h.framing]

theorem capacity_eq (h : r.SameFrame r') : r'.capacity = r.capacity := by
  rw [capacity, capacity, h.room_eq, h.framing]

theorem accepted (h : r.SameFrame r') (accepted : r.Accepted) : r'.Accepted where
  room := by rw [h.framing, h.room_eq]; exact accepted.room
  long := by rw [h.framing, h.frame]; exact accepted.long
  enclosed := by rw [h.framing, h.address, h.body_eq, h.frame]; exact accepted.enclosed
  size := by rw [h.body_eq]; exact accepted.size

theorem symm (h : r.SameFrame r') : r'.SameFrame r :=
  ⟨h.framing.symm, h.address.symm, h.maxReply.symm, h.size.symm, h.frame.symm⟩

theorem refusal_eq (h : r.SameFrame r') : r'.refusal = r.refusal := by
  rw [refusal, refusal, h.room_eq, h.framing, h.frame, h.address, h.body_eq]

theorem output_length_eq (h : r.SameFrame r') (room : r.framing.replyOverhead ≤ r.room) :
    r'.output.length = r.output.length := by
  rw [output_length room, output_length (by rw [h.framing, h.room_eq]; exact room), h.capacity_eq]

end Request.SameFrame

structure Exchanged.SameReply {σ : Type} (e e' : Exchanged σ) : Prop where
  replyLength : e'.replyLength = e.replyLength
  reply : e'.reply = e.reply
  state : e'.state = e.state
  size : e'.buffer.length = e.buffer.length

theorem Exchanged.sameReply_of_front {σ : Type} (frame : Bytes) {buffer buffer' : Bytes} (s : σ)
    (size : buffer'.length = buffer.length) :
    SameReply ⟨some frame.length, frame ++ buffer.drop frame.length, s⟩
      ⟨some frame.length, frame ++ buffer'.drop frame.length, s⟩ where
  replyLength := rfl
  reply := by
    rw [Exchanged.reply, Exchanged.reply, Option.map_some, Option.map_some, List.take_left,
      List.take_left]
  state := rfl
  size := by simp only [List.length_append, List.length_drop, size]

namespace Responder

variable {σ : Type} {p : Responder σ} {s : σ} {r r' : Request}

/-- Nothing of what a command comes to depends on what is in its output, and what it says it
answers with it writes. -/
structure Heedless (p : Responder σ) : Prop where
  output : ∀ s cmd payload output output', output'.length = output.length →
    p.run s cmd payload output' = p.run s cmd payload output
  exact : ∀ s cmd payload output answer s', p.run s cmd payload output = .ok (answer, s') →
    answer.Exact output.length

theorem Heedless.bounded (h : p.Heedless) : p.Bounded := by
  intro s cmd payload output answer s' run
  have exact := h.exact s cmd payload output answer s' run
  exact exact.length ▸ exact.fits

theorem overlay_front {output written : Bytes} {n : Nat} (length : written.length = n)
    (fits : written.length ≤ output.length) : (overlay output written).take n = written := by
  rw [overlay, List.take_of_length_le fits, ← length, List.take_left]

theorem exchange_same_frame (heedless : p.Heedless) (h : r.SameFrame r') :
    Alike Exchanged.SameReply (p.exchange s r) (p.exchange s r') := by
  by_cases everyone : r.address = generalCallAddress
  · rw [exchange, exchange, h.address, if_pos everyone, if_pos everyone, h.frame]
    cases r.frame with
    | nil => exact .answered _ _ ⟨rfl, rfl, rfl, h.size⟩
    | cons cmd rest => exact .answered _ _ ⟨rfl, rfl, rfl, h.size⟩
  have everyone' : r'.address ≠ generalCallAddress := by
    rw [h.address]
    exact everyone
  by_cases accepted : r.Accepted
  · obtain ⟨cmd, payload, body⟩ := Request.exists_body_eq_cons accepted.long
    have accepted' := h.accepted accepted
    have room := accepted.room
    have room' := accepted'.room
    have output := h.output_length_eq room
    have same := heedless.output s cmd payload _ _ output
    rw [exchange_of_accepted everyone accepted body,
      exchange_of_accepted everyone' accepted' (h.body_eq.trans body)]
    cases run : p.run s cmd payload r.output with
    | error crash =>
      rw [runInto_crash room run, runInto_crash room' (same.trans run)]
      exact .crashed crash
    | ok result =>
      obtain ⟨answer, s'⟩ := result
      have exact := heedless.exact _ _ _ _ _ _ run
      have fits := heedless.bounded _ _ _ _ _ _ run
      rw [Request.output_length room] at fits
      have size : (r'.filled answer.written).length = (r.filled answer.written).length := by
        rw [Request.filled_length room', Request.filled_length room, h.size]
      by_cases silent : answer.result.status = .noReply
      · rw [runInto_ok room run, runInto_ok room' (same.trans run), if_pos silent, if_pos silent]
        exact .answered _ _ ⟨rfl, rfl, rfl, size⟩
      · -- Both replies enclose what the command wrote and no byte beside it.
        have written := overlay_front exact.length exact.fits
        have written' := overlay_front exact.length (Nat.le_trans exact.fits (Nat.le_of_eq output.symm))
        rw [runInto_answers room run silent fits rfl, runInto_answers room' (same.trans run) silent
          (by rw [h.capacity_eq]; exact fits) rfl, written, written', h.framing, h.address]
        exact .answered _ _ (Exchanged.sameReply_of_front _ s' size)
  · have accepted' : ¬r'.Accepted := fun accepted' => accepted (h.symm.accepted accepted')
    cases refused : r.refusal with
    | none =>
      rw [exchange_of_not_accepted everyone accepted, exchange_of_not_accepted everyone' accepted',
        h.refusal_eq, refused]
      exact .answered _ _ ⟨rfl, rfl, rfl, h.size⟩
    | some status =>
      rw [exchange_of_refused everyone accepted refused rfl,
        exchange_of_refused everyone' accepted' (h.refusal_eq.trans refused) rfl, h.framing, h.address]
      exact .answered _ _ (Exchanged.sameReply_of_front _ s h.size)

end Responder

namespace Session

variable {g : Geometry} {s : Session g} {r r' : Request}

theorem responder_heedless : (responder : Responder (Session g)).Heedless where
  output s cmd payload output output' same := by
    change s.run cmd payload output' = s.run cmd payload output
    rw [run, run, same]
  exact s cmd payload output answer s' h := run_exact h

theorem noteCorrupt_same_frame (s : Session g) (h : r.SameFrame r') :
    s.noteCorrupt r' = s.noteCorrupt r := by
  rw [noteCorrupt, noteCorrupt, h.address, h.framing, h.frame]

theorem noteHandled_same_frame (s : Session g) (h : r.SameFrame r') {replyLength : Option Nat}
    {buffer buffer' : Bytes} (same : ∀ n, replyLength = some n →
      0 < n ∧ buffer'.take n = buffer.take n) :
    s.noteHandled r' replyLength buffer' = s.noteHandled r replyLength buffer := by
  unfold noteHandled
  rw [h.frame, h.address]
  cases replyLength with
  | none => cases r.frame <;> rfl
  | some n =>
    obtain ⟨some_bytes, front⟩ := same n rfl
    obtain ⟨m, rfl⟩ := Nat.exists_eq_succ_of_ne_zero (Nat.ne_of_gt some_bytes)
    cases r.frame with
    | nil => rfl
    | cons cmd rest =>
      cases buffer with
      | nil =>
        cases buffer' with
        | nil => rfl
        | cons b' rest' => cases front
      | cons b rest =>
        cases buffer' with
        | nil => cases front
        | cons b' rest' =>
          rw [List.take_succ_cons, List.take_succ_cons, List.cons.injEq] at front
          rw [front.1]

theorem exchange_same_frame (h : r.SameFrame r') :
    Alike Exchanged.SameReply (s.exchange r) (s.exchange r') := by
  rw [exchange, exchange, s.noteCorrupt_same_frame h]
  refine Alike.bind (Responder.exchange_same_frame responder_heedless h) ?_
  intro e e' answer same
  obtain ⟨-, -, replied⟩ := Responder.exchange_replied responder_bounded answer
  refine .answered _ _ ⟨same.replyLength, same.reply, ?_, same.size⟩
  rw [same.state, same.replyLength]
  apply noteHandled_same_frame _ h
  intro n hn
  have reply := same.reply
  rw [Exchanged.reply, Exchanged.reply, same.replyLength, hn] at reply
  have overhead := (replied n hn).overhead_le
  rw [Framing.replyOverhead] at overhead
  exact ⟨by omega, Option.some.inj reply⟩

end Session

/-- Two arrivals that show the same in two buffers: what is reported as received is the same, whatever
the bus has put behind it and whatever was there before. -/
inductive Arrival.Shows (buffer buffer' : Bytes) : Arrival → Arrival → Prop
  | quiet : Shows buffer buffer' .quiet .quiet
  | failure (reason : String) : Shows buffer buffer' (.failure reason) (.failure reason)
  | frame (f : Inbound) (bytes : Bytes)
      (reported : (overlay buffer' bytes).take f.len = (overlay buffer f.bytes).take f.len) :
      Shows buffer buffer' (.frame f) (.frame { f with bytes })

/-- A frame that was delivered in full, as far as a buffer takes it, and one that differs from it at
most behind its reported length. -/
inductive Arrival.Delivered (size : Nat) : Arrival → Arrival → Prop
  | quiet : Delivered size .quiet .quiet
  | failure (reason : String) : Delivered size (.failure reason) (.failure reason)
  | frame (f : Inbound) (bytes : Bytes) (whole : min f.len size ≤ f.bytes.length)
      (whole' : min f.len size ≤ bytes.length) (same : bytes.take f.len = f.bytes.take f.len) :
      Delivered size (.frame f) (.frame { f with bytes })

theorem take_overlay {buffer bytes : Bytes} {n : Nat} (whole : min n buffer.length ≤ bytes.length) :
    (overlay buffer bytes).take n = bytes.take (min n buffer.length) := by
  rw [overlay]
  by_cases past : buffer.length ≤ bytes.length
  · rw [List.drop_eq_nil_of_le past, List.append_nil, List.take_take]
  · have all : bytes.take buffer.length = bytes := List.take_of_length_le (by omega)
    rw [all, List.take_append_of_le_length (by omega), Nat.min_eq_left (by omega)]

theorem Arrival.Delivered.shows {buffer buffer' : Bytes} {arrival arrival' : Arrival}
    (h : arrival.Delivered buffer.length arrival') (size : buffer'.length = buffer.length) :
    arrival.Shows buffer buffer' arrival' := by
  cases h with
  | quiet => exact .quiet
  | failure reason => exact .failure reason
  | frame f bytes whole whole' same =>
    refine .frame f bytes ?_
    rw [take_overlay whole, take_overlay (by rw [size]; exact whole'), size, Nat.min_comm,
      ← List.take_take, ← List.take_take, same]

structure Arrived.Same {g : Geometry} (p p' : Arrived g) : Prop where
  result : p'.result = p.result
  session : p'.session = p.session
  actions : p'.actions = p.actions
  size : p'.buffer.length = p.buffer.length

namespace Session

variable {g : Geometry} {s : Session g} {r : Request} {framing : Framing} {buffer buffer' : Bytes}
  {arrival arrival' : Arrival} {arrivals arrivals' : List Arrival}

theorem arrive_same (size : buffer'.length = buffer.length)
    (shows : arrival.Shows buffer buffer' arrival') :
    Alike Arrived.Same (s.arrive framing buffer arrival) (s.arrive framing buffer' arrival') := by
  cases shows with
  | quiet => exact .answered _ _ ⟨rfl, rfl, rfl, size⟩
  | failure reason => exact .answered _ _ ⟨rfl, rfl, rfl, size⟩
  | frame f bytes reported =>
    have sizes : (overlay buffer' bytes).length = (overlay buffer f.bytes).length := by
      rw [overlay_length, overlay_length, size]
    rw [arrive, arrive]
    simp only [sizes]
    split
    · -- The request is the same frame, in buffers that differ only behind it.
      refine Alike.bind (exchange_same_frame ⟨rfl, rfl, rfl, sizes, reported⟩) ?_
      rintro e e' - same
      rw [same.reply]
      cases e.reply with
      | none =>
        rw [same.state]
        exact .answered _ _ ⟨rfl, rfl, rfl, same.size⟩
      | some reply =>
        simp only
        split
        · exact .answered _ _ ⟨rfl, same.state, rfl, same.size⟩
        · rw [same.state]
          exact .answered _ _ ⟨rfl, rfl, rfl, same.size⟩
    · exact .answered _ _ ⟨rfl, rfl, rfl, sizes⟩

inductive ShownAlike (framing : Framing) :
    Session g → Bytes → Bytes → List Arrival → List Arrival → Prop
  | done (s : Session g) (buffer buffer' : Bytes) : ShownAlike framing s buffer buffer' [] []
  | next (s : Session g) (buffer buffer' : Bytes) (arrival arrival' : Arrival)
      (rest rest' : List Arrival) (shows : arrival.Shows buffer buffer' arrival')
      (later : ∀ p p', s.arrive framing buffer arrival = .ok p →
        s.arrive framing buffer' arrival' = .ok p' →
        ShownAlike framing p.session p.buffer p'.buffer rest rest') :
      ShownAlike framing s buffer buffer' (arrival :: rest) (arrival' :: rest')

theorem serveFrom_same (size : buffer'.length = buffer.length)
    (shown : ShownAlike framing s buffer buffer' arrivals arrivals') :
    s.serveFrom framing buffer arrivals = s.serveFrom framing buffer' arrivals' := by
  induction shown with
  | done s buffer buffer' => rfl
  | next s buffer buffer' arrival arrival' rest rest' shows later ih =>
    rw [serveFrom, serveFrom]
    refine (arrive_same size shows).bind_eq fun p p' arrived arrived' same => ?_
    have rest := ih p p' arrived arrived' same.size
    rw [same.result, same.session, same.actions, rest]

theorem exchange_size {e : Exchanged (Session g)} (h : s.exchange r = .ok e) :
    e.buffer.length = r.buffer.length := by
  obtain ⟨e', answer, h⟩ := bind_eq_ok.1 h
  cases h
  exact (Responder.exchange_replied responder_bounded answer).1

theorem arrive_size {p : Arrived g} (h : s.arrive framing buffer arrival = .ok p) :
    p.buffer.length = buffer.length := by
  cases arrival with
  | quiet =>
    cases h
    rfl
  | failure reason =>
    cases h
    rfl
  | frame f =>
    have received : (overlay buffer f.bytes).length = buffer.length := overlay_length _ _
    rw [arrive] at h
    simp only at h
    split at h
    · obtain ⟨e, answer, h⟩ := bind_eq_ok.1 h
      have size := (exchange_size answer).trans received
      split at h
      · cases h
        exact size
      · split at h
        · cases h
          exact size
        · cases h
          exact size
    · cases h
      exact received

/-- Frames that were delivered in full show the same in any two buffers of that size. -/
theorem shownAlike_of_delivered (size : buffer'.length = buffer.length)
    (delivered : List.Forall₂ (Arrival.Delivered buffer.length) arrivals arrivals') :
    ShownAlike framing s buffer buffer' arrivals arrivals' := by
  induction arrivals generalizing s buffer buffer' arrivals' with
  | nil =>
    cases delivered
    exact .done s buffer buffer'
  | cons arrival rest ih =>
    cases delivered with
    | cons first later =>
      refine .next s buffer buffer' _ _ _ _ (first.shows size) fun p p' arrived arrived' => ?_
      have kept := arrive_size arrived
      refine ih ((arrive_size arrived').trans (size.trans kept.symm)) ?_
      rw [kept]
      exact later

/-- What lies behind a frame is invisible. In two buffers of one size that agree on the frame as far
as its reported length goes, a request has the same reply of the same length, or none, and leaves the
same session, or crashes in the same way. So a run that reuses its buffer is decided by what each
frame reports: two runs in which all frames show the same come to the same replies and the same
session, and frames that are delivered in full are all that a run depends on. -/
theorem stale_bytes_invisible (s : Session g) (framing : Framing) :
    (∀ (address : UInt8) (len maxReply : Nat) (buffer buffer' : Bytes),
      buffer'.length = buffer.length → buffer'.take len = buffer.take len →
      Alike Exchanged.SameReply (s.exchange ⟨framing, address, buffer, len, maxReply⟩)
        (s.exchange ⟨framing, address, buffer', len, maxReply⟩)) ∧
    (∀ (buffer buffer' : Bytes) (arrivals arrivals' : List Arrival),
      buffer'.length = buffer.length → ShownAlike framing s buffer buffer' arrivals arrivals' →
      s.serveFrom framing buffer arrivals = s.serveFrom framing buffer' arrivals') ∧
    ∀ arrivals arrivals' : List Arrival, List.Forall₂ (Arrival.Delivered maxFrame) arrivals arrivals' →
      s.serve framing arrivals = s.serve framing arrivals' ∧
      ∀ buffer buffer' : Bytes, buffer.length = maxFrame → buffer'.length = maxFrame →
        s.serveFrom framing buffer arrivals = s.serveFrom framing buffer' arrivals' := by
  have delivered {buffer buffer' : Bytes} {arrivals arrivals' : List Arrival}
      (full : List.Forall₂ (Arrival.Delivered maxFrame) arrivals arrivals')
      (size : buffer.length = maxFrame) (size' : buffer'.length = maxFrame) :
      s.serveFrom framing buffer arrivals = s.serveFrom framing buffer' arrivals' := by
    rw [← size] at full
    exact serveFrom_same (size'.trans size.symm)
      (shownAlike_of_delivered (size'.trans size.symm) full)
  refine ⟨fun address len maxReply buffer buffer' size front =>
      exchange_same_frame ⟨rfl, rfl, rfl, size, front⟩,
    fun buffer buffer' arrivals arrivals' size shown => serveFrom_same size shown,
    fun arrivals arrivals' full => ⟨?_, fun buffer buffer' => delivered full⟩⟩
  rw [serve, serve, delivered full List.length_replicate List.length_replicate]

/-- A question for the version in a buffer of zeros and in one of other bytes: the same reply and the
same session, though the buffers stay different. -/
theorem stale_bytes_invisible_version :
    ∃ e e' : Exchanged (Session .small),
      let s := start .interface (.small []) .none .disabled
      let question := Framing.crc8.enclose 1 [Command.getProtocolVersion.byte]
      s.exchange ⟨.crc8, 1, question ++ List.replicate 30 0, 2, 32⟩ = .ok e ∧
        s.exchange ⟨.crc8, 1, question ++ List.replicate 30 0xaa, 2, 32⟩ = .ok e' ∧
        e.replyLength = some 5 ∧ e'.reply = e.reply ∧ e'.state = e.state := by
  have alike := (stale_bytes_invisible (start .interface (.small []) .none .disabled) .crc8).1 1 2 32
    (Framing.crc8.enclose 1 [Command.getProtocolVersion.byte] ++ List.replicate 30 0)
    (Framing.crc8.enclose 1 [Command.getProtocolVersion.byte] ++ List.replicate 30 0xaa)
    (by decide) (by decide)
  obtain ⟨e, answer, good⟩ := exists_ok_of_any
    (x := (start .interface (.small []) .none .disabled).exchange ⟨.crc8, 1,
      Framing.crc8.enclose 1 [Command.getProtocolVersion.byte] ++ List.replicate 30 0, 2, 32⟩)
    (p := fun e => e.replyLength = some 5) (by decide +kernel)
  rw [answer] at alike
  generalize other : (start .interface (.small []) .none .disabled).exchange ⟨.crc8, 1,
    Framing.crc8.enclose 1 [Command.getProtocolVersion.byte] ++ List.replicate 30 0xaa, 2, 32⟩ =
      result at alike
  cases alike with
  | answered _ e' same => exact ⟨e, e', answer, other, of_decide_eq_true good, same.reply, same.state⟩

end Session

end FieldUpdate
