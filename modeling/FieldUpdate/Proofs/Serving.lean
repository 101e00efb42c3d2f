import FieldUpdate.Proofs.Demands

namespace FieldUpdate

def addressBytes (address : Nat) : Bytes := [(address / 256).toUInt8, address.toUInt8]

theorem addressBytes_append (address : Nat) (data : Bytes) :
    addressBytes address ++ data = (address / 256).toUInt8 :: address.toUInt8 :: data := rfl

theorem bigEndian_addressBytes {address : Nat} (h : address < addressSpace) :
    bigEndian (address / 256).toUInt8 address.toUInt8 = address := by
  have h' : address < 0x10000 := h
  simp only [bigEndian, Nat.toUInt8_eq, UInt8.toNat_ofNat']
  omega

theorem addressBytes_bigEndian (high low : UInt8) : addressBytes (bigEndian high low) = [high, low] := by
  have hl := low.toNat_lt
  have hh := high.toNat_lt
  rw [addressBytes, List.cons.injEq, List.cons.injEq]
  refine ⟨UInt8.toNat_inj.1 ?_, UInt8.toNat_inj.1 ?_, rfl⟩
  · rw [Nat.toUInt8_eq, UInt8.toNat_ofNat', bigEndian]
    omega
  · rw [Nat.toUInt8_eq, UInt8.toNat_ofNat', bigEndian]
    omega

/-- The request brings a command in a frame that was enclosed for its address, and leaves room for
an answer of `capacity` bytes. -/
structure Request.Brings (r : Request) (command : Command) (payload : Bytes) (capacity : Nat) :
    Prop where
  addressed : r.address ≠ generalCallAddress
  frame : r.frame = r.framing.enclose r.address (command.byte :: payload)
  fits : payload.length ≤ maxFrame
  room : r.framing.replyOverhead + capacity ≤ r.room

theorem Request.Brings.body {r : Request} {command : Command} {payload : Bytes} {capacity : Nat}
    (h : r.Brings command payload capacity) : r.body = command.byte :: payload := by
  rw [Request.body, h.frame, Framing.enclose_length, Nat.add_sub_cancel, Framing.enclose,
    List.take_left]

theorem Request.Brings.accepted {r : Request} {command : Command} {payload : Bytes}
    {capacity : Nat} (h : r.Brings command payload capacity) : r.Accepted where
  room := Nat.le_trans (Nat.le_add_right _ _) h.room
  long := by
    rw [h.frame, Framing.enclose_length, List.length_cons]
    omega
  enclosed := by rw [h.body, ← h.frame]
  size := by
    have := h.fits
    rw [h.body, List.length_cons]
    omega

theorem Request.Brings.capacity_le {r : Request} {command : Command} {payload : Bytes}
    {capacity : Nat} (h : r.Brings command payload capacity) : capacity ≤ r.capacity :=
  Nat.le_sub_of_add_le' h.room

theorem Request.Brings.demand {r : Request} {command : Command} {payload : Bytes} {capacity : Nat}
    (h : r.Brings command payload capacity) : r.demand = .ofCommand command payload := by
  rw [demand_of_accepted h.addressed h.accepted h.body, Demand.ofCall, Command.ofByte?_byte]

def Exchanged.Answers {σ : Type} (e : Exchanged σ) (r : Request) (status : Status)
    (payload : Bytes) : Prop :=
  e.reply = some (r.framing.enclose r.address
    (status.byte :: payload.length.toUInt8 :: payload))

instance {σ : Type} (e : Exchanged σ) (r : Request) (status : Status) (payload : Bytes) :
    Decidable (e.Answers r status payload) := inferInstanceAs (Decidable (_ = _))

theorem Exchanged.Answers.inj {σ : Type} {e : Exchanged σ} {r : Request} {status status' : Status}
    {payload payload' : Bytes} (h : e.Answers r status payload)
    (h' : e.Answers r status' payload') : status = status' ∧ payload = payload' := by
  have he := Option.some.inj (h.symm.trans h')
  have hl := congrArg List.length he
  rw [Framing.enclose_length, Framing.enclose_length] at hl
  have hb := (List.append_inj he (by omega)).1
  rw [List.cons.injEq, List.cons.injEq] at hb
  exact ⟨Status.byte_injective hb.1, hb.2.2⟩

structure Answer.Whole (a : Answer) (capacity : Nat) : Prop where
  sent : a.result.status ≠ .noReply
  length : a.written.length = a.result.len.toNat
  fits : a.written.length ≤ capacity

/-- What one request may make of an updater. -/
inductive Updater.Moved {g : Geometry} (u : Updater g) : Updater g → Prop
  | same : Moved u u
  | extended (address : Nat) (data : Bytes) (short : address + data.length < 0x100000000)
      (report : Except StreamError Progress) (u' : Updater g)
      (answer : u.extend address data = .ok (report, u')) : Moved u u'
  | failed (e : FlashError) (u' : Updater g) (answer : u.finish = .ok (.error e, u')) : Moved u u'
  | finished (progress : Progress) (u' : Updater g) (answer : u.finish = .ok (.ok progress, u')) :
      Moved u { u' with flash := u'.flash.takeErases.2 }

theorem Updater.moved_of_meet {g : Geometry} {u u' : Updater g} {demand : Demand}
    (short : demand.Short) (h : u.meet demand = .ok u') : u.Moved u' := by
  cases demand with
  | nothing =>
    cases h
    exact .same
  | write address data =>
    obtain ⟨⟨report, extended⟩, answer, h⟩ := bind_eq_ok.1 h
    cases h
    exact .extended address data short report _ answer
  | finish =>
    obtain ⟨⟨report, finished⟩, answer, h⟩ := bind_eq_ok.1 h
    cases report with
    | ok progress =>
      cases h
      exact .finished progress finished answer
    | error e =>
      cases h
      exact .failed e _ answer

namespace Session

variable {g : Geometry} {s s' : Session g} {r : Request} {command : Command} {payload : Bytes}
  {capacity : Nat}

theorem noteCorrupt_of_accepted (s : Session g) (accepted : r.Accepted) : s.noteCorrupt r = s := by
  have intact : r.framing.intact r.address r.frame = true := by
    rw [← accepted.enclosed]
    exact Framing.intact_enclose _ _ _
  unfold noteCorrupt
  rw [intact, if_neg fun corrupt => absurd corrupt.2.2.2 (by decide)]

theorem exchange_of_brings (h : r.Brings command payload capacity) :
    s.exchange r = (do
      let e ← responder.runInto s r r.capacity command.byte payload
      return { e with state := e.state.noteHandled r e.replyLength e.buffer }) := by
  rw [exchange, s.noteCorrupt_of_accepted h.accepted,
    Responder.exchange_of_accepted h.addressed h.accepted h.body]

theorem run_byte (s : Session g) (command : Command) (input output : Bytes) :
    s.run command.byte input output = s.perform command input output.length := by
  rw [run, Command.ofByte?_byte]

theorem responder_run_output (room : r.framing.replyOverhead ≤ r.room) (s : Session g)
    (command : Command) (payload : Bytes) :
    responder.run s command.byte payload r.output = s.perform command payload r.capacity := by
  rw [← Request.output_length room]
  exact s.run_byte command payload r.output

theorem exchange_of_perform {answer : Answer} (h : r.Brings command payload capacity)
    (run : s.perform command payload r.capacity = .ok (answer, s'))
    (whole : answer.Whole r.capacity) :
    ∃ e, s.exchange r = .ok e ∧ e.Answers r answer.result.status answer.written ∧
      e.state.updater = s'.updater := by
  obtain ⟨sent, length, fits⟩ := whole
  have room := h.accepted.room
  have given := (responder_run_output room s command payload).trans run
  have ha := Responder.runInto_answers room given sent (by omega) rfl
  -- The output starts with all that the command wrote.
  have hw : (overlay r.output answer.written).take answer.result.len.toNat = answer.written := by
    rw [overlay, Request.output_length room, List.take_of_length_le fits, ← length, List.take_left]
  have hn : answer.result.len = answer.written.length.toUInt8 := by
    rw [length, Nat.toUInt8_eq, UInt8.ofNat_toNat]
  rw [hw, hn] at ha
  rw [exchange_of_brings h, ha]
  exact ⟨_, rfl, congrArg some List.take_left, noteHandled_updater _ _ _ _⟩

theorem exchange_of_crash {crash : Crash} (h : r.Brings command payload capacity)
    (run : s.perform command payload r.capacity = .error crash) :
    s.exchange r = .error crash := by
  have room := h.accepted.room
  rw [exchange_of_brings h,
    Responder.runInto_crash room ((responder_run_output room s command payload).trans run)]
  rfl

def flashAnswer (e : FlashError) (capacity : Nat) : Answer :=
  if capacity = 0 then Status.failed.answer else ⟨⟨.failed, 1⟩, [e.code]⟩

def writeAnswer (report : Except StreamError Progress) (capacity : Nat) : Answer :=
  match report with
  | .ok _ => Status.ok.answer
  | .error (.flash e) => flashAnswer e capacity
  | .error .outOfSequence => Status.invalidArguments.answer
  | .error .outOfRange => Status.invalidArguments.answer

theorem answer_whole {status : Status} (sent : status ≠ .noReply) (capacity : Nat) :
    status.answer.Whole capacity := ⟨sent, rfl, Nat.zero_le _⟩

theorem flashAnswer_whole (e : FlashError) (capacity : Nat) :
    (flashAnswer e capacity).Whole capacity := by
  unfold flashAnswer
  split
  · exact answer_whole (by decide) capacity
  · rename_i some_room
    exact ⟨nofun, rfl, Nat.pos_of_ne_zero some_room⟩

theorem flashAnswer_status (e : FlashError) (capacity : Nat) :
    (flashAnswer e capacity).result.status = .failed := by
  unfold flashAnswer
  split <;> rfl

theorem writeAnswer_whole (report : Except StreamError Progress) (capacity : Nat) :
    (writeAnswer report capacity).Whole capacity := by
  unfold writeAnswer
  split
  · exact answer_whole (by decide) capacity
  · exact flashAnswer_whole _ capacity
  · exact answer_whole (by decide) capacity
  · exact answer_whole (by decide) capacity

theorem writeFlash_eq {address : Nat} (h : address < addressSpace) (data : Bytes) (capacity : Nat)
    {report : Except StreamError Progress} {u : Updater g}
    (he : s.updater.extend address data = .ok (report, u)) :
    ∃ s', s.writeFlash (addressBytes address ++ data) capacity =
      .ok (writeAnswer report capacity, s') ∧ s'.updater = u := by
  rw [addressBytes_append, writeFlash]
  simp only [bigEndian_addressBytes h, he]
  cases report with
  | ok progress => exact ⟨_, rfl, noteProgress_updater _ _⟩
  | error e =>
    cases e with
    | outOfSequence => exact ⟨_, rfl, rfl⟩
    | outOfRange => exact ⟨_, rfl, rfl⟩
    | flash e => exact ⟨_, rfl, rfl⟩

theorem finalizeFlash_error {e : FlashError} {u : Updater g} (capacity : Nat)
    (hf : s.updater.finish = .ok (.error e, u)) :
    ∃ s', s.finalizeFlash [] capacity = .ok (flashAnswer e capacity, s') ∧ s'.updater = u := by
  rw [finalizeFlash, hf]
  exact ⟨_, rfl, rfl⟩

theorem finalizeFlash_ok {progress : Progress} {u : Updater g} (capacity : Nat)
    (hf : s.updater.finish = .ok (.ok progress, u)) :
    ∃ s', s.finalizeFlash [] capacity =
        .ok (Answer.reply capacity [u.flash.completedErases.toUInt8], s') ∧
      s'.updater = { u with flash := u.flash.takeErases.2 } := by
  rw [finalizeFlash, hf]
  exact ⟨_, rfl, noteProgress_updater _ _⟩

theorem exchange_write {address : Nat} {data : Bytes} (h : address < addressSpace)
    (brings : r.Brings .writeFlash (addressBytes address ++ data) capacity)
    {report : Except StreamError Progress} {u : Updater g}
    (he : s.updater.extend address data = .ok (report, u)) :
    ∃ e, s.exchange r = .ok e ∧ e.state.updater = u ∧
      e.Answers r (writeAnswer report r.capacity).result.status
        (writeAnswer report r.capacity).written := by
  obtain ⟨s', hw, hu⟩ := writeFlash_eq h data r.capacity he
  obtain ⟨e, hx, ha, hs⟩ := exchange_of_perform brings hw (writeAnswer_whole _ _)
  exact ⟨e, hx, hs.trans hu, ha⟩

theorem exchange_write_crash {address : Nat} {data : Bytes} (h : address < addressSpace)
    (brings : r.Brings .writeFlash (addressBytes address ++ data) capacity) {crash : Crash}
    (he : s.updater.extend address data = .error crash) : s.exchange r = .error crash := by
  refine exchange_of_crash brings ?_
  rw [perform, addressBytes_append, writeFlash]
  simp only [bigEndian_addressBytes h, he]
  rfl

/-- What a request with the command to write may come to, with this payload. -/
inductive Wrote (s : Session g) (r : Request) (e : Exchanged (Session g)) : Bytes → Prop
  | malformed (input : Bytes) (short : input.length < 2) (same : e.state.updater = s.updater)
      (answer : e.Answers r .invalidArguments []) : Wrote s r e input
  | extended (high low : UInt8) (data : Bytes) (report : Except StreamError Progress)
      (extend : s.updater.extend (bigEndian high low) data = .ok (report, e.state.updater))
      (answer : e.Answers r (writeAnswer report r.capacity).result.status
        (writeAnswer report r.capacity).written) : Wrote s r e (high :: low :: data)

theorem exchange_write_malformed {input : Bytes} (brings : r.Brings .writeFlash input capacity)
    (short : input.length < 2) :
    ∃ e, s.exchange r = .ok e ∧ e.state.updater = s.updater ∧
      e.Answers r .invalidArguments [] := by
  have run : s.perform .writeFlash input r.capacity =
      .ok (Status.invalidArguments.answer, s) := by
    rcases input with _ | ⟨_, _ | ⟨_, data⟩⟩
    · rfl
    · rfl
    · simp only [List.length_cons] at short
      omega
  obtain ⟨e, hx, ha, hs⟩ := exchange_of_perform brings run (answer_whole (by decide) _)
  exact ⟨e, hx, hs, ha⟩

theorem wrote_of_exchange {e : Exchanged (Session g)} {input : Bytes}
    (brings : r.Brings .writeFlash input capacity) (answer : s.exchange r = .ok e) :
    Wrote s r e input := by
  by_cases short : input.length < 2
  · rcases exchange_write_malformed brings short with ⟨e', hx, hu, ha⟩
    cases hx.symm.trans answer
    exact .malformed input short hu ha
  · rcases input with _ | ⟨high, _ | ⟨low, data⟩⟩
    · exact absurd (by decide) short
    · exact absurd Nat.one_lt_two short
    · have addressed : r.Brings .writeFlash (addressBytes (bigEndian high low) ++ data) capacity := by
        rw [addressBytes_bigEndian]
        exact brings
      have small := bigEndian_lt high low
      cases he : s.updater.extend (bigEndian high low) data with
      | error crash => cases (exchange_write_crash small addressed he).symm.trans answer
      | ok result =>
        rcases result with ⟨report, u⟩
        rcases exchange_write small addressed he with ⟨e', hx, hu, ha⟩
        cases hx.symm.trans answer
        exact .extended high low data report (by rw [he, hu]) ha

theorem write_of_exchange {address : Nat} {data : Bytes} {e : Exchanged (Session g)}
    (h : address < addressSpace)
    (brings : r.Brings .writeFlash (addressBytes address ++ data) capacity)
    (answer : s.exchange r = .ok e) :
    ∃ report, s.updater.extend address data = .ok (report, e.state.updater) ∧
      ((∃ progress, report = .ok progress) ∨ ∀ payload, ¬e.Answers r .ok payload) ∧
      ((∃ error, report = .error (.flash error)) ∨ ∀ payload, ¬e.Answers r .failed payload) := by
  have wrote := wrote_of_exchange brings answer
  rw [addressBytes_append] at wrote
  cases wrote with
  | malformed _ short =>
    simp only [List.length_cons] at short
    omega
  | extended _ _ _ report extended ha =>
    rw [bigEndian_addressBytes h] at extended
    refine ⟨report, extended, ?_⟩
    rcases report with (_ | _ | error) | progress
    · exact ⟨.inr fun _ h => (nomatch (h.inj ha).1), .inr fun _ h => nomatch (h.inj ha).1⟩
    · exact ⟨.inr fun _ h => (nomatch (h.inj ha).1), .inr fun _ h => nomatch (h.inj ha).1⟩
    · refine ⟨.inr fun payload h => ?_, .inl ⟨error, rfl⟩⟩
      cases (h.inj ha).1.trans (flashAnswer_status error _)
    · exact ⟨.inl ⟨progress, rfl⟩, .inr fun _ h => nomatch (h.inj ha).1⟩

theorem exchange_finalize {progress : Progress} {u : Updater g}
    (brings : r.Brings .finalizeFlash [] 1) (hf : s.updater.finish = .ok (.ok progress, u)) :
    ∃ e, s.exchange r = .ok e ∧ e.state.updater = { u with flash := u.flash.takeErases.2 } ∧
      e.Answers r .ok [u.flash.completedErases.toUInt8] := by
  obtain ⟨s', hw, hu⟩ := finalizeFlash_ok r.capacity hf
  have hr := brings.capacity_le
  have hc : Answer.reply r.capacity
      [u.flash.completedErases.toUInt8] = ⟨⟨.ok, 1⟩, [u.flash.completedErases.toUInt8]⟩ :=
    if_pos (by rw [List.length_singleton]; omega)
  rw [hc] at hw
  obtain ⟨e, hx, ha, hs⟩ := exchange_of_perform brings hw
    ⟨nofun, rfl, by rw [List.length_singleton]; omega⟩
  exact ⟨e, hx, hs.trans hu, ha⟩

theorem exchange_finalize_failed {error : FlashError} {u : Updater g}
    (brings : r.Brings .finalizeFlash [] capacity)
    (hf : s.updater.finish = .ok (.error error, u)) :
    ∃ e, s.exchange r = .ok e ∧ e.state.updater = u ∧
      e.Answers r .failed (flashAnswer error r.capacity).written := by
  obtain ⟨s', hw, hu⟩ := finalizeFlash_error r.capacity hf
  obtain ⟨e, hx, ha, hs⟩ := exchange_of_perform brings hw (flashAnswer_whole _ _)
  rw [flashAnswer_status] at ha
  exact ⟨e, hx, hs.trans hu, ha⟩

theorem exchange_finalize_crash {crash : Crash} (brings : r.Brings .finalizeFlash [] capacity)
    (hf : s.updater.finish = .error crash) : s.exchange r = .error crash := by
  refine exchange_of_crash brings ?_
  rw [perform, finalizeFlash, hf]
  rfl

/-- Without room for a byte the erases are taken and not told. -/
theorem exchange_finalize_untold {progress : Progress} {u : Updater g}
    (brings : r.Brings .finalizeFlash [] capacity) (full : r.capacity = 0)
    (hf : s.updater.finish = .ok (.ok progress, u)) :
    ∃ e, s.exchange r = .ok e ∧ e.state.updater = { u with flash := u.flash.takeErases.2 } ∧
      e.Answers r .invalidTransfer [] := by
  obtain ⟨s', hw, hu⟩ := finalizeFlash_ok r.capacity hf
  have hc : Answer.reply r.capacity [u.flash.completedErases.toUInt8] =
      Status.invalidTransfer.answer := if_neg (by rw [List.length_singleton]; omega)
  rw [hc] at hw
  obtain ⟨e, hx, ha, hs⟩ := exchange_of_perform brings hw (answer_whole (by decide) _)
  exact ⟨e, hx, hs.trans hu, ha⟩

theorem exchange_finalize_malformed {input : Bytes}
    (brings : r.Brings .finalizeFlash input capacity) (nonempty : input ≠ []) :
    ∃ e, s.exchange r = .ok e ∧ e.state.updater = s.updater ∧
      e.Answers r .invalidArguments [] := by
  have run : s.perform .finalizeFlash input r.capacity =
      .ok (Status.invalidArguments.answer, s) := by
    cases input with
    | nil => exact absurd rfl nonempty
    | cons b rest => rfl
  obtain ⟨e, hx, ha, hs⟩ := exchange_of_perform brings run (answer_whole (by decide) _)
  exact ⟨e, hx, hs, ha⟩

inductive Ended (s : Session g) (r : Request) (e : Exchanged (Session g)) : Bytes → Prop
  | malformed (input : Bytes) (nonempty : input ≠ []) (same : e.state.updater = s.updater)
      (answer : e.Answers r .invalidArguments []) : Ended s r e input
  | failed (error : FlashError) (finish : s.updater.finish = .ok (.error error, e.state.updater))
      (answer : e.Answers r .failed (flashAnswer error r.capacity).written) : Ended s r e []
  | untold (progress : Progress) (u : Updater g) (finish : s.updater.finish = .ok (.ok progress, u))
      (state : e.state.updater = { u with flash := u.flash.takeErases.2 }) (full : r.capacity = 0)
      (answer : e.Answers r .invalidTransfer []) : Ended s r e []
  | told (progress : Progress) (u : Updater g) (finish : s.updater.finish = .ok (.ok progress, u))
      (state : e.state.updater = { u with flash := u.flash.takeErases.2 }) (room : r.capacity ≠ 0)
      (answer : e.Answers r .ok [u.flash.completedErases.toUInt8]) : Ended s r e []

theorem ended_of_exchange {e : Exchanged (Session g)} {input : Bytes}
    (brings : r.Brings .finalizeFlash input capacity) (answer : s.exchange r = .ok e) :
    Ended s r e input := by
  by_cases empty : input = []
  · subst empty
    cases hf : s.updater.finish with
    | error crash => cases (exchange_finalize_crash brings hf).symm.trans answer
    | ok result =>
      rcases result with ⟨error | progress, u⟩
      · rcases exchange_finalize_failed brings hf with ⟨e', hx, hu, ha⟩
        cases hx.symm.trans answer
        exact .failed error (by rw [hf, hu]) ha
      · by_cases full : r.capacity = 0
        · rcases exchange_finalize_untold brings full hf with ⟨e', hx, hu, ha⟩
          cases hx.symm.trans answer
          exact .untold progress u hf hu full ha
        · have room : r.Brings .finalizeFlash [] 1 := by
            refine ⟨brings.addressed, brings.frame, brings.fits, ?_⟩
            have := brings.accepted.room
            unfold Request.capacity at full
            omega
          rcases exchange_finalize room hf with ⟨e', hx, hu, ha⟩
          cases hx.symm.trans answer
          exact .told progress u hf hu full ha
  · rcases exchange_finalize_malformed brings empty with ⟨e', hx, hu, ha⟩
    cases hx.symm.trans answer
    exact .malformed input empty hu ha

theorem finish_of_exchange {e : Exchanged (Session g)} (brings : r.Brings .finalizeFlash [] 1)
    (answer : s.exchange r = .ok e) :
    (∃ progress u, s.updater.finish = .ok (.ok progress, u) ∧
        e.state.updater = { u with flash := u.flash.takeErases.2 } ∧
        ∀ payload, ¬e.Answers r .failed payload) ∨
      ∃ error, s.updater.finish = .ok (.error error, e.state.updater) ∧
        ∀ payload, ¬e.Answers r .ok payload := by
  cases ended_of_exchange brings answer with
  | malformed _ nonempty => exact absurd rfl nonempty
  | failed error finish ha => exact .inr ⟨error, finish, fun _ h => nomatch (h.inj ha).1⟩
  | untold progress u finish state full ha =>
    exact .inl ⟨progress, u, finish, state, fun _ h => nomatch (h.inj ha).1⟩
  | told progress u finish state room ha =>
    exact .inl ⟨progress, u, finish, state, fun _ h => nomatch (h.inj ha).1⟩

theorem Ended.of_ok {e : Exchanged (Session g)} {input said : Bytes} (h : Ended s r e input)
    (ok : e.Answers r .ok said) :
    ∃ progress u, s.updater.finish = .ok (.ok progress, u) ∧
      e.state.updater = { u with flash := u.flash.takeErases.2 } ∧
      said = [u.flash.completedErases.toUInt8] := by
  cases h with
  | malformed _ nonempty same answer => cases (ok.inj answer).1
  | failed error finish answer => cases (ok.inj answer).1
  | untold progress u finish state full answer => cases (ok.inj answer).1
  | told progress u finish state room answer =>
    exact ⟨progress, u, finish, state, (ok.inj answer).2⟩

theorem exchange_read {address : Nat} {n : UInt8} (h : address < addressSpace)
    (inside : address + n.toNat ≤ addressSpace)
    (brings : r.Brings .readFlash (addressBytes address ++ [n]) n.toNat) :
    ∃ e, s.exchange r = .ok e ∧ e.state.updater = s.updater ∧
      e.Answers r .ok (s.updater.flash.imageRange address n.toNat) := by
  have hr := brings.capacity_le
  have hn : (s.updater.flash.imageRange address n.toNat).length = n.toNat := by
    rw [Programmer.imageRange, List.length_map, List.length_range]
  have hp : s.readFlash (addressBytes address ++ [n]) r.capacity =
      ⟨⟨.ok, n⟩, s.updater.flash.imageRange address n.toNat⟩ := by
    rw [addressBytes_append, readFlash]
    simp only [bigEndian_addressBytes h]
    exact if_neg (by omega)
  have run : s.perform .readFlash (addressBytes address ++ [n]) r.capacity =
      .ok (⟨⟨.ok, n⟩, s.updater.flash.imageRange address n.toNat⟩, s) :=
    congrArg (fun a => Except.ok (a, s)) hp
  have sent : Status.ok ≠ .noReply := by decide
  obtain ⟨e, hx, ha, hs⟩ := exchange_of_perform brings run ⟨sent, hn, by rw [hn]; omega⟩
  exact ⟨e, hx, hs, ha⟩

/-- Whatever a request is, the updater takes a write, an end of the image or nothing. -/
theorem exchange_moved {e : Exchanged (Session g)} (h : s.exchange r = .ok e) :
    s.updater.Moved e.state.updater := Updater.moved_of_meet r.demand_short (meet_of_exchange h)

end Session

end FieldUpdate
