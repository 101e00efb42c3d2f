import FieldUpdate.Proofs.Frames

namespace FieldUpdate

theorem patch_front {buffer data : Bytes} (h : data.length ≤ buffer.length) :
    patch buffer 0 data = .ok (data ++ buffer.drop data.length) := by
  rw [patch_eq_ok (by omega), List.take_zero, List.nil_append, Nat.zero_add]

namespace Framing

variable {f : Framing} {address : UInt8} {frame : Bytes}

theorem opened_short (short : frame.length < 1 + f.trailerLength) :
    f.opened address frame = .refused .invalidTransfer := by
  cases frame with
  | nil => rfl
  | cons cmd rest =>
    rw [List.length_cons] at short
    exact if_pos (by omega)

theorem opened_corrupt (long : 1 + f.trailerLength ≤ frame.length)
    (corrupt : f.intact address frame = false) :
    f.opened address frame = if f.dropsCorrupt then .dropped else .refused .invalidCrc := by
  cases frame with
  | nil =>
    rw [List.length_nil] at long
    omega
  | cons cmd rest =>
    rw [List.length_cons] at long
    rw [opened, if_neg (by omega), corrupt]
    rfl

theorem opened_oversized (long : 1 + maxFrame + f.trailerLength < frame.length)
    (whole : f.intact address frame = true) :
    f.opened address frame = .refused .invalidTransfer := by
  cases frame with
  | nil =>
    rw [List.length_nil] at long
    omega
  | cons cmd rest =>
    rw [List.length_cons] at long
    rw [opened, if_neg (by omega), whole, if_neg (by decide), if_pos (by omega)]

theorem payload_length_le {cmd : UInt8} {payload : Bytes}
    (opened : f.opened address frame = .command cmd payload) : payload.length ≤ maxFrame := by
  unfold Framing.opened at opened
  split at opened
  · cases opened
  · repeat' split at opened
    all_goals cases opened
    rw [List.length_take]
    omega

end Framing

namespace Request

def body (r : Request) : Bytes := r.frame.take (r.frame.length - r.framing.trailerLength)

def capacity (r : Request) : Nat := r.room - r.framing.replyOverhead

def output (r : Request) : Bytes := (r.buffer.drop 2).take r.capacity

def filled (r : Request) (written : Bytes) : Bytes :=
  r.buffer.take 2 ++ overlay r.output written ++ r.buffer.drop (2 + r.capacity)

/-- There is room for a reply, and the frame encloses a command with a payload that is not too
long. -/
structure Accepted (r : Request) : Prop where
  room : r.framing.replyOverhead ≤ r.room
  long : 1 + r.framing.trailerLength ≤ r.frame.length
  enclosed : r.framing.enclose r.address r.body = r.frame
  size : r.body.length ≤ 1 + maxFrame

def refusal (r : Request) : Option Status :=
  if r.room < r.framing.replyOverhead then none
  else if r.frame.length < 1 + r.framing.trailerLength then some .invalidTransfer
  else if r.framing.enclose r.address r.body ≠ r.frame then
    match r.framing with
    | .crc8 => some .invalidCrc
    | .crc16 => none
  else some .invalidTransfer

variable {r : Request}

theorem body_length (r : Request) :
    r.body.length = r.frame.length - r.framing.trailerLength := by
  rw [body, List.length_take, Nat.min_eq_left (Nat.sub_le _ _)]

theorem exists_body_eq_cons (long : 1 + r.framing.trailerLength ≤ r.frame.length) :
    ∃ cmd payload, r.body = cmd :: payload := by
  refine List.exists_cons_of_length_pos ?_
  rw [body_length]
  omega

theorem two_le_room (room : r.framing.replyOverhead ≤ r.room) : 2 + r.capacity ≤ r.buffer.length := by
  have : r.room ≤ r.buffer.length := Nat.min_le_right _ _
  unfold Framing.replyOverhead at room
  unfold capacity Framing.replyOverhead
  omega

theorem output_length (room : r.framing.replyOverhead ≤ r.room) :
    r.output.length = r.capacity := by
  have := two_le_room room
  rw [output, List.length_take, List.length_drop]
  omega

theorem filled_length (room : r.framing.replyOverhead ≤ r.room) (written : Bytes) :
    (r.filled written).length = r.buffer.length := by
  have := two_le_room room
  simp only [filled, List.length_append, overlay_length, output_length room, List.length_take,
    List.length_drop]
  omega

theorem Accepted.opened (accepted : r.Accepted) {cmd : UInt8} {payload : Bytes}
    (hb : r.body = cmd :: payload) :
    r.framing.opened r.address r.frame = .command cmd payload := by
  have hs := accepted.size
  rw [hb, List.length_cons] at hs
  rw [← accepted.enclosed, hb]
  exact r.framing.opened_enclose r.address cmd (by omega)

theorem opened_of_not_accepted (room : r.framing.replyOverhead ≤ r.room) (h : ¬r.Accepted) :
    r.framing.opened r.address r.frame = r.refusal.elim .dropped .refused := by
  rw [refusal, if_neg (by omega)]
  by_cases long : 1 + r.framing.trailerLength ≤ r.frame.length
  · have hi : r.framing.intact r.address r.frame = true ↔
        r.framing.enclose r.address r.body = r.frame :=
      r.framing.intact_iff r.address (by omega)
    rw [if_neg (by omega)]
    by_cases enclosed : r.framing.enclose r.address r.body = r.frame
    · -- An intact frame that is not run is too long.
      have oversized : ¬r.body.length ≤ 1 + maxFrame := fun size => h ⟨room, long, enclosed, size⟩
      rw [body_length] at oversized
      rw [if_neg (not_not_intro enclosed)]
      exact Framing.opened_oversized (by omega) (hi.2 enclosed)
    · rw [if_pos enclosed, Framing.opened_corrupt long (Bool.eq_false_iff.2 (mt hi.1 enclosed))]
      cases r.framing <;> rfl
  · rw [if_pos (by omega)]
    exact Framing.opened_short (by omega)

end Request

/-- What an exchange asks of its responder. -/
inductive Call
  | run (cmd : UInt8) (payload : Bytes)
  | broadcast (cmd : UInt8)
  deriving DecidableEq

namespace Responder

variable {σ : Type} {p : Responder σ} {s s' : σ} {r : Request} {cmd : UInt8} {payload : Bytes}
  {answer : Answer}

theorem conclude_eq {framing : Framing} {address : UInt8} {buffer frame : Bytes} (payload : Bytes)
    (status : Status) (s : σ) (room : framing.replyOverhead + payload.length ≤ buffer.length)
    (place : (buffer.drop 2).take payload.length = payload)
    (hf : frame = framing.enclose address (status.byte :: payload.length.toUInt8 :: payload)) :
    conclude framing address buffer status payload.length s =
      .ok ⟨some frame.length, frame ++ buffer.drop frame.length, s⟩ := by
  unfold Framing.replyOverhead at room
  have hl : frame.length = 2 + payload.length + framing.trailerLength := by
    rw [hf, Framing.enclose_length, List.length_cons, List.length_cons]
    omega
  have hp : patch buffer 0 [status.byte, payload.length.toUInt8] =
      .ok (status.byte :: payload.length.toUInt8 :: buffer.drop 2) :=
    patch_front (by simp only [List.length_cons, List.length_nil]; omega)
  have hs : slice (status.byte :: payload.length.toUInt8 :: buffer.drop 2) 0 (2 + payload.length) =
      .ok (status.byte :: payload.length.toUInt8 :: payload) := by
    rw [slice_eq_ok (by simp only [List.length_cons, List.length_drop]; omega), List.drop_zero,
      Nat.add_comm, List.take_succ_cons, List.take_succ_cons, place]
  have ht : patch (status.byte :: payload.length.toUInt8 :: buffer.drop 2) 0 frame =
      .ok (frame ++ buffer.drop frame.length) := by
    rw [patch_front (by simp only [List.length_cons, List.length_drop]; omega),
      show frame.length = payload.length + framing.trailerLength + 2 by omega,
      List.drop_succ_cons, List.drop_succ_cons, List.drop_drop, Nat.add_comm 2]
  rw [conclude, hp]
  simp only [bind, Except.bind, Framing.encloseIn, hs, ← hf, ht]
  rw [hl]
  rfl

theorem runInto_ok (room : r.framing.replyOverhead ≤ r.room)
    (run : p.run s cmd payload r.output = .ok (answer, s')) :
    p.runInto s r r.capacity cmd payload =
      if answer.result.status = .noReply then .ok ⟨none, r.filled answer.written, s'⟩
      else if answer.result.len.toNat > r.capacity then .error .brokenPromise
      else conclude r.framing r.address (r.filled answer.written) answer.result.status
        answer.result.len.toNat s' := by
  have h2 := Request.two_le_room room
  have ho := overlay_length r.output answer.written
  rw [Request.output_length room] at ho
  have hs : slice r.buffer 2 r.capacity = .ok r.output := slice_eq_ok h2
  have hp : patch r.buffer 2 (overlay r.output answer.written) =
      .ok (r.filled answer.written) := by
    rw [patch_eq_ok (by omega), ho]
    rfl
  rw [runInto, hs]
  simp only [bind, Except.bind, run, hp]
  rfl

theorem runInto_crash {crash : Crash} (room : r.framing.replyOverhead ≤ r.room)
    (run : p.run s cmd payload r.output = .error crash) :
    p.runInto s r r.capacity cmd payload = .error crash := by
  have hs : slice r.buffer 2 r.capacity = .ok r.output := slice_eq_ok (Request.two_le_room room)
  rw [runInto, hs]
  simp only [bind, Except.bind, run]

/-- The command's output stands where a reply has its payload. -/
theorem output_in_place (room : r.framing.replyOverhead ≤ r.room) (written : Bytes) {n : Nat}
    (fits : n ≤ r.capacity) :
    ((r.filled written).drop 2).take n = (overlay r.output written).take n := by
  have := Request.two_le_room room
  have h2 : (r.buffer.take 2).length = 2 := by
    rw [List.length_take]
    omega
  rw [Request.filled, List.append_assoc, List.drop_left' h2, List.take_append_of_le_length]
  rw [overlay_length, Request.output_length room]
  exact fits

theorem runInto_answers (room : r.framing.replyOverhead ≤ r.room)
    (run : p.run s cmd payload r.output = .ok (answer, s'))
    (sent : answer.result.status ≠ .noReply) (fits : answer.result.len.toNat ≤ r.capacity)
    {frame : Bytes} (hf : frame = r.framing.enclose r.address (answer.result.status.byte ::
      answer.result.len :: (overlay r.output answer.written).take answer.result.len.toNat)) :
    p.runInto s r r.capacity cmd payload =
      .ok ⟨some frame.length, frame ++ (r.filled answer.written).drop frame.length, s'⟩ := by
  have hl : ((overlay r.output answer.written).take answer.result.len.toNat).length =
      answer.result.len.toNat := by
    rw [List.length_take, overlay_length, Request.output_length room, Nat.min_eq_left fits]
  have hb : r.room ≤ r.buffer.length := Nat.min_le_right _ _
  have space : r.framing.replyOverhead +
      ((overlay r.output answer.written).take answer.result.len.toNat).length ≤
        (r.filled answer.written).length := by
    rw [hl, Request.filled_length room]
    unfold Request.capacity at fits
    omega
  have hc := conclude_eq _ answer.result.status s' space
    (by rw [hl]; exact output_in_place room answer.written fits)
    (hf.trans (by rw [hl, Nat.toUInt8_eq, UInt8.ofNat_toNat]))
  rw [hl] at hc
  rw [runInto_ok room run, if_neg sent, if_neg (by omega), hc]

theorem exchange_of_accepted (addressed : r.address ≠ generalCallAddress) (accepted : r.Accepted)
    (hb : r.body = cmd :: payload) :
    p.exchange s r = p.runInto s r r.capacity cmd payload := by
  have := accepted.room
  rw [exchange, if_neg addressed, if_neg (by omega), accepted.opened hb]
  rfl

theorem exchange_of_not_accepted (addressed : r.address ≠ generalCallAddress) (h : ¬r.Accepted) :
    p.exchange s r =
      match r.refusal with
      | none => .ok ⟨none, r.buffer, s⟩
      | some status => conclude r.framing r.address r.buffer status 0 s := by
  rw [exchange, if_neg addressed]
  by_cases room : r.framing.replyOverhead ≤ r.room
  · rw [if_neg (by omega), Request.opened_of_not_accepted room h]
    cases r.refusal <;> rfl
  · rw [if_pos (by omega), Request.refusal, if_pos (by omega)]

theorem room_of_refusal {status : Status} (h : r.refusal = some status) :
    r.framing.replyOverhead ≤ r.room := by
  by_cases small : r.room < r.framing.replyOverhead
  · rw [Request.refusal, if_pos small] at h
    cases h
  · omega

theorem sent_of_refusal {status : Status} (h : r.refusal = some status) : status ≠ .noReply := by
  rintro rfl
  unfold Request.refusal at h
  repeat' split at h
  all_goals cases h

theorem exchange_of_refused (addressed : r.address ≠ generalCallAddress) (h : ¬r.Accepted)
    {status : Status} (refused : r.refusal = some status) {frame : Bytes}
    (hf : frame = r.framing.enclose r.address [status.byte, 0]) :
    p.exchange s r = .ok ⟨some frame.length, frame ++ r.buffer.drop frame.length, s⟩ := by
  have hr := room_of_refusal refused
  have hb : r.room ≤ r.buffer.length := Nat.min_le_right _ _
  rw [exchange_of_not_accepted addressed h, refused]
  exact conclude_eq [] status s (by rw [List.length_nil]; omega) List.take_zero hf

def Bounded (p : Responder σ) : Prop :=
  ∀ s cmd payload output answer s', p.run s cmd payload output = .ok (answer, s') →
    answer.result.len.toNat ≤ output.length

/-- All that a request may come to. -/
inductive Comes (p : Responder σ) (s : σ) (r : Request) : Checked (Exchanged σ) → Prop
  | general (everyone : r.address = generalCallAddress) (s' : σ)
      (state : s' = s ∨ ∃ cmd, s' = p.broadcast s cmd) : Comes p s r (.ok ⟨none, r.buffer, s'⟩)
  | ignored (addressed : r.address ≠ generalCallAddress) (rejected : ¬r.Accepted)
      (refused : r.refusal = none) : Comes p s r (.ok ⟨none, r.buffer, s⟩)
  | refused (addressed : r.address ≠ generalCallAddress) (rejected : ¬r.Accepted)
      (status : Status) (refused : r.refusal = some status) (frame : Bytes)
      (hf : frame = r.framing.enclose r.address [status.byte, 0]) :
      Comes p s r (.ok ⟨some frame.length, frame ++ r.buffer.drop frame.length, s⟩)
  | crashed (addressed : r.address ≠ generalCallAddress) (accepted : r.Accepted) (cmd : UInt8)
      (payload : Bytes) (hb : r.body = cmd :: payload) (crash : Crash)
      (run : p.run s cmd payload r.output = .error crash) : Comes p s r (.error crash)
  | silent (addressed : r.address ≠ generalCallAddress) (accepted : r.Accepted) (cmd : UInt8)
      (payload : Bytes) (hb : r.body = cmd :: payload) (answer : Answer) (s' : σ)
      (run : p.run s cmd payload r.output = .ok (answer, s'))
      (silent : answer.result.status = .noReply) :
      Comes p s r (.ok ⟨none, r.filled answer.written, s'⟩)
  | answered (addressed : r.address ≠ generalCallAddress) (accepted : r.Accepted) (cmd : UInt8)
      (payload : Bytes) (hb : r.body = cmd :: payload) (answer : Answer) (s' : σ)
      (run : p.run s cmd payload r.output = .ok (answer, s'))
      (sent : answer.result.status ≠ .noReply) (fits : answer.result.len.toNat ≤ r.capacity)
      (frame : Bytes) (hf : frame = r.framing.enclose r.address (answer.result.status.byte ::
        answer.result.len :: (overlay r.output answer.written).take answer.result.len.toNat)) :
      Comes p s r
        (.ok ⟨some frame.length, frame ++ (r.filled answer.written).drop frame.length, s'⟩)

theorem exchange_comes (bounded : p.Bounded) (s : σ) (r : Request) :
    Comes p s r (p.exchange s r) := by
  by_cases everyone : r.address = generalCallAddress
  · rw [exchange, if_pos everyone]
    cases r.frame with
    | nil => exact .general everyone s (.inl rfl)
    | cons cmd rest => exact .general everyone _ (.inr ⟨cmd, rfl⟩)
  · by_cases accepted : r.Accepted
    · obtain ⟨cmd, payload, hb⟩ := Request.exists_body_eq_cons accepted.long
      have room := accepted.room
      rw [exchange_of_accepted everyone accepted hb]
      cases run : p.run s cmd payload r.output with
      | error crash =>
        rw [runInto_crash room run]
        exact .crashed everyone accepted cmd payload hb crash run
      | ok result =>
        obtain ⟨answer, s'⟩ := result
        have fits := bounded s cmd payload r.output answer s' run
        rw [Request.output_length room] at fits
        by_cases silent : answer.result.status = .noReply
        · rw [runInto_ok room run, if_pos silent]
          exact .silent everyone accepted cmd payload hb answer s' run silent
        · rw [runInto_answers room run silent fits rfl]
          exact .answered everyone accepted cmd payload hb answer s' run silent fits _ rfl
    · cases refused : r.refusal with
      | none =>
        rw [exchange_of_not_accepted everyone accepted, refused]
        exact .ignored everyone accepted refused
      | some status =>
        rw [exchange_of_refused everyone accepted refused rfl]
        exact .refused everyone accepted status refused _ rfl

end Responder

end FieldUpdate
