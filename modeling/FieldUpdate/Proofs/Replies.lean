import FieldUpdate.Proofs.Host

namespace FieldUpdate

/-- The front of the buffer is a reply of `n` bytes to this request. -/
structure Request.Replied (r : Request) (buffer : Bytes) (n : Nat) : Prop where
  length : ∃ len, buffer[1]? = some len ∧ n = 2 + len.toNat + r.framing.trailerLength
  overhead_le : r.framing.replyOverhead ≤ n
  le_room : n ≤ r.room
  intact : r.framing.intact r.address (buffer.take n) = true
  sent : ∃ status, buffer[0]? = some status ∧ status ≠ Status.noReply.byte

namespace Request

variable {r : Request}

theorem replied_of_enclosed {status : Status} {frame : Bytes} (payload rest : Bytes)
    (sent : status ≠ .noReply) (short : payload.length < 256)
    (room : r.framing.replyOverhead + payload.length ≤ r.room)
    (hf : frame = r.framing.enclose r.address
      (status.byte :: payload.length.toUInt8 :: payload)) :
    r.Replied (frame ++ rest) frame.length := by
  have hl : frame.length = r.framing.replyOverhead + payload.length := by
    rw [hf, Framing.enclose_length, List.length_cons, List.length_cons, Framing.replyOverhead]
    omega
  have hn : payload.length.toUInt8.toNat = payload.length := by
    rw [Nat.toUInt8_eq, UInt8.toNat_ofNat', Nat.mod_eq_of_lt short]
  refine ⟨⟨payload.length.toUInt8, ?_, ?_⟩, by omega, by omega, ?_, status.byte, ?_, ?_⟩
  · rw [hf]
    rfl
  · rw [hl, hn, Framing.replyOverhead]
    omega
  · rw [List.take_left, hf]
    exact r.framing.intact_enclose r.address _
  · rw [hf]
    rfl
  · exact fun same => sent (Status.byte_injective same)

theorem drop_replaced (front buffer : Bytes) {n : Nat} (h : front.length ≤ n) :
    (front ++ buffer.drop front.length).drop n = buffer.drop n := by
  rw [← Nat.add_sub_cancel' h, ← List.drop_drop, List.drop_left, List.drop_drop]

theorem replaced_length {front buffer : Bytes} (h : front.length ≤ buffer.length) :
    (front ++ buffer.drop front.length).length = buffer.length := by
  rw [List.length_append, List.length_drop, Nat.add_sub_cancel' h]

theorem filled_drop (room : r.framing.replyOverhead ≤ r.room) (written : Bytes) :
    (r.filled written).drop r.room = r.buffer.drop r.room := by
  have hb := two_le_room room
  have hl : (r.buffer.take 2 ++ overlay r.output written).length = 2 + r.capacity := by
    rw [List.length_append, overlay_length, output_length room, List.length_take]
    omega
  have within : 2 + r.capacity ≤ r.room := by
    unfold capacity Framing.replyOverhead
    unfold Framing.replyOverhead at room
    omega
  have hd := drop_replaced (r.buffer.take 2 ++ overlay r.output written) r.buffer
    (Nat.le_trans (Nat.le_of_eq hl) within)
  rwa [hl] at hd

end Request

namespace Responder

variable {σ : Type} {p : Responder σ} {s : σ} {r : Request} {e : Exchanged σ}

theorem exchange_crash_iff (bounded : p.Bounded) {crash : Crash} :
    p.exchange s r = .error crash ↔ r.address ≠ generalCallAddress ∧ r.Accepted ∧
      ∃ cmd payload, r.body = cmd :: payload ∧ p.run s cmd payload r.output = .error crash := by
  constructor
  · intro h
    have comes := exchange_comes bounded s r
    rw [h] at comes
    cases comes with
    | crashed addressed accepted cmd payload hb _ run =>
      exact ⟨addressed, accepted, cmd, payload, hb, run⟩
  · rintro ⟨addressed, accepted, cmd, payload, hb, run⟩
    rw [exchange_of_accepted addressed accepted hb, runInto_crash accepted.room run]

/-- Whatever comes of a request, all behind the room for its reply stays as it is, and a reply is
as it should be. -/
theorem exchange_replied (bounded : p.Bounded) (h : p.exchange s r = .ok e) :
    e.buffer.length = r.buffer.length ∧ e.buffer.drop r.room = r.buffer.drop r.room ∧
      ∀ n, e.replyLength = some n → r.Replied e.buffer n := by
  have comes := exchange_comes bounded s r
  rw [h] at comes
  have hb : r.room ≤ r.buffer.length := Nat.min_le_right _ _
  cases comes with
  | general everyone s' state => exact ⟨rfl, rfl, nofun⟩
  | ignored addressed rejected refused => exact ⟨rfl, rfl, nofun⟩
  | refused addressed rejected status refused frame hf =>
    have room := room_of_refusal refused
    have hl : frame.length = r.framing.replyOverhead := by
      rw [hf, Framing.enclose_length]
      rfl
    refine ⟨Request.replaced_length (by omega), Request.drop_replaced _ _ (by omega), ?_⟩
    rintro _ ⟨⟩
    exact Request.replied_of_enclosed [] _ (sent_of_refusal refused) (by decide) room hf
  | silent addressed accepted cmd payload hb' answer s' run silent =>
    exact ⟨Request.filled_length accepted.room _, Request.filled_drop accepted.room _, nofun⟩
  | answered addressed accepted cmd payload hb' answer s' run sent fits frame hf =>
    have room := accepted.room
    have hc : r.framing.replyOverhead + r.capacity = r.room := Nat.add_sub_cancel' room
    have hw : ((overlay r.output answer.written).take answer.result.len.toNat).length =
        answer.result.len.toNat := by
      rw [List.length_take, overlay_length, Request.output_length room, Nat.min_eq_left fits]
    -- The answer fits, so the frame ends within the room for the reply.
    have hl : frame.length = r.framing.replyOverhead + answer.result.len.toNat := by
      rw [hf, Framing.enclose_length, List.length_cons, List.length_cons, hw,
        Framing.replyOverhead]
      omega
    have hn := answer.result.len.toNat_lt
    refine ⟨?_, ?_, ?_⟩
    · rw [Request.replaced_length (by rw [Request.filled_length room]; omega),
        Request.filled_length room]
    · rw [Request.drop_replaced _ _ (by omega), Request.filled_drop room]
    · rintro _ ⟨⟩
      have said : ((overlay r.output answer.written).take
          answer.result.len.toNat).length.toUInt8 = answer.result.len := by
        rw [hw, Nat.toUInt8_eq, UInt8.ofNat_toNat]
      exact Request.replied_of_enclosed ((overlay r.output answer.written).take
        answer.result.len.toNat) _ sent (by omega) (by omega) (by rw [hf, said])

end Responder

namespace Session

/-- Every reply is well formed and bounded. Where answers fit their output, an exchange crashes
only with its command, no byte behind the room for the reply changes, and a reply says its length,
fits, is intact and has a status that is sent. A session is such a responder: its answers have as
many bytes as they say and fit. It has an answer to every command, except that there is none if
block zero would be committed over a slot that no block holds in full. Payloads of about `2^32` bytes,
which no frame carries, are left out there. -/
theorem replies_well_formed {g : Geometry} :
    (∀ {σ : Type} (p : Responder σ), p.Bounded → ∀ (s : σ) (r : Request),
      (∀ crash, p.exchange s r = .error crash ↔ r.address ≠ generalCallAddress ∧ r.Accepted ∧
        ∃ cmd payload, r.body = cmd :: payload ∧ p.run s cmd payload r.output = .error crash) ∧
      ∀ e, p.exchange s r = .ok e →
        e.buffer.length = r.buffer.length ∧ e.buffer.drop r.room = r.buffer.drop r.room ∧
          ∀ n, e.replyLength = some n → r.Replied e.buffer n) ∧
    (responder : Responder (Session g)).Bounded ∧
    (∀ (s s' : Session g) (cmd : UInt8) (payload output : Bytes) (answer : Answer),
      s.run cmd payload output = .ok (answer, s') →
        answer.written.length = answer.result.len.toNat ∧
        overlay output answer.written = answer.written ++ output.drop answer.result.len.toNat) ∧
    (g.eraseSize < addressSpace → ∀ s : Session g, s.Reachable →
      ∀ (cmd : UInt8) (payload output : Bytes) (crash : Crash),
        (Demand.ofCall cmd payload).Short →
        (s.run cmd payload output = .error crash ↔ crash = .outOfBounds ∧
          ∃ front, s.updater.front (.ofCall cmd payload) = some front ∧
            s.updater.flash.Tears front)) := by
  refine ⟨fun p bounded s r => ⟨fun crash => Responder.exchange_crash_iff bounded,
    fun e h => Responder.exchange_replied bounded h⟩, responder_bounded,
    fun s s' cmd payload output answer h => ?_,
    fun small s reachable cmd payload output crash short =>
      run_crash_iff small (reachable.ready small) short⟩
  have exact := run_exact h
  refine ⟨exact.length, ?_⟩
  rw [overlay, List.take_of_length_le exact.fits, exact.length]

/-- Blocks of three bytes tear a slot at address eight: a write that completes block zero with a
jump has no answer, whatever the room for one. -/
theorem run_torn_slot :
    ∃ s : Session ⟨12, 3, 3, by decide, by decide⟩, s.Reachable ∧ ∀ output,
      s.run Command.writeFlash.byte (addressBytes 0 ++ [0x12, 0xc0, 3]) output =
        .error .outOfBounds := by
  let flash : Programmer ⟨12, 3, 3, by decide, by decide⟩ :=
    ⟨Chip.erased _, ⟨6, 12, some ⟨8, Relocation.relativeJump⟩⟩, 0,
      Layout.verdict_eq_ok_iff.1 (by decide)⟩
  obtain ⟨s, reachable, hs⟩ := exists_reachable flash
  have front : (Updater.idle flash).front
      (.ofCall Command.writeFlash.byte (addressBytes 0 ++ [0x12, 0xc0, 3])) =
        some [0x12, 0xc0, 3] := by decide
  refine ⟨s, reachable, fun output => ?_⟩
  rw [run_crash_iff (by decide) (reachable.ready (by decide)) (Demand.short_ofCall _ (by decide)),
    hs]
  exact ⟨rfl, _, front, _, rfl, by decide, fun _ => by decide⟩

end Session

end FieldUpdate
