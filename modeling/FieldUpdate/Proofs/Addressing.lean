import FieldUpdate.Proofs.Calls
import FieldUpdate.Proofs.Refusals

namespace FieldUpdate

theorem GeneralCall.ofByte?_eq_some_iff {cmd : UInt8} {call : GeneralCall} :
    GeneralCall.ofByte? cmd = some call ↔ cmd = call.byte := by
  constructor
  · intro h
    unfold ofByte? at h
    split at h
    · cases h
      rfl
    · cases h
      rfl
    · cases h
  · rintro rfl
    exact GeneralCall.ofByte?_byte call

theorem Board.assigns?_eq_some_iff {board : Board} {payload : Bytes} {address : UInt8} :
    board.assigns? payload = some address ↔ ∃ hardwareType, payload = [address, hardwareType] ∧
      (hardwareType = 0 ∨ hardwareType = board.hardwareType) ∧
      address ≠ generalCallAddress ∧ address ≤ highestAddress := by
  constructor
  · intro h
    unfold assigns? at h
    split at h
    · rename_i given hardwareType
      split at h
      · cases h
      · rename_i own
        split at h
        · cases h
        · rename_i free
          cases h
          rw [not_or, UInt8.not_lt] at free
          exact ⟨hardwareType, rfl, by simpa [Decidable.or_iff_not_imp_left] using own, free⟩
    · cases h
  · rintro ⟨hardwareType, rfl, own, addressable, low⟩
    have foreign : ¬(hardwareType ≠ 0 ∧ hardwareType ≠ board.hardwareType) :=
      fun foreign => own.elim foreign.1 foreign.2
    have reserved : ¬(address = generalCallAddress ∨ address > highestAddress) :=
      fun reserved => reserved.elim addressable (UInt8.not_lt.2 low)
    rw [assigns?, if_neg foreign, if_neg reserved]

namespace Request

variable {r : Request} {board : Board} {address cmd : UInt8} {payload : Bytes}

theorem call?_eq_run_iff : r.call? = some (.run cmd payload) ↔
    r.address ≠ generalCallAddress ∧ r.Accepted ∧ r.body = cmd :: payload := by
  unfold call?
  by_cases everyone : r.address = generalCallAddress
  · rw [if_pos everyone]
    simp [everyone]
  · rw [if_neg everyone]
    by_cases accepted : r.Accepted
    · obtain ⟨cmd', payload', hb⟩ := exists_body_eq_cons accepted.long
      rw [if_neg (Nat.not_lt.2 accepted.room), accepted.opened hb]
      simp [everyone, accepted, hb]
    · -- A frame that is not run comes to no call.
      simp only [accepted, false_and, and_false, iff_false]
      split
      · nofun
      · rename_i room
        rw [opened_of_not_accepted (Nat.not_lt.1 room) accepted]
        cases r.refusal <;> nofun

theorem call?_eq_broadcast_iff : r.call? = some (.broadcast cmd) ↔
    r.address = generalCallAddress ∧ r.frame.head? = some cmd := by
  unfold call?
  by_cases everyone : r.address = generalCallAddress
  · rw [if_pos everyone]
    simp [everyone]
  · rw [if_neg everyone]
    simp only [everyone, false_and, iff_false]
    split
    · nofun
    · split <;> nofun

theorem call?_eq_run_byte_iff {command : Command} :
    r.call? = some (.run command.byte payload) ↔ r.Brings command payload 0 := by
  rw [call?_eq_run_iff]
  constructor
  · rintro ⟨addressed, accepted, body⟩
    exact accepted.brings addressed body
  · intro brings
    exact ⟨brings.addressed, brings.accepted, brings.body⟩

def Calls (r : Request) (call : GeneralCall) : Prop :=
  r.address = generalCallAddress ∧ r.frame.head? = some call.byte

/-- The request gives a board an address: it names the board's type or none, and leaves room for a
reply. -/
def Assigns (r : Request) (board : Board) (address : UInt8) : Prop :=
  ∃ hardwareType, r.Brings .setAddress [address, hardwareType] 0 ∧
    (hardwareType = 0 ∨ hardwareType = board.hardwareType) ∧
    address ≠ generalCallAddress ∧ address ≤ highestAddress

def Readdresses (r : Request) (board : Board) : Prop :=
  r.Calls .resetAddress ∨ ∃ address, r.Assigns board address

def Leaves (r : Request) : Exit → Prop
  | .startApplication => r.Brings .startApplication [] 0
  | .reset => r.Calls .reset

theorem addressing?_eq_assigned_iff : r.addressing? board = some (some address) ↔
    r.Assigns board address := by
  unfold addressing? Assigns
  rw [Option.bind_eq_some_iff]
  constructor
  · rintro ⟨cmd | cmd, called, addressing⟩
    · rename_i payload
      unfold Call.addressing? at addressing
      simp only at addressing
      split at addressing
      · rename_i known
        rw [Option.map_eq_some_iff] at addressing
        obtain ⟨_, given, same⟩ := addressing
        cases same
        obtain ⟨hardwareType, rfl, meant⟩ := Board.assigns?_eq_some_iff.1 given
        rw [Command.byte_of_ofByte? known] at called
        exact ⟨hardwareType, call?_eq_run_byte_iff.1 called, meant⟩
      · cases addressing
    · unfold Call.addressing? at addressing
      simp only at addressing
      split at addressing <;> cases addressing
  · rintro ⟨hardwareType, brings, meant⟩
    refine ⟨_, call?_eq_run_byte_iff.2 brings, ?_⟩
    have given := Board.assigns?_eq_some_iff.2 ⟨hardwareType, rfl, meant⟩
    rw [Call.addressing?, if_pos (Command.ofByte?_byte _), given]
    rfl

theorem addressing?_eq_released_iff : r.addressing? board = some none ↔
    r.Calls .resetAddress := by
  unfold addressing? Calls
  rw [Option.bind_eq_some_iff]
  constructor
  · rintro ⟨cmd | cmd, called, addressing⟩
    · unfold Call.addressing? at addressing
      simp only at addressing
      split at addressing
      · simp at addressing
      · cases addressing
    · unfold Call.addressing? at addressing
      simp only at addressing
      split at addressing
      · rename_i known
        rw [GeneralCall.ofByte?_eq_some_iff.1 known] at called
        exact call?_eq_broadcast_iff.1 called
      · cases addressing
  · intro calls
    refine ⟨_, call?_eq_broadcast_iff.2 calls, ?_⟩
    rw [Call.addressing?, if_pos (GeneralCall.ofByte?_byte _)]

theorem addressing?_eq_none_iff : r.addressing? board = none ↔ ¬r.Readdresses board := by
  unfold Readdresses
  rw [Option.eq_none_iff_forall_ne_some, Option.forall, not_or, not_exists]
  simp only [ne_eq, addressing?_eq_released_iff, addressing?_eq_assigned_iff]

theorem exit?_eq_some_iff {exit : Exit} : r.exit? = some exit ↔ r.Leaves exit := by
  unfold exit?
  rw [Option.bind_eq_some_iff]
  constructor
  · rintro ⟨cmd | cmd, called, asked⟩
    · unfold Call.exit? at asked
      simp only at asked
      split at asked
      · rename_i known
        cases asked
        rw [Command.byte_of_ofByte? known.1, known.2] at called
        exact call?_eq_run_byte_iff.1 called
      · cases asked
    · unfold Call.exit? at asked
      simp only at asked
      split at asked
      · rename_i known
        cases asked
        rw [GeneralCall.ofByte?_eq_some_iff.1 known] at called
        exact call?_eq_broadcast_iff.1 called
      · cases asked
  · cases exit with
    | startApplication =>
      intro brings
      refine ⟨_, call?_eq_run_byte_iff.2 brings, ?_⟩
      rw [Call.exit?, if_pos ⟨Command.ofByte?_byte _, rfl⟩]
    | reset =>
      intro calls
      refine ⟨_, call?_eq_broadcast_iff.2 calls, ?_⟩
      rw [Call.exit?, if_pos (GeneralCall.ofByte?_byte _)]

end Request

/-- What the latest of the requests that concern something makes of it. -/
def latest {α : Type} (concerns? : Request → Option α) (requests : List Request) : Option α :=
  requests.reverse.findSome? concerns?

theorem latest_cons {α : Type} (concerns? : Request → Option α) (r : Request)
    (requests : List Request) :
    latest concerns? (r :: requests) = (latest concerns? requests).or (concerns? r) := by
  rw [latest, List.reverse_cons, List.findSome?_append, List.findSome?_singleton]
  rfl

theorem latest_eq_some_iff {α : Type} {concerns? : Request → Option α} {requests : List Request}
    {what : α} : latest concerns? requests = some what ↔ ∃ before r after,
      requests = before ++ r :: after ∧ concerns? r = some what ∧
        ∀ other ∈ after, concerns? other = none := by
  rw [latest, List.findSome?_eq_some_iff]
  constructor
  · rintro ⟨after, r, before, split, concerned, none⟩
    refine ⟨before.reverse, r, after.reverse, ?_, concerned, fun other h => ?_⟩
    · rw [List.reverse_eq_iff.1 split]
      simp
    · exact none other (List.mem_reverse.1 h)
  · rintro ⟨before, r, after, rfl, concerned, none⟩
    refine ⟨after.reverse, r, before.reverse, by simp, concerned, fun other h => ?_⟩
    exact none other (List.mem_reverse.1 h)

theorem latest_eq_none_iff {α : Type} {concerns? : Request → Option α} {requests : List Request} :
    latest concerns? requests = none ↔ ∀ r ∈ requests, concerns? r = none := by
  rw [latest, List.findSome?_eq_none_iff]
  simp only [List.mem_reverse]

namespace Session

variable {g : Geometry} {s last : Session g} {requests : List Request}
  {replies : List (Option Bytes)}

/-- After requests in a row, address and exit are what the latest that concern them made of them. -/
theorem exchangeAll_latest (run : s.exchangeAll requests = .ok (replies, last)) :
    last.board = s.board ∧
    last.listener = (latest (fun r => r.addressing? s.board) requests).elim s.listener
      (fun assigned => { s.listener with assigned }) ∧
    last.exit = (latest Request.exit? requests).or s.exit := by
  induction requests generalizing s replies with
  | nil =>
    cases run
    exact ⟨rfl, rfl, rfl⟩
  | cons r rest ih =>
    obtain ⟨e, answer, run⟩ := bind_eq_ok.1 run
    obtain ⟨⟨later, last'⟩, run, h⟩ := bind_eq_ok.1 run
    cases h
    obtain ⟨board, listener, exit⟩ := ih run
    have same := exchange_board answer
    refine ⟨board.trans same, ?_, ?_⟩
    · rw [listener, same, exchange_listener answer, latest_cons]
      cases latest (fun r => r.addressing? s.board) rest with
      | none => rfl
      | some assigned => cases r.addressing? s.board <;> rfl
    · rw [exit, exchange_exit answer, latest_cons, Option.or_assoc]

theorem exchange_foreign {r : Request} {address hardwareType : UInt8}
    (frame : r.frame = r.framing.enclose r.address
      [Command.setAddress.byte, address, hardwareType])
    (named : hardwareType ≠ 0) (foreign : hardwareType ≠ s.board.hardwareType) :
    ∃ e, s.exchange r = .ok e ∧ e.reply = none := by
  -- However it is addressed and whatever room it leaves, only this command can be run.
  have body : r.body = [Command.setAddress.byte, address, hardwareType] := by
    rw [Request.body, frame, Framing.enclose_length, Nat.add_sub_cancel, Framing.enclose,
      List.take_left]
  have ignored (s' : Session g) (same : s'.board = s.board) (output : Bytes) :
      responder.run s' Command.setAddress.byte [address, hardwareType] output =
        .ok (Status.noReply.answer, s') := by
    rw [← same] at foreign
    refine (run_byte s' .setAddress _ output).trans ?_
    rw [perform, setAddress, if_pos ⟨named, foreign⟩]
  have kept : (s.noteCorrupt r).board = s.board :=
    congrArg Standing.board (s.sameOutside_noteCorrupt r).standing
  have comes := Responder.exchange_comes responder_bounded (s.noteCorrupt r) r
  rw [exchange]
  generalize responder.exchange (s.noteCorrupt r) r = result at comes ⊢
  cases comes with
  | general everyone s' state => exact ⟨_, rfl, rfl⟩
  | ignored addressed rejected refused => exact ⟨_, rfl, rfl⟩
  | refused addressed rejected status refused frame' hf =>
    refine absurd ⟨Responder.room_of_refusal refused, ?_, by rw [body, ← frame], ?_⟩ rejected
    · rw [frame, Framing.enclose_length, List.length_cons]
      omega
    · rw [body]
      simp [maxFrame]
  | crashed addressed accepted cmd payload hb crash run =>
    cases body.symm.trans hb
    cases (ignored _ kept r.output).symm.trans run
  | silent addressed accepted cmd payload hb answer s' run silent => exact ⟨_, rfl, rfl⟩
  | answered addressed accepted cmd payload hb answer s' run sent =>
    cases body.symm.trans hb
    cases (ignored _ kept r.output).symm.trans run
    exact absurd rfl sent

/-- A session's address is what the latest request that changes it says: it was assigned if that was
a command that gives the board this address, and it was not if that was the general call that resets
addresses or there was none. It is always one that can be assigned, and without one the session
listens to what it did at first. The exit is likewise that of the latest request to leave. A command
that gives an address to boards of another type has no reply. -/
theorem addressed_by_latest {board : Board} {flash : Programmer g} {children : Children}
    {logger : Logger}
    (run : (start board flash children logger).exchangeAll requests = .ok (replies, last)) :
    (∀ address, last.listener.assigned = some address ↔ ∃ before r after,
      requests = before ++ r :: after ∧ r.Assigns board address ∧
        ∀ other ∈ after, ¬other.Readdresses board) ∧
    (last.listener.assigned = none ↔ (∀ r ∈ requests, ¬r.Readdresses board) ∨
      ∃ before r after, requests = before ++ r :: after ∧ r.Calls .resetAddress ∧
        ∀ other ∈ after, ¬other.Readdresses board) ∧
    (∀ address, last.listener.assigned = some address → 1 ≤ address ∧ address ≤ 0x7f) ∧
    last.listener.initial = board.listener.initial ∧ last.listener.mask = board.listener.mask ∧
    (last.listener.assigned = none →
      ∀ address, last.listener.hears address = board.listener.hears address) ∧
    (∀ exit, last.exit = some exit ↔ ∃ before r after, requests = before ++ r :: after ∧
      r.Leaves exit ∧ ∀ other ∈ after, ∀ exit, ¬other.Leaves exit) ∧
    (∀ r : Request, ∀ address hardwareType, r.frame = r.framing.enclose r.address
        [Command.setAddress.byte, address, hardwareType] →
      hardwareType ≠ 0 → hardwareType ≠ board.hardwareType →
        ∃ e, last.exchange r = .ok e ∧ e.reply = none) := by
  obtain ⟨same, listener, exit⟩ := exchangeAll_latest run
  have begins := start_standing board flash children logger
  have board_eq := congrArg Standing.board begins
  have listener_eq := congrArg Standing.listener begins
  have exit_eq := congrArg Standing.exit begins
  simp only [standing] at board_eq listener_eq exit_eq
  rw [board_eq] at same
  rw [board_eq, listener_eq] at listener
  rw [exit_eq, Option.or_none] at exit
  -- A request that releases the address counts as one that readdresses, with no address.
  have assigned : last.listener.assigned =
      (latest (fun r => r.addressing? board) requests).join := by
    rw [listener]
    cases latest (fun r => r.addressing? board) requests <;> rfl
  have given (address : UInt8) : last.listener.assigned = some address ↔ ∃ before r after,
      requests = before ++ r :: after ∧ r.Assigns board address ∧
        ∀ other ∈ after, ¬other.Readdresses board := by
    rw [assigned, Option.join_eq_some_iff, latest_eq_some_iff]
    simp only [Request.addressing?_eq_assigned_iff, Request.addressing?_eq_none_iff]
  refine ⟨given, ?_, fun address h => ?_, ?_, ?_, fun free address => ?_, fun e => ?_,
    fun r address hardwareType frame named foreign => ?_⟩
  · rw [assigned, Option.join_eq_none_iff, latest_eq_some_iff, latest_eq_none_iff]
    simp only [Request.addressing?_eq_released_iff, Request.addressing?_eq_none_iff]
  · obtain ⟨-, r, -, -, ⟨-, -, -, addressable, low⟩, -⟩ := (given address).1 h
    refine ⟨UInt8.le_iff_toNat_le.2 (Nat.pos_of_ne_zero fun zero => addressable ?_), low⟩
    exact UInt8.toNat_inj.1 zero
  · rw [listener]
    cases latest (fun r => r.addressing? board) requests <;> rfl
  · rw [listener]
    cases latest (fun r => r.addressing? board) requests <;> rfl
  · rw [assigned] at free
    rw [listener]
    cases what : latest (fun r => r.addressing? board) requests with
    | none => rfl
    | some released =>
      rw [what] at free
      cases free
      rfl
  · rw [exit, latest_eq_some_iff]
    simp only [Option.eq_none_iff_forall_ne_some, ne_eq, Request.exit?_eq_some_iff]
  · exact exchange_foreign frame named (by rw [same]; exact foreign)

/-- A device is given an address, has to give it up and is given another. -/
theorem addressed_by_latest_of_two :
    ∃ (requests : List Request) (replies : List (Option Bytes)) (last : Session .small),
      (start .interface (.small []) .none .disabled).exchangeAll requests = .ok (replies, last) ∧
      last.listener.assigned = some 0x11 ∧ ∃ before r after, requests = before ++ r :: after ∧
        r.Assigns .interface 0x11 ∧ ∀ other ∈ after, ¬other.Readdresses .interface := by
  let requests : List Request := [.sealed .crc8 8 .setAddress [0x10, 0],
    ⟨.crc8, generalCallAddress, [GeneralCall.resetAddress.byte], 1, maxFrame⟩,
    .sealed .crc16 8 .setAddress [0x11, 0], .sealed .crc8 0x11 .getHardwareInfo []]
  obtain ⟨⟨replies, last⟩, run, good⟩ := exists_ok_of_any
    (x := (start .interface (.small []) .none .disabled).exchangeAll requests)
    (p := fun a => a.2.listener.assigned = some 0x11) (by decide +kernel)
  have assigned := of_decide_eq_true good
  exact ⟨requests, replies, last, run, assigned, ((addressed_by_latest run).1 0x11).1 assigned⟩

end Session

end FieldUpdate
