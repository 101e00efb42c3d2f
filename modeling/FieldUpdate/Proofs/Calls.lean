import FieldUpdate.Proofs.Demands

namespace FieldUpdate

/-- The address that a payload gives to a board, if it is meant for it and is one to give. -/
def Board.assigns? (b : Board) : Bytes → Option UInt8
  | [address, hardwareType] =>
    if hardwareType ≠ 0 ∧ hardwareType ≠ b.hardwareType then none
    else if address = generalCallAddress ∨ address > highestAddress then none
    else some address
  | _ => none

def Call.addressing? (board : Board) : Call → Option (Option UInt8)
  | run cmd payload =>
    if Command.ofByte? cmd = some .setAddress then (board.assigns? payload).map some else none
  | broadcast cmd => if GeneralCall.ofByte? cmd = some .resetAddress then some none else none

def Call.exit? : Call → Option Exit
  | run cmd payload =>
    if Command.ofByte? cmd = some .startApplication ∧ payload = [] then some .startApplication
    else none
  | broadcast cmd => if GeneralCall.ofByte? cmd = some .reset then some .reset else none

/-- The call that a request comes to. -/
def Request.call? (r : Request) : Option Call :=
  if r.address = generalCallAddress then r.frame.head?.map .broadcast
  else if r.room < r.framing.replyOverhead then none
  else
    match r.framing.opened r.address r.frame with
    | .command cmd payload => some (.run cmd payload)
    | .refused _ => none
    | .dropped => none

def Request.addressing? (r : Request) (board : Board) : Option (Option UInt8) :=
  r.call?.bind (Call.addressing? board)

def Request.exit? (r : Request) : Option Exit := r.call?.bind Call.exit?

namespace Responder

variable {σ τ : Type} {p : Responder σ} {s : σ} {r : Request} {e : Exchanged σ}

theorem conclude_state {framing : Framing} {address : UInt8} {buffer : Bytes} {status : Status}
    {len : Nat} (h : conclude framing address buffer status len s = .ok e) : e.state = s := by
  rcases bind_eq_ok.1 h with ⟨headed, -, h⟩
  rcases bind_eq_ok.1 h with ⟨⟨n, reply⟩, -, h⟩
  cases h
  rfl

theorem runInto_state {capacity : Nat} {cmd : UInt8} {payload : Bytes}
    (h : p.runInto s r capacity cmd payload = .ok e) :
    ∃ output answer, p.run s cmd payload output = .ok (answer, e.state) := by
  rcases bind_eq_ok.1 h with ⟨output, -, h⟩
  rcases bind_eq_ok.1 h with ⟨⟨answer, s'⟩, run, h⟩
  rcases bind_eq_ok.1 h with ⟨buffer, -, h⟩
  refine ⟨output, answer, ?_⟩
  simp only at h
  split at h
  · cases h
    exact run
  · split at h
    · cases h
    · rw [conclude_state h]
      exact run

theorem exchange_state {part : σ → τ} {act : τ → Call → τ}
    (run : ∀ {s cmd payload output answer s'}, p.run s cmd payload output = .ok (answer, s') →
      part s' = act (part s) (.run cmd payload))
    (broadcast : ∀ s cmd, part (p.broadcast s cmd) = act (part s) (.broadcast cmd))
    (h : p.exchange s r = .ok e) : part e.state = r.call?.elim (part s) (act (part s)) := by
  unfold exchange at h
  unfold Request.call?
  split at h
  · rename_i everyone
    rw [if_pos everyone]
    split at h
    · rename_i empty
      cases h
      rw [empty]
      rfl
    · rename_i cmd rest frame
      cases h
      rw [frame]
      exact broadcast s cmd
  · rename_i addressed
    rw [if_neg addressed]
    split at h
    · rename_i narrow
      cases h
      rw [if_pos narrow]
      rfl
    · rename_i room
      rw [if_neg room]
      cases opened : r.framing.opened r.address r.frame with
      | dropped =>
        rw [opened] at h
        cases h
        rfl
      | refused status =>
        rw [opened] at h
        exact congrArg part (conclude_state h)
      | command cmd payload =>
        rw [opened] at h
        obtain ⟨output, answer, answered⟩ := runInto_state h
        exact run answered

end Responder

/-- What a session shows of itself on a bus. -/
structure Standing where
  board : Board
  listener : Listener
  announceDue : Bool
  exit : Option Exit
  deriving DecidableEq

namespace Standing

def readdress (st : Standing) : Option (Option UInt8) → Standing
  | none => st
  | some assigned => { st with listener := { st.listener with assigned }, announceDue := true }

@[simp]
theorem readdress_none (st : Standing) : st.readdress none = st := rfl

def leave (st : Standing) : Option Exit → Standing
  | none => st
  | some exit => { st with exit := some exit }

@[simp]
theorem leave_none (st : Standing) : st.leave none = st := rfl

theorem leave_readdress (st : Standing) (address : Option (Option UInt8)) (exit : Option Exit) :
    (st.readdress address).leave exit =
      { board := st.board
        listener := address.elim st.listener fun assigned => { st.listener with assigned }
        announceDue := st.announceDue || address.isSome
        exit := exit.or st.exit } := by
  cases address <;> cases exit <;> simp [readdress, leave]

def after (st : Standing) (call : Call) : Standing :=
  (st.readdress (call.addressing? st.board)).leave call.exit?

end Standing

namespace Session

variable {g : Geometry} {s s' : Session g} {r : Request} {answer : Answer} {payload : Bytes}
  {capacity : Nat}

def standing (s : Session g) : Standing := ⟨s.board, s.listener, s.announceDue, s.exit⟩

theorem start_standing (board : Board) (flash : Programmer g) (children : Children)
    (logger : Logger) :
    (start board flash children logger).standing = ⟨board, board.listener, false, none⟩ := by
  unfold start
  simp only
  split <;> rfl

/-- Nothing changed but the image and the log. -/
def SameOutside (s s' : Session g) : Prop := ∃ updater logger, s' = { s with updater, logger }

theorem SameOutside.standing (h : SameOutside s s') : s'.standing = s.standing := by
  obtain ⟨_, _, rfl⟩ := h
  rfl

theorem SameOutside.children (h : SameOutside s s') : s'.children = s.children := by
  obtain ⟨_, _, rfl⟩ := h
  rfl

theorem sameOutside_noteProgress (updater : Updater g) (p : Progress) :
    SameOutside s ({ s with updater }.noteProgress p) := by
  unfold noteProgress
  split <;> split <;> exact ⟨updater, _, rfl⟩

theorem sameOutside_noteCorrupt (s : Session g) (r : Request) :
    SameOutside s (s.noteCorrupt r) := by
  unfold noteCorrupt
  split <;> exact ⟨_, _, rfl⟩

theorem sameOutside_noteHandled (s : Session g) (r : Request) (n : Option Nat) (buffer : Bytes) :
    SameOutside s (s.noteHandled r n buffer) := by
  unfold noteHandled
  split <;> exact ⟨_, _, rfl⟩

theorem sameOutside_writeFlash (h : s.writeFlash payload capacity = .ok (answer, s')) :
    SameOutside s s' := by
  rcases payload with _ | ⟨high, _ | ⟨low, data⟩⟩
  · cases h
    exact ⟨_, _, rfl⟩
  · cases h
    exact ⟨_, _, rfl⟩
  · rcases bind_eq_ok.1 h with ⟨⟨(_ | _ | error) | progress, u⟩, -, h⟩
    · cases h
      exact ⟨u, _, rfl⟩
    · cases h
      exact ⟨u, _, rfl⟩
    · cases h
      exact ⟨u, _, rfl⟩
    · cases h
      exact sameOutside_noteProgress u progress

theorem sameOutside_finalizeFlash (h : s.finalizeFlash payload capacity = .ok (answer, s')) :
    SameOutside s s' := by
  cases payload with
  | cons b rest =>
    cases h
    exact ⟨_, _, rfl⟩
  | nil =>
    rcases bind_eq_ok.1 h with ⟨⟨error | progress, u⟩, -, h⟩
    · cases h
      exact ⟨u, _, rfl⟩
    · cases h
      obtain ⟨u', logger, noted⟩ := sameOutside_noteProgress (s := s)
        { u with flash := u.flash.takeErases.2 } progress
      exact ⟨u', _, congrArg (note · (.finalized u.flash.takeErases.1)) noted⟩

theorem setAddress_standing (s : Session g) (payload : Bytes) :
    (s.setAddress payload).2.standing =
      s.standing.readdress ((s.board.assigns? payload).map some) := by
  match payload with
  | [] => rfl
  | [_] => rfl
  | [address, hardwareType] =>
    rw [setAddress, Board.assigns?]
    by_cases foreign : hardwareType ≠ 0 ∧ hardwareType ≠ s.board.hardwareType
    · rw [if_pos foreign, if_pos foreign]
      rfl
    · rw [if_neg foreign, if_neg foreign]
      by_cases reserved : address = generalCallAddress ∨ address > highestAddress
      · rw [if_pos reserved, if_pos reserved]
        rfl
      · rw [if_neg reserved, if_neg reserved]
        rfl
  | _ :: _ :: _ :: _ => rfl

theorem startApplication_standing (s : Session g) (payload : Bytes) :
    (s.startApplication payload).2.standing =
      s.standing.leave (if payload = [] then some .startApplication else none) := by
  cases payload with
  | nil => rfl
  | cons b rest => rfl

theorem selectChild_standing (s : Session g) (payload : Bytes) :
    (s.selectChild payload).2.standing = s.standing := by
  unfold selectChild
  repeat' split
  all_goals rfl

theorem part_of_ok {τ : Type} {part : Session g → τ} {result : Answer × Session g} {x : τ}
    (kept : part result.2 = x) (h : (.ok result : Checked _) = .ok (answer, s')) : part s' = x := by
  cases h
  exact kept

theorem perform_standing {command : Command}
    (h : s.perform command payload capacity = .ok (answer, s')) :
    s'.standing = (s.standing.readdress
      (if command = .setAddress then (s.board.assigns? payload).map some else none)).leave
      (if command = .startApplication ∧ payload = [] then some .startApplication else none) := by
  cases command with
  | setAddress => exact part_of_ok (s.setAddress_standing payload) h
  | startApplication =>
    simpa using part_of_ok (s.startApplication_standing payload) h
  | writeFlash => exact (sameOutside_writeFlash h).standing
  | finalizeFlash => exact (sameOutside_finalizeFlash h).standing
  | setChildSelect => exact part_of_ok (s.selectChild_standing payload) h
  | _ =>
    cases h
    rfl

theorem run_standing {cmd : UInt8} {output : Bytes}
    (h : s.run cmd payload output = .ok (answer, s')) :
    s'.standing = s.standing.after (.run cmd payload) := by
  rw [run] at h
  rw [Standing.after, Call.addressing?, Call.exit?]
  cases known : Command.ofByte? cmd with
  | none =>
    rw [known] at h
    cases h
    rfl
  | some command =>
    rw [known] at h
    simp only [Option.some.injEq]
    exact perform_standing h

theorem broadcast_standing (s : Session g) (cmd : UInt8) :
    (s.broadcast cmd).standing = s.standing.after (.broadcast cmd) := by
  rw [broadcast, Standing.after, Call.addressing?, Call.exit?]
  rcases GeneralCall.ofByte? cmd with _ | _ | _
  · rfl
  · rfl
  · rfl

/-- A request does to address and exit what its call says, and nothing if it comes to none. -/
theorem exchange_standing {e : Exchanged (Session g)} (h : s.exchange r = .ok e) :
    e.state.standing = (s.standing.readdress (r.addressing? s.board)).leave r.exit? := by
  rcases bind_eq_ok.1 h with ⟨served, answer, h⟩
  cases h
  have standing := Responder.exchange_state run_standing broadcast_standing answer
  rw [(sameOutside_noteCorrupt s r).standing] at standing
  rw [(sameOutside_noteHandled _ _ _ _).standing, standing, Request.addressing?, Request.exit?]
  cases r.call? with
  | none => rfl
  | some call => rfl

theorem exchange_board {e : Exchanged (Session g)} (h : s.exchange r = .ok e) :
    e.state.board = s.board :=
  congrArg Standing.board ((exchange_standing h).trans (Standing.leave_readdress _ _ _))

theorem exchange_listener {e : Exchanged (Session g)} (h : s.exchange r = .ok e) :
    e.state.listener = (r.addressing? s.board).elim s.listener fun assigned =>
      { s.listener with assigned } :=
  congrArg Standing.listener ((exchange_standing h).trans (Standing.leave_readdress _ _ _))

theorem exchange_announceDue {e : Exchanged (Session g)} (h : s.exchange r = .ok e) :
    e.state.announceDue = (s.announceDue || (r.addressing? s.board).isSome) :=
  congrArg Standing.announceDue ((exchange_standing h).trans (Standing.leave_readdress _ _ _))

theorem exchange_exit {e : Exchanged (Session g)} (h : s.exchange r = .ok e) :
    e.state.exit = r.exit?.or s.exit :=
  congrArg Standing.exit ((exchange_standing h).trans (Standing.leave_readdress _ _ _))

theorem addressing?_of_reply {e : Exchanged (Session g)} (h : s.exchange r = .ok e)
    (replied : e.reply ≠ none) (board : Board) :
    r.addressing? board = (r.addressing? board).join.map some := by
  rcases bind_eq_ok.1 h with ⟨served, answer, h⟩
  cases h
  have addressed : r.address ≠ generalCallAddress := by
    intro everyone
    apply replied
    rw [Responder.exchange, if_pos everyone] at answer
    split at answer
    · cases answer
      rfl
    · cases answer
      rfl
  unfold Request.addressing? Request.call?
  rw [if_neg addressed]
  split
  · rfl
  · split
    · simp only [Option.bind_some, Call.addressing?]
      split
      · cases board.assigns? _ with
        | none => rfl
        | some address => rfl
      · rfl
    · rfl
    · rfl

end Session

end FieldUpdate
