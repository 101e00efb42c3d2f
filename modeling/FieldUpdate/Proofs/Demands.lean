import FieldUpdate.Session
import FieldUpdate.Proofs.Dispatch
import FieldUpdate.Proofs.StreamInvariant

namespace FieldUpdate

/-- The answer says as many bytes as it has, and its output has room for them. -/
structure Answer.Exact (a : Answer) (capacity : Nat) : Prop where
  length : a.written.length = a.result.len.toNat
  fits : a.written.length ≤ capacity

/-- What keeps a step from its end. -/
inductive Stop
  | crash (c : Crash)
  | failure (e : FlashError)
  deriving DecidableEq

def stop? {α σ : Type} : Checked (Except FlashError α × σ) → Option Stop
  | .error c => some (.crash c)
  | .ok (.error e, _) => some (.failure e)
  | .ok (.ok _, _) => none

theorem stop?_eq_crash_iff {α σ : Type} {x : Checked (Except FlashError α × σ)} {c : Crash} :
    stop? x = some (.crash c) ↔ x = .error c := by
  rcases x with _ | ⟨_ | _, s⟩ <;> simp [stop?]

theorem stop?_eq_failure_iff {α σ : Type} {x : Checked (Except FlashError α × σ)}
    {e : FlashError} : stop? x = some (.failure e) ↔ ∃ s, x = .ok (.error e, s) := by
  rcases x with _ | ⟨_ | _, s⟩ <;> simp [stop?]

/-- What a command asks of the updater. -/
inductive Demand
  | write (address : Nat) (data : Bytes)
  | finish
  | nothing
  deriving DecidableEq

/-- Where the data ends is a 32-bit number. -/
def Demand.Short : Demand → Prop
  | .write address data => address + data.length < 0x100000000
  | .finish => True
  | .nothing => True

instance : DecidablePred Demand.Short
  | .write address data => inferInstanceAs (Decidable (address + data.length < 0x100000000))
  | .finish => inferInstanceAs (Decidable True)
  | .nothing => inferInstanceAs (Decidable True)

def Demand.ofCommand : Command → Bytes → Demand
  | .writeFlash, high :: low :: data => .write (bigEndian high low) data
  | .finalizeFlash, [] => .finish
  | _, _ => .nothing

def Demand.ofCall (cmd : UInt8) (payload : Bytes) : Demand :=
  match Command.ofByte? cmd with
  | some command => .ofCommand command payload
  | none => .nothing

def Request.demand (r : Request) : Demand :=
  if r.address = generalCallAddress ∨ r.room < r.framing.replyOverhead then .nothing
  else
    match r.framing.opened r.address r.frame with
    | .command cmd payload => .ofCall cmd payload
    | .refused _ => .nothing
    | .dropped => .nothing

theorem Request.demand_of_accepted {r : Request} (addressed : r.address ≠ generalCallAddress)
    (accepted : r.Accepted) {cmd : UInt8} {payload : Bytes} (hb : r.body = cmd :: payload) :
    r.demand = .ofCall cmd payload := by
  have room := accepted.room
  rw [demand, if_neg (by simp only [addressed, false_or]; omega), accepted.opened hb]

theorem Request.demand_of_not_accepted {r : Request} (h : ¬r.Accepted) : r.demand = .nothing := by
  unfold demand
  split
  · rfl
  · rename_i hr
    rw [opened_of_not_accepted (Nat.le_of_not_lt fun small => hr (.inr small)) h]
    cases r.refusal <;> rfl

theorem Request.demand_of_general {r : Request} (everyone : r.address = generalCallAddress) :
    r.demand = .nothing := if_pos (.inl everyone)

theorem write_short {high low : UInt8} {data : Bytes}
    (fits : (high :: low :: data).length ≤ maxFrame) :
    bigEndian high low + data.length < 0x100000000 := by
  have address : bigEndian high low < 0x10000 := bigEndian_lt high low
  have length : data.length + 2 ≤ 32 := fits
  omega

theorem Demand.short_ofCall (cmd : UInt8) {payload : Bytes} (fits : payload.length ≤ maxFrame) :
    (Demand.ofCall cmd payload).Short := by
  unfold ofCall
  split
  · unfold ofCommand
    split
    · exact write_short fits
    · trivial
    · trivial
  · trivial

theorem Request.demand_short (r : Request) : r.demand.Short := by
  by_cases everyone : r.address = generalCallAddress
  · rw [demand_of_general everyone]
    trivial
  · by_cases accepted : r.Accepted
    · obtain ⟨cmd, payload, hb⟩ := exists_body_eq_cons accepted.long
      have size := accepted.size
      rw [hb, List.length_cons, Nat.add_comm] at size
      rw [demand_of_accepted everyone accepted hb]
      exact Demand.short_ofCall cmd (Nat.le_of_add_le_add_left size)
    · rw [demand_of_not_accepted accepted]
      trivial

namespace Programmer

variable {g : Geometry} {p : Programmer g} {start : Nat} {data : Bytes}

/-- Block zero with this data cannot be committed: its vector would move, and no block holds the
slot's word in full. A block of one byte does not even hold the vector. -/
def Tears (p : Programmer g) (data : Bytes) : Prop :=
  ∃ slot, p.layout.slot = some slot ∧
    ¬slot.address.toNat % g.eraseSize + 2 ≤ g.eraseSize ∧
    (2 ≤ g.eraseSize → slot.toSlot (firstWord data) ≠ none)

theorem commit_crash_iff (h : p.Placed start data) (small : g.eraseSize < addressSpace)
    {crash : Crash} :
    p.commit start data = .error crash ↔ crash = .outOfBounds ∧ start = 0 ∧ p.Tears data := by
  constructor
  · intro hc
    by_cases fixed : p.layout.slot = none ∨ start ≠ 0
    · obtain ⟨report, p', he, -⟩ := p.updateBlock_spec (p.wanted start data) h.aligned
        (h.inside small)
      cases (commit_plain h fixed).symm.trans hc |>.symm.trans he
    · obtain ⟨hs, rfl⟩ : p.layout.slot ≠ none ∧ start = 0 := by simpa using fixed
      obtain ⟨slot, slotted⟩ := Option.ne_none_iff_exists'.1 hs
      by_cases torn : slot.address.toNat % g.eraseSize + 2 ≤ g.eraseSize
      · have fits : p.layout.SlotFits g.eraseSize := by
          intro slot' slotted'
          cases slotted.symm.trans slotted'
          exact torn
        -- A block that holds the slot makes the commit answer.
        obtain ⟨report, p', he, -⟩ := commit_spec h small fits
        cases he.symm.trans hc
      · by_cases unmovable : 2 ≤ g.eraseSize ∧ slot.toSlot (firstWord data) = none
        · cases (commit_unmovable h slotted unmovable.1 unmovable.2).symm.trans hc
        · have movable (two : 2 ≤ g.eraseSize) : slot.toSlot (firstWord data) ≠ none :=
            fun hn => unmovable ⟨two, hn⟩
          cases (commit_torn h slotted small torn movable).symm.trans hc
          exact ⟨rfl, rfl, slot, slotted, torn, movable⟩
  · rintro ⟨rfl, rfl, slot, slotted, torn, movable⟩
    exact commit_torn h slotted small torn movable

end Programmer

/-- Only commits of block zero are stopped in this way. -/
def Stop.AtFront (g : Geometry) (stop : Stop) : Prop :=
  ∀ (p : Programmer g) (start : Nat) (data : Bytes), p.Placed start data →
    stop? (p.commit start data) = some stop → start = 0

theorem Stop.AtFront.crash {g : Geometry} (small : g.eraseSize < addressSpace) (crash : Crash) :
    (Stop.crash crash).AtFront g := fun _ _ _ placed h =>
  ((Programmer.commit_crash_iff placed small).1 (stop?_eq_crash_iff.1 h)).2.1

namespace Updater

variable {g : Geometry} {u : Updater g} {data : Bytes} {crash : Crash}

/-- What a demand makes of an updater. -/
def meet (u : Updater g) : Demand → Checked (Updater g)
  | .write address data => do
    let (_, u) ← u.extend address data
    return u
  | .finish => do
    match ← u.finish with
    | (.error _, u) => return u
    | (.ok _, u) => return { u with flash := u.flash.takeErases.2 }
  | .nothing => .ok u

def front (u : Updater g) : Demand → Option Bytes
  | .write address data =>
    if (address = 0 ∨ address = u.cursor) ∧
        address + data.length ≤ u.flash.layout.applicationSize.toNat ∧
        address < g.eraseSize ∧ g.eraseSize ≤ address + data.length then
      some (u.staged.take address ++ data.take (g.eraseSize - address))
    else none
  | .finish =>
    if 0 < u.cursor ∧ u.cursor < g.eraseSize then some (u.staged.take u.cursor) else none
  | .nothing => none

section Full

variable {b : UInt8} {rest : Bytes} {flash : Programmer g}

theorem feed_of_crash (ready : u.Ready)
    (room : u.cursor < u.flash.layout.applicationSize.toNat)
    (full : (u.cursor + 1) % g.eraseSize = 0)
    (commit : u.flash.commit (u.cursor + 1 - g.eraseSize) (u.staging b).staged = .error crash) :
    u.feed (b :: rest) = .error crash := by
  rw [feed_cons_full ready room full]
  simp only [commit]
  rfl

theorem feed_of_failed {e : FlashError} (ready : u.Ready)
    (room : u.cursor < u.flash.layout.applicationSize.toNat)
    (full : (u.cursor + 1) % g.eraseSize = 0)
    (commit : u.flash.commit (u.cursor + 1 - g.eraseSize) (u.staging b).staged =
      .ok (.error e, flash)) :
    u.feed (b :: rest) = .ok (.error e,
      { (u.staging b).committing (u.cursor + 1 - g.eraseSize) (u.staging b).staged (.error e)
          flash with cursor := u.cursor + 1 - g.eraseSize }) := by
  rw [feed_cons_full ready room full]
  simp only [commit]
  rfl

theorem feed_of_committed {outcome : BlockOutcome} (ready : u.Ready)
    (room : u.cursor < u.flash.layout.applicationSize.toNat)
    (full : (u.cursor + 1) % g.eraseSize = 0)
    (commit : u.flash.commit (u.cursor + 1 - g.eraseSize) (u.staging b).staged =
      .ok (.ok outcome, flash)) :
    u.feed (b :: rest) = ((u.staging b).committing (u.cursor + 1 - g.eraseSize)
      (u.staging b).staged (.ok outcome) flash).feed rest := by
  rw [feed_cons_full ready room full]
  simp only [commit]
  rfl

end Full

theorem Ready.staging_front (ready : u.Ready) (b : UInt8) (rest : Bytes)
    (before : u.cursor < g.eraseSize) :
    (u.staging b).staged.take (u.cursor + 1) ++ rest.take (g.eraseSize - (u.cursor + 1)) =
      u.staged.take u.cursor ++ (b :: rest).take (g.eraseSize - u.cursor) := by
  have taken : (u.staging b).staged.take (u.cursor + 1) = u.staged.take u.cursor ++ [b] := by
    rw [staging, Nat.mod_eq_of_lt before]
    exact Stream.take_set_succ b (by rw [ready.staged]; exact before)
  rw [taken, show g.eraseSize - u.cursor = g.eraseSize - (u.cursor + 1) + 1 by omega,
    List.take_succ_cons, List.append_assoc, List.singleton_append]

theorem Ready.staging_whole (ready : u.Ready) (b : UInt8) (rest : Bytes)
    (whole : u.cursor + 1 = g.eraseSize) :
    (u.staging b).staged = u.staged.take u.cursor ++ (b :: rest).take (g.eraseSize - u.cursor) := by
  have hs := (u.staging_staged_length b).trans ready.staged
  have hf := ready.staging_front b rest (by omega)
  rwa [whole, Nat.sub_self, List.take_zero, List.append_nil,
    List.take_of_length_le (Nat.le_of_eq hs)] at hf

theorem Ready.placed_front (ready : u.Ready) {demand : Demand} {front : Bytes}
    (due : u.front demand = some front) : u.flash.Placed 0 front := by
  have pos := u.flash.sound.eraseSize_pos
  have staged := ready.staged
  have cursor := ready.cursor
  suffices h : 0 < front.length ∧ front.length ≤ g.eraseSize ∧
      front.length ≤ u.flash.layout.applicationSize.toNat from
    ⟨Nat.zero_mod _, h.1, h.2.1, by rw [Nat.zero_add]; exact h.2.2⟩
  cases demand with
  | nothing => cases due
  | write address data =>
    rw [Updater.front] at due
    split at due
    · cases due
      rw [List.length_append, List.length_take, List.length_take]
      omega
    · cases due
  | finish =>
    rw [Updater.front] at due
    split at due
    · cases due
      rw [List.length_take]
      omega
    · cases due

section Stops

variable {stop : Stop}

theorem feed_stop_iff (front : stop.AtFront g) (small : g.eraseSize < addressSpace)
    (ready : u.Ready) (room : u.cursor + data.length ≤ u.flash.layout.applicationSize.toNat) :
    stop? (u.feed data) = some stop ↔
      u.cursor < g.eraseSize ∧ g.eraseSize ≤ u.cursor + data.length ∧
      stop? (u.flash.commit 0 (u.staged.take u.cursor ++ data.take (g.eraseSize - u.cursor))) =
        some stop := by
  induction data generalizing u with
  | nil =>
    rw [List.length_nil, feed]
    constructor
    · intro h
      cases h
    · intro h
      omega
  | cons b rest ih =>
    rw [List.length_cons] at room ⊢
    have room' : u.cursor < u.flash.layout.applicationSize.toNat := by omega
    have hs := (u.staging_staged_length b).trans ready.staged
    have hc : (u.staging b).cursor = u.cursor + 1 := rfl
    by_cases full : (u.cursor + 1) % g.eraseSize = 0
    · have hN := Nat.le_of_dvd (Nat.succ_pos _) (Nat.dvd_of_mod_eq_zero full)
      have placed := u.placed_full b ready room' full
      -- The block that becomes complete is stopped in this way only if it is block zero.
      have committed : stop? (u.flash.commit (u.cursor + 1 - g.eraseSize) (u.staging b).staged) =
            some stop ↔
          u.cursor < g.eraseSize ∧ g.eraseSize ≤ u.cursor + (rest.length + 1) ∧
            stop? (u.flash.commit 0 (u.staged.take u.cursor ++
              (b :: rest).take (g.eraseSize - u.cursor))) = some stop := by
        constructor
        · intro h
          have zero := front _ _ _ placed h
          rw [zero, ready.staging_whole b rest (by omega)] at h
          exact ⟨by omega, by omega, h⟩
        · rintro ⟨before, -, h⟩
          rw [show u.cursor + 1 - g.eraseSize = 0 by omega, ready.staging_whole b rest (by omega)]
          exact h
      rw [← committed]
      cases commit : u.flash.commit (u.cursor + 1 - g.eraseSize) (u.staging b).staged with
      | error crash =>
        rw [feed_of_crash ready room' full commit]
        exact Iff.rfl
      | ok answer =>
        obtain ⟨outcome, flash⟩ := answer
        cases outcome with
        | error e =>
          rw [feed_of_failed ready room' full commit]
          exact Iff.rfl
        | ok outcome =>
          refine ⟨fun h => ?_, fun h => by cases h⟩
          -- The blocks behind this one are not stopped so.
          rw [feed_of_committed ready room' full commit] at h
          have step := Stream.Step.complete u [] b outcome flash room' full commit
          have hl : flash.layout = u.flash.layout := step.layout_eq small ready
          have later : ((u.staging b).committing (u.cursor + 1 - g.eraseSize) (u.staging b).staged
              (.ok outcome) flash).Ready :=
            ⟨hs, show u.cursor + 1 ≤ flash.layout.applicationSize.toNat by rw [hl]; exact room'⟩
          have space : u.cursor + 1 + rest.length ≤ flash.layout.applicationSize.toNat := by
            rw [hl]
            omega
          obtain ⟨before, -⟩ := (ih later space).1 h
          change u.cursor + 1 < _ at before
          omega
    · have space : u.cursor + 1 + rest.length ≤ u.flash.layout.applicationSize.toNat := by omega
      rw [feed_cons_open room' full, ih ⟨hs, room'⟩ space, hc]
      have short (before : u.cursor < g.eraseSize) : u.cursor + 1 < g.eraseSize := by
        have : u.cursor + 1 ≠ g.eraseSize := fun h => full (by rw [h, Nat.mod_self])
        omega
      constructor
      · rintro ⟨before, reach, h⟩
        rw [ready.staging_front b rest (by omega)] at h
        exact ⟨by omega, by omega, h⟩
      · rintro ⟨before, reach, h⟩
        rw [← ready.staging_front b rest before] at h
        exact ⟨short before, by omega, h⟩

def writeStop? (x : Checked (Except StreamError Progress × Updater g)) : Option Stop :=
  stop? (x.map fun a => (Stream.stepReport a.1, a.2))

theorem writeStop?_eq_crash_iff {x : Checked (Except StreamError Progress × Updater g)} :
    writeStop? x = some (.crash crash) ↔ x = .error crash := by
  rw [writeStop?, stop?_eq_crash_iff, map_eq_error]

theorem writeStop?_eq_failure_iff {x : Checked (Except StreamError Progress × Updater g)}
    {e : FlashError} :
    writeStop? x = some (.failure e) ↔ ∃ u', x = .ok (.error (.flash e), u') := by
  rcases x with _ | ⟨(_ | _ | _) | _, u'⟩ <;>
    simp [writeStop?, stop?, Except.map, Stream.stepReport]

theorem proceed_stop_iff {address : Nat} (short : address + data.length < 0x100000000) :
    writeStop? (u.proceed address data) = some stop ↔ address = u.cursor ∧
      address + data.length ≤ u.flash.layout.applicationSize.toNat ∧
      stop? (u.feed data) = some stop := by
  rw [proceed_of_short u short]
  split
  · rename_i outOfSequence
    constructor
    · intro h
      cases h
    · intro h
      exact absurd h.1 outOfSequence
  · rename_i inSequence
    split
    · constructor
      · intro h
        cases h
      · intro h
        omega
    · rcases u.feed data with _ | ⟨_ | _, fed⟩ <;>
        exact ⟨fun h => ⟨by omega, by omega, h⟩, fun h => h.2.2⟩

theorem extend_stop_iff (first : stop.AtFront g) (small : g.eraseSize < addressSpace)
    (ready : u.Ready) {address : Nat} (short : address + data.length < 0x100000000) :
    writeStop? (u.extend address data) = some stop ↔
      ∃ front, u.front (.write address data) = some front ∧
        stop? (u.flash.commit 0 front) = some stop := by
  -- `v` is the updater with the image begun again, if it is.
  obtain ⟨v, hv, ready', flash, staged, begins⟩ : ∃ v : Updater g,
      (if address = 0 then { u with cursor := 0 } else u) = v ∧ v.Ready ∧ v.flash = u.flash ∧
        v.staged = u.staged ∧ (address = v.cursor ↔ address = 0 ∨ address = u.cursor) := by
    refine ⟨_, rfl, ?_⟩
    split
    · rename_i zero
      exact ⟨⟨ready.staged, Nat.zero_le _⟩, rfl, rfl, by simp [zero]⟩
    · rename_i later
      exact ⟨ready, rfl, rfl, by simp [later]⟩
  rw [extend_eq, hv, proceed_stop_iff short, flash, front]
  constructor
  · rintro ⟨next, room, h⟩
    rw [feed_stop_iff first small ready' (by rw [flash, ← next]; exact room), ← next, flash,
      staged] at h
    obtain ⟨before, reach, h⟩ := h
    exact ⟨_, if_pos ⟨begins.1 next, room, before, reach⟩, h⟩
  · rintro ⟨content, hf, h⟩
    split at hf
    · rename_i due
      obtain ⟨next, room, before, reach⟩ := due
      cases hf
      have next := begins.2 next
      refine ⟨next, room, ?_⟩
      rw [feed_stop_iff first small ready' (by rw [flash, ← next]; exact room), ← next, flash,
        staged]
      exact ⟨before, reach, h⟩
    · cases hf

theorem finish_stop_iff (first : stop.AtFront g) (ready : u.Ready) :
    stop? u.finish = some stop ↔
      ∃ front, u.front .finish = some front ∧ stop? (u.flash.commit 0 front) = some stop := by
  rw [front]
  by_cases whole : u.cursor % g.eraseSize = 0
  · rw [finish_whole whole, if_neg]
    · exact ⟨nofun, fun ⟨_, h, _⟩ => nomatch h⟩
    · rintro ⟨pos, before⟩
      rw [Nat.mod_eq_of_lt before] at whole
      omega
  · have placed := u.placed_tail ready whole
    have hm := Nat.mod_lt u.cursor u.flash.sound.eraseSize_pos
    have pos : 0 < u.cursor := Nat.pos_of_ne_zero fun zero => whole (by rw [zero, Nat.zero_mod])
    have hc : stop? u.finish = stop? (u.flash.commit (u.cursor - u.cursor % g.eraseSize)
        (u.staged.take (u.cursor % g.eraseSize))) := by
      rw [finish_tail ready whole]
      simp only [completed]
      rcases u.flash.commit (u.cursor - u.cursor % g.eraseSize)
        (u.staged.take (u.cursor % g.eraseSize)) with _ | ⟨_ | _, flash⟩ <;> rfl
    rw [hc]
    constructor
    · intro h
      -- A commit that is stopped in this way is that of block zero.
      have zero := first _ _ _ placed h
      have before : u.cursor < g.eraseSize := by omega
      rw [zero, Nat.mod_eq_of_lt before] at h
      exact ⟨_, if_pos ⟨pos, before⟩, h⟩
    · rintro ⟨content, hf, h⟩
      split at hf
      · rename_i due
        cases hf
        rw [Nat.mod_eq_of_lt due.2, Nat.sub_self]
        exact h
      · cases hf

end Stops

theorem front_crash_iff (small : g.eraseSize < addressSpace) (ready : u.Ready) {demand : Demand} :
    (∃ front, u.front demand = some front ∧
      stop? (u.flash.commit 0 front) = some (.crash crash)) ↔
      crash = .outOfBounds ∧ ∃ front, u.front demand = some front ∧ u.flash.Tears front := by
  constructor
  · rintro ⟨front, due, h⟩
    rw [stop?_eq_crash_iff, Programmer.commit_crash_iff (ready.placed_front due) small] at h
    exact ⟨h.1, front, due, h.2.2⟩
  · rintro ⟨hx, front, due, tears⟩
    refine ⟨front, due, ?_⟩
    rw [stop?_eq_crash_iff, Programmer.commit_crash_iff (ready.placed_front due) small]
    exact ⟨hx, rfl, tears⟩

theorem extend_crash_iff (small : g.eraseSize < addressSpace) (ready : u.Ready) {address : Nat}
    (short : address + data.length < 0x100000000) :
    u.extend address data = .error crash ↔ crash = .outOfBounds ∧
      ∃ front, u.front (.write address data) = some front ∧ u.flash.Tears front := by
  rw [← writeStop?_eq_crash_iff, extend_stop_iff (.crash small crash) small ready short,
    front_crash_iff small ready]

theorem finish_crash_iff (small : g.eraseSize < addressSpace) (ready : u.Ready) :
    u.finish = .error crash ↔ crash = .outOfBounds ∧
      ∃ front, u.front .finish = some front ∧ u.flash.Tears front := by
  rw [← stop?_eq_crash_iff, finish_stop_iff (.crash small crash) ready,
    front_crash_iff small ready]

/-- A demand crashes if it commits block zero over a torn slot. -/
theorem meet_crash_iff (small : g.eraseSize < addressSpace) (ready : u.Ready) {demand : Demand}
    (short : demand.Short) :
    u.meet demand = .error crash ↔ crash = .outOfBounds ∧
      ∃ front, u.front demand = some front ∧ u.flash.Tears front := by
  cases demand with
  | nothing => exact ⟨nofun, fun ⟨_, _, h, _⟩ => nomatch h⟩
  | write address data =>
    rw [← extend_crash_iff small ready short]
    exact bind_eq_error fun _ => ⟨_, rfl⟩
  | finish =>
    rw [← finish_crash_iff small ready]
    refine bind_eq_error ?_
    rintro ⟨_ | _, done⟩
    · exact ⟨_, rfl⟩
    · exact ⟨_, rfl⟩

end Updater

namespace Session

variable {g : Geometry} {s s' : Session g} {capacity : Nat} {answer : Answer}

@[simp]
theorem noteProgress_updater (s : Session g) (p : Progress) :
    (s.noteProgress p).updater = s.updater := by
  unfold noteProgress
  split <;> split <;> rfl

@[simp]
theorem noteCorrupt_updater (s : Session g) (r : Request) :
    (s.noteCorrupt r).updater = s.updater := by
  unfold noteCorrupt
  split <;> rfl

@[simp]
theorem noteHandled_updater (s : Session g) (r : Request) (n : Option Nat) (buffer : Bytes) :
    (s.noteHandled r n buffer).updater = s.updater := by
  unfold noteHandled
  split <;> rfl

theorem setAddress_updater (s : Session g) (input : Bytes) :
    (s.setAddress input).2.updater = s.updater := by
  unfold setAddress
  repeat' split
  all_goals rfl

theorem startApplication_updater (s : Session g) (input : Bytes) :
    (s.startApplication input).2.updater = s.updater := by
  unfold startApplication
  split <;> rfl

theorem selectChild_updater (s : Session g) (input : Bytes) :
    (s.selectChild input).2.updater = s.updater := by
  unfold selectChild
  repeat' split
  all_goals rfl

theorem broadcast_updater (s : Session g) (cmd : UInt8) : (s.broadcast cmd).updater = s.updater := by
  unfold broadcast
  split <;> rfl

theorem writeFlash_updater (s : Session g) (payload : Bytes) (capacity : Nat) :
    (s.writeFlash payload capacity).map (fun a => a.2.updater) =
      s.updater.meet (.ofCommand .writeFlash payload) := by
  match payload with
  | [] => rfl
  | [_] => rfl
  | high :: low :: data =>
    rw [writeFlash, Demand.ofCommand, Updater.meet]
    cases s.updater.extend (bigEndian high low) data with
    | error crash => rfl
    | ok result =>
      obtain ⟨report, u⟩ := result
      match report with
      | .ok progress => exact congrArg Except.ok (noteProgress_updater _ progress)
      | .error .outOfSequence => rfl
      | .error .outOfRange => rfl
      | .error (.flash e) => rfl

theorem finalizeFlash_updater (s : Session g) (payload : Bytes) (capacity : Nat) :
    (s.finalizeFlash payload capacity).map (fun a => a.2.updater) =
      s.updater.meet (.ofCommand .finalizeFlash payload) := by
  match payload with
  | _ :: _ => rfl
  | [] =>
    rw [finalizeFlash, Demand.ofCommand, Updater.meet]
    cases s.updater.finish with
    | error crash => rfl
    | ok result =>
      obtain ⟨report, u⟩ := result
      match report with
      | .ok progress => exact congrArg Except.ok (noteProgress_updater _ progress)
      | .error e => rfl

theorem perform_updater (s : Session g) (command : Command) (payload : Bytes) (capacity : Nat) :
    (s.perform command payload capacity).map (fun a => a.2.updater) =
      s.updater.meet (.ofCommand command payload) := by
  cases command with
  | writeFlash => exact s.writeFlash_updater payload capacity
  | finalizeFlash => exact s.finalizeFlash_updater payload capacity
  | setAddress => exact congrArg Except.ok (s.setAddress_updater payload)
  | startApplication => exact congrArg Except.ok (s.startApplication_updater payload)
  | setChildSelect => exact congrArg Except.ok (s.selectChild_updater payload)
  | _ => rfl

theorem run_updater (s : Session g) (cmd : UInt8) (payload output : Bytes) :
    (s.run cmd payload output).map (fun a => a.2.updater) =
      s.updater.meet (.ofCall cmd payload) := by
  rw [run, Demand.ofCall]
  cases Command.ofByte? cmd with
  | some command => exact s.perform_updater command payload output.length
  | none => rfl

theorem answer_exact (status : Status) (capacity : Nat) : status.answer.Exact capacity :=
  ⟨rfl, Nat.zero_le _⟩

theorem singleton_short (b : UInt8) : [b].length < 256 := (by decide : 1 < 256)

theorem reply_exact {payload : Bytes} (short : payload.length < 256) (capacity : Nat) :
    (Answer.reply capacity payload).Exact capacity := by
  unfold Answer.reply
  split
  · rename_i fits
    refine ⟨?_, fits⟩
    rw [Nat.toUInt8_eq, UInt8.toNat_ofNat', Nat.mod_eq_of_lt short]
  · exact answer_exact _ _

theorem inquiry_exact {payload : Bytes} (short : payload.length < 256) (input : Bytes)
    (capacity : Nat) : (inquiry input capacity payload).Exact capacity := by
  unfold inquiry
  split
  · exact reply_exact short capacity
  · exact answer_exact _ _

theorem reportFlashError_exact (s : Session g) (e : FlashError) (capacity : Nat) :
    (s.reportFlashError e capacity).1.Exact capacity := by
  unfold reportFlashError
  simp only
  split
  · exact answer_exact _ _
  · exact ⟨rfl, by rw [List.length_singleton]; omega⟩

theorem setAddress_exact (s : Session g) (payload : Bytes) (capacity : Nat) :
    (s.setAddress payload).1.Exact capacity := by
  unfold setAddress
  repeat' split
  all_goals exact answer_exact _ _

theorem startApplication_exact (s : Session g) (payload : Bytes) (capacity : Nat) :
    (s.startApplication payload).1.Exact capacity := by
  unfold startApplication
  split <;> exact answer_exact _ _

theorem selectChild_exact (s : Session g) (payload : Bytes) (capacity : Nat) :
    (s.selectChild payload).1.Exact capacity := by
  unfold selectChild
  repeat' split
  all_goals exact answer_exact _ _

theorem childCount_exact (s : Session g) (payload : Bytes) (capacity : Nat) :
    (s.childCount payload capacity).Exact capacity := by
  unfold childCount
  split
  · exact answer_exact _ _
  · exact inquiry_exact (singleton_short _) payload capacity

theorem readFlash_exact (s : Session g) (payload : Bytes) (capacity : Nat) :
    (s.readFlash payload capacity).Exact capacity := by
  unfold readFlash
  split
  · simp only
    split
    · exact answer_exact _ _
    · rename_i high low len h
      have hl : (s.updater.flash.imageRange (bigEndian high low) len.toNat).length = len.toNat := by
        rw [Programmer.imageRange, List.length_map, List.length_range]
      exact ⟨hl, by rw [hl]; omega⟩
  · exact answer_exact _ _

theorem readDescriptor_exact (s : Session g) (payload : Bytes) (capacity : Nat) :
    (s.readDescriptor payload capacity).Exact capacity := by
  unfold readDescriptor
  split
  · simp only
    split
    · exact answer_exact _ _
    · rename_i offset len h
      have hn := len.toNat_lt
      have hl := s.descriptor.read_length_le offset.toNat len.toNat
      refine ⟨?_, Nat.le_trans hl (by omega)⟩
      rw [Nat.toUInt8_eq, UInt8.toNat_ofNat', Nat.mod_eq_of_lt (by omega)]
  · exact answer_exact _ _

theorem exact_of_ok {result : Answer × Session g} (exact : result.1.Exact capacity)
    (h : (.ok result : Checked _) = .ok (answer, s')) : answer.Exact capacity := by
  cases h
  exact exact

theorem writeFlash_exact {payload : Bytes} (h : s.writeFlash payload capacity = .ok (answer, s')) :
    answer.Exact capacity := by
  match payload with
  | [] =>
    cases h
    exact answer_exact _ _
  | [_] =>
    cases h
    exact answer_exact _ _
  | high :: low :: data =>
    obtain ⟨⟨report, u⟩, -, h⟩ := bind_eq_ok.1 h
    match report with
    | .ok progress =>
      cases h
      exact answer_exact _ _
    | .error .outOfSequence =>
      cases h
      exact answer_exact _ _
    | .error .outOfRange =>
      cases h
      exact answer_exact _ _
    | .error (.flash e) => exact exact_of_ok (reportFlashError_exact { s with updater := u } e _) h

theorem finalizeFlash_exact {payload : Bytes}
    (h : s.finalizeFlash payload capacity = .ok (answer, s')) : answer.Exact capacity := by
  match payload with
  | _ :: _ =>
    cases h
    exact answer_exact _ _
  | [] =>
    obtain ⟨⟨report, u⟩, -, h⟩ := bind_eq_ok.1 h
    match report with
    | .ok progress =>
      cases h
      exact reply_exact (singleton_short _) capacity
    | .error e => exact exact_of_ok (reportFlashError_exact { s with updater := u } e _) h

theorem perform_exact {command : Command} {payload : Bytes}
    (h : s.perform command payload capacity = .ok (answer, s')) : answer.Exact capacity := by
  have short := s.descriptor.read_length_le
  cases command with
  | writeFlash => exact writeFlash_exact h
  | finalizeFlash => exact finalizeFlash_exact h
  | getProtocolVersion => exact exact_of_ok (inquiry_exact (by decide) payload capacity) h
  | setAddress => exact exact_of_ok (s.setAddress_exact payload capacity) h
  | powerUpDisplay => exact exact_of_ok (answer_exact _ capacity) h
  | getHardwareInfo =>
    have hl : s.hardwareInfo.length < 256 := (by decide : 5 < 256)
    exact exact_of_ok (inquiry_exact hl payload capacity) h
  | startApplication => exact exact_of_ok (s.startApplication_exact payload capacity) h
  | readFlash => exact exact_of_ok (s.readFlash_exact payload capacity) h
  | getHardwareRevision =>
    exact exact_of_ok (inquiry_exact (singleton_short _) payload capacity) h
  | getSerialNumber =>
    exact exact_of_ok
      (inquiry_exact (Nat.lt_of_le_of_lt (short 12 4) (by decide)) payload capacity) h
  | getNumChildren => exact exact_of_ok (s.childCount_exact payload capacity) h
  | setChildSelect => exact exact_of_ok (s.selectChild_exact payload capacity) h
  | getExtraInfo =>
    exact exact_of_ok
      (inquiry_exact (Nat.lt_of_le_of_lt (short 16 16) (by decide)) payload capacity) h
  | readBoardInfo => exact exact_of_ok (s.readDescriptor_exact payload capacity) h

theorem run_exact {cmd : UInt8} {payload output : Bytes}
    (h : s.run cmd payload output = .ok (answer, s')) : answer.Exact output.length := by
  rw [run] at h
  cases hc : Command.ofByte? cmd with
  | some command =>
    rw [hc] at h
    exact perform_exact h
  | none =>
    rw [hc] at h
    cases h
    exact answer_exact _ _

theorem responder_bounded : (responder : Responder (Session g)).Bounded := by
  intro s cmd payload output answer s' h
  have exact := run_exact h
  exact exact.length ▸ exact.fits

theorem responder_exchange_updater (s : Session g) (r : Request) :
    (responder.exchange s r).map (fun e => e.state.updater) = s.updater.meet r.demand := by
  have comes := Responder.exchange_comes responder_bounded s r
  generalize responder.exchange s r = result at comes ⊢
  cases comes with
  | general everyone s' state =>
    rw [Request.demand_of_general everyone]
    obtain rfl | ⟨cmd, rfl⟩ := state
    · rfl
    · exact congrArg Except.ok (s.broadcast_updater cmd)
  | ignored addressed rejected refused =>
    rw [Request.demand_of_not_accepted rejected]
    rfl
  | refused addressed rejected status refused frame hf =>
    rw [Request.demand_of_not_accepted rejected]
    rfl
  | crashed addressed accepted cmd payload hb crash run =>
    rw [Request.demand_of_accepted addressed accepted hb, ← s.run_updater cmd payload r.output]
    exact congrArg (Except.map _) run.symm
  | silent addressed accepted cmd payload hb answer s' run silent =>
    rw [Request.demand_of_accepted addressed accepted hb, ← s.run_updater cmd payload r.output]
    exact congrArg (Except.map fun a : Answer × Session g => a.2.updater) run.symm
  | answered addressed accepted cmd payload hb answer s' run sent fits frame hf =>
    rw [Request.demand_of_accepted addressed accepted hb, ← s.run_updater cmd payload r.output]
    exact congrArg (Except.map fun a : Answer × Session g => a.2.updater) run.symm

/-- A request does to the updater what it demands. -/
theorem exchange_updater (s : Session g) (r : Request) :
    (s.exchange r).map (fun e => e.state.updater) = s.updater.meet r.demand := by
  rw [← s.noteCorrupt_updater r, ← responder_exchange_updater, exchange]
  cases responder.exchange (s.noteCorrupt r) r with
  | error crash => rfl
  | ok e => exact congrArg Except.ok (noteHandled_updater _ _ _ _)

theorem meet_of_exchange {r : Request} {e : Exchanged (Session g)} (h : s.exchange r = .ok e) :
    s.updater.meet r.demand = .ok e.state.updater := by
  rw [← exchange_updater, h]
  rfl

theorem exchange_of_meet {r : Request} {u : Updater g} (met : s.updater.meet r.demand = .ok u) :
    ∃ e, s.exchange r = .ok e ∧ e.state.updater = u := by
  rw [← exchange_updater] at met
  cases answer : s.exchange r with
  | error crash =>
    rw [answer] at met
    cases met
  | ok e =>
    rw [answer] at met
    exact ⟨e, rfl, Except.ok.inj met⟩

theorem run_crash_iff (small : g.eraseSize < addressSpace) (ready : s.updater.Ready) {cmd : UInt8}
    {payload output : Bytes} (short : (Demand.ofCall cmd payload).Short) {crash : Crash} :
    s.run cmd payload output = .error crash ↔ crash = .outOfBounds ∧
      ∃ front, s.updater.front (.ofCall cmd payload) = some front ∧
        s.updater.flash.Tears front := by
  rw [← Updater.meet_crash_iff small ready short, ← s.run_updater cmd payload output, map_eq_error]

theorem exchange_crash_iff (small : g.eraseSize < addressSpace) (ready : s.updater.Ready)
    {r : Request} {crash : Crash} :
    s.exchange r = .error crash ↔ crash = .outOfBounds ∧
      ∃ front, s.updater.front r.demand = some front ∧ s.updater.flash.Tears front := by
  rw [← Updater.meet_crash_iff small ready r.demand_short, ← s.exchange_updater r, map_eq_error]

end Session

end FieldUpdate
