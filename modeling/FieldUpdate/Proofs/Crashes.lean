import FieldUpdate.Proofs.Blocks
import FieldUpdate.Proofs.Vector

namespace FieldUpdate

namespace Programmer

variable {g : Geometry} {p p' : Programmer g} {data data' : Bytes}

theorem not_tears_of_fits (fits : p.layout.SlotFits g.eraseSize) : ¬p.Tears data :=
  fun ⟨slot, slotted, torn, _⟩ => torn (fits slot slotted)

theorem Tears.congr (h : p.Tears data) (layout : p'.layout = p.layout)
    (word : 2 ≤ g.eraseSize → firstWord data' = firstWord data) : p'.Tears data' := by
  obtain ⟨slot, slotted, torn, movable⟩ := h
  exact ⟨slot, by rw [layout, slotted], torn, fun two => by rw [word two]; exact movable two⟩

theorem Tears.eraseSize_ne_two (h : p.Tears data) : g.eraseSize ≠ 2 := by
  obtain ⟨slot, slotted, torn, -⟩ := h
  have even := p.sound.slot_even slot slotted
  intro two
  rw [two, even] at torn
  exact torn (Nat.le_refl 2)

end Programmer

namespace Updater

variable {g : Geometry} {u : Updater g} {data : Bytes}

/-- The indices, sums and differences that a demand takes of the cursor and the slot. -/
structure InRange (u : Updater g) : Prop where
  /-- What addresses are divided by. -/
  divisor : 0 < g.eraseSize
  /-- The place of the next byte among the staged ones. -/
  place : u.cursor % g.eraseSize < u.staged.length
  /-- The address behind the next byte. -/
  next : u.cursor < u.flash.layout.applicationSize.toNat → u.cursor + 1 < addressSpace
  /-- The start of the block that the next byte completes. -/
  back : (u.cursor + 1) % g.eraseSize = 0 → g.eraseSize ≤ u.cursor + 1
  /-- The addresses of the block that is committed next. -/
  block : u.completed < u.flash.layout.applicationSize.toNat →
    u.completed + g.eraseSize ≤ addressSpace
  /-- The addresses of the slot and of its block. -/
  slot : ∀ slot, u.flash.layout.slot = some slot →
    slot.address.toNat + 1 < addressSpace ∧ slot.block g.eraseSize + g.eraseSize ≤ addressSpace

theorem Ready.inRange (ready : u.Ready) (small : g.eraseSize < addressSpace) : u.InRange where
  divisor := u.flash.sound.eraseSize_pos
  place := by
    rw [ready.staged]
    exact Nat.mod_lt _ u.flash.sound.eraseSize_pos
  next room := by
    have := u.flash.layout.applicationSize.toNat_lt
    have : addressSpace = 2 ^ 16 := rfl
    omega
  back full := Nat.le_of_dvd (Nat.succ_pos _) (Nat.dvd_of_mod_eq_zero full)
  block before := by
    have aligned : u.completed % g.eraseSize = 0 :=
      Nat.sub_mod_eq_zero_of_mod_eq (by rw [Nat.mod_mod])
    have inside := Programmer.block_inside small aligned (Nat.le_refl _)
      (Nat.lt_of_lt_of_le before u.flash.sound.application_le)
    exact Nat.le_trans inside u.flash.sound.writable_le
  slot slot slotted := by
    have := u.flash.sound.slot_le slot slotted
    have := Programmer.slot_block_inside slotted small
    have := u.flash.sound.writable_le
    exact ⟨by omega, by omega⟩

theorem feed_short (ready : u.Ready) (short : u.cursor + data.length < g.eraseSize)
    (room : u.cursor + data.length ≤ u.flash.layout.applicationSize.toNat) :
    ∃ u', u.feed data = .ok (.ok (), u') ∧ u'.Ready ∧ u'.flash = u.flash ∧
      u'.cursor = u.cursor + data.length ∧
      u'.staged.take u'.cursor = u.staged.take u.cursor ++ data := by
  -- By the bytes; none of them completes the block.
  induction data generalizing u with
  | nil => exact ⟨u, rfl, ready, rfl, rfl, (List.append_nil _).symm⟩
  | cons b rest ih =>
    rw [List.length_cons] at short room
    have before : u.cursor + 1 < g.eraseSize := by omega
    have space : u.cursor < u.flash.layout.applicationSize.toNat := by omega
    have unfinished : (u.cursor + 1) % g.eraseSize ≠ 0 := by
      rw [Nat.mod_eq_of_lt before]
      exact Nat.succ_ne_zero _
    have ready' : (u.staging b).Ready := ⟨(u.staging_staged_length b).trans ready.staged, space⟩
    have cursor : (u.staging b).cursor = u.cursor + 1 := rfl
    have staged : (u.staging b).staged.take (u.cursor + 1) = u.staged.take u.cursor ++ [b] := by
      rw [staging, Nat.mod_eq_of_lt (by omega)]
      exact Stream.take_set_succ b (by rw [ready.staged]; omega)
    obtain ⟨u', fed, ready'', flash, after, taken⟩ :=
      ih ready' (by rw [cursor]; omega) (by rw [cursor]; exact Nat.le_trans (by omega) room)
    refine ⟨u', (feed_cons_open space unfinished).trans fed, ready'', flash, ?_, ?_⟩
    · rw [after, cursor, List.length_cons]
      omega
    · rw [taken, cursor, staged, List.append_assoc, List.singleton_append]

theorem front_of_short_image (ready : u.Ready) (some_bytes : 0 < data.length)
    (short : data.length < g.eraseSize)
    (room : data.length ≤ u.flash.layout.applicationSize.toNat) :
    ∃ u', u.meet (.write 0 data) = .ok u' ∧ u'.Ready ∧ u'.flash = u.flash ∧
      u'.front .finish = some data := by
  let begun : Updater g := { u with cursor := 0 }
  have ready₀ : begun.Ready := ⟨ready.staged, Nat.zero_le _⟩
  obtain ⟨u', fed, ready', flash, cursor, staged⟩ :=
    feed_short ready₀ (show 0 + data.length < g.eraseSize by omega)
      (show 0 + data.length ≤ u.flash.layout.applicationSize.toNat by omega)
  have cursor : u'.cursor = data.length := cursor.trans (Nat.zero_add _)
  refine ⟨u', ?_, ready', flash, ?_⟩
  · have fed : (Stream.begun ⟨u, []⟩ 0).updater.feed data = .ok (.ok (), u') := fed
    have next : (Stream.begun ⟨u, []⟩ 0).updater.cursor = 0 := rfl
    rw [meet, Stream.extend_in_sequence next (by omega), fed]
    rfl
  · rw [front, if_pos (by omega), staged]
    rfl

end Updater

namespace Session

variable {g : Geometry} {s t : Session g} {requests : List Request}
  {replies : List (Option Bytes)} {crash : Crash}

theorem exchangeAll_eq_error_iff : s.exchangeAll requests = .error crash ↔
    ∃ before r after replies t, requests = before ++ r :: after ∧
      s.exchangeAll before = .ok (replies, t) ∧ t.exchange r = .error crash := by
  -- By the requests: the first one crashes, or the crash comes after it.
  induction requests generalizing s with
  | nil =>
    refine ⟨nofun, ?_⟩
    rintro ⟨before, r, after, -, -, split, -⟩
    simp at split
  | cons r rest ih =>
    cases answer : s.exchange r with
    | error crash' =>
      rw [exchangeAll_crash answer]
      constructor
      · intro h
        cases h
        exact ⟨[], r, rest, [], s, rfl, rfl, answer⟩
      · rintro ⟨before, r', after, replies, t, split, run, crashed⟩
        cases before with
        | nil =>
          cases split
          cases run
          rw [answer] at crashed
          cases crashed
          rfl
        | cons first before =>
          cases split
          cases (exchangeAll_crash answer).symm.trans run
    | ok e =>
      have later : s.exchangeAll (r :: rest) = .error crash ↔
          e.state.exchangeAll rest = .error crash := by
        rw [exchangeAll_cons answer]
        exact bind_eq_error fun _ => ⟨_, rfl⟩
      rw [later, ih]
      constructor
      · rintro ⟨before, r', after, replies, t, rfl, run, crashed⟩
        refine ⟨r :: before, r', after, e.reply :: replies, t, rfl, ?_, crashed⟩
        rw [exchangeAll_cons answer, run]
        rfl
      · rintro ⟨before, r', after, replies, t, split, run, crashed⟩
        cases before with
        | nil =>
          cases split
          cases run
          cases answer.symm.trans crashed
        | cons first before =>
          cases split
          rw [exchangeAll_cons answer] at run
          obtain ⟨⟨replies', t'⟩, run, h⟩ := bind_eq_ok.1 run
          cases h
          exact ⟨before, r', after, replies', t, rfl, run, crashed⟩

theorem exchangeAll_ready (run : s.exchangeAll requests = .ok (replies, t))
    (small : g.eraseSize < addressSpace) (ready : s.updater.Ready) :
    t.updater.Ready ∧ t.updater.flash.layout = s.updater.flash.layout := by
  obtain ⟨accepted, path⟩ := exchangeAll_path run small ready.coherent
  exact ⟨(path.coherent small ready.coherent).ready, path.layout_eq small ready.coherent⟩

/-- Data that would tear the slot can be sent to any session: at most two bytes of it and the end of
the image are enough. -/
theorem exists_crash_of_tears (small : g.eraseSize < addressSpace) (ready : s.updater.Ready)
    {data : Bytes} (some_bytes : 0 < data.length) (le_block : data.length ≤ g.eraseSize)
    (le_application : data.length ≤ s.updater.flash.layout.applicationSize.toNat)
    (tears : s.updater.flash.Tears data) :
    ∃ requests, s.exchangeAll requests = .error .outOfBounds := by
  let write : Request := .sealed .crc8 1 .writeFlash (addressBytes 0 ++ data.take 2)
  let final : Request := .sealed .crc8 1 .finalizeFlash []
  have length : (data.take 2).length = min 2 data.length := List.length_take
  have written : write.demand = .write 0 (data.take 2) :=
    Request.sealed_demand (by decide)
      (by simp [addressBytes, Framing.trailerLength, maxFrame]; omega)
  have ended : final.demand = .finish := Request.sealed_demand (by decide) (by decide)
  have two := tears.eraseSize_ne_two
  by_cases one : g.eraseSize = 1
  · -- A single byte completes block zero.
    refine ⟨[write], exchangeAll_crash ((exchange_crash_iff small ready).2 ⟨rfl, ?_⟩)⟩
    rw [written]
    refine ⟨_, if_pos ⟨.inl rfl, by omega, by omega, by omega⟩, tears.congr rfl fun two => ?_⟩
    omega
  · have pos := s.updater.flash.sound.eraseSize_pos
    have some_taken : 0 < (data.take 2).length := by omega
    obtain ⟨u, met, ready', flash, front⟩ :=
      Updater.front_of_short_image ready some_taken (by omega) (by omega)
    rw [← written] at met
    obtain ⟨e, answer, state⟩ := exchange_of_meet met
    rw [← state] at ready' flash front
    refine ⟨[write, final], ?_⟩
    rw [exchangeAll_cons answer, exchangeAll_crash ((exchange_crash_iff small ready').2
      ⟨rfl, data.take 2, by rw [ended]; exact front, tears.congr (by rw [flash]) fun _ => ?_⟩)]
    · rfl
    · exact firstWord_take (Nat.le_refl 2)

/-- The crashes of a session that can be reached, whatever happens to the part: requests crash with
the first that commits block zero over a torn slot. With a slot that fits a block they are all
answered; otherwise some crash, if the application has room for data that tears the slot. No index,
sum or difference is ever out of its range. -/
theorem crashes_iff_torn (small : g.eraseSize < addressSpace) (reachable : s.Reachable) :
    s.updater.InRange ∧
    (∀ requests crash, s.exchangeAll requests = .error crash ↔ crash = .outOfBounds ∧
      ∃ before r after replies t front, requests = before ++ r :: after ∧
        s.exchangeAll before = .ok (replies, t) ∧ t.updater.front r.demand = some front ∧
        t.updater.flash.Tears front) ∧
    (s.updater.flash.layout.SlotFits g.eraseSize →
      ∀ requests, ∃ replies t, s.exchangeAll requests = .ok (replies, t)) ∧
    ((∃ requests crash, s.exchangeAll requests = .error crash) ↔
      ∃ data, 0 < data.length ∧ data.length ≤ g.eraseSize ∧
        data.length ≤ s.updater.flash.layout.applicationSize.toNat ∧
        s.updater.flash.Tears data) := by
  have ready := reachable.ready small
  -- Each crash is one of a request in a session that requests reach, which is ready again.
  have crashes (requests : List Request) (crash : Crash) :
      s.exchangeAll requests = .error crash ↔ crash = .outOfBounds ∧
        ∃ before r after replies t front, requests = before ++ r :: after ∧
          s.exchangeAll before = .ok (replies, t) ∧ t.updater.front r.demand = some front ∧
          t.updater.flash.Tears front := by
    rw [exchangeAll_eq_error_iff]
    constructor
    · rintro ⟨before, r, after, replies, t, split, run, crashed⟩
      obtain ⟨hx, front, due, tears⟩ :=
        (exchange_crash_iff small (exchangeAll_ready run small ready).1).1 crashed
      exact ⟨hx, before, r, after, replies, t, front, split, run, due, tears⟩
    · rintro ⟨hx, before, r, after, replies, t, front, split, run, due, tears⟩
      exact ⟨before, r, after, replies, t, split, run,
        (exchange_crash_iff small (exchangeAll_ready run small ready).1).2 ⟨hx, front, due, tears⟩⟩
  have torn : (∃ requests crash, s.exchangeAll requests = .error crash) →
      ∃ data, 0 < data.length ∧ data.length ≤ g.eraseSize ∧
        data.length ≤ s.updater.flash.layout.applicationSize.toNat ∧
        s.updater.flash.Tears data := by
    rintro ⟨requests, crash, h⟩
    obtain ⟨-, before, r, after, replies, t, front, -, run, due, tears⟩ := (crashes _ _).1 h
    obtain ⟨ready', layout⟩ := exchangeAll_ready run small ready
    have placed := ready'.placed_front due
    have le_application := placed.le_application
    rw [layout, Nat.zero_add] at le_application
    exact ⟨front, placed.nonempty, placed.le_block, le_application,
      tears.congr layout.symm fun _ => rfl⟩
  refine ⟨ready.inRange small, crashes, fun fits requests => ?_, torn, ?_⟩
  · cases run : s.exchangeAll requests with
    | ok answer => exact ⟨answer.1, answer.2, rfl⟩
    | error crash =>
      obtain ⟨data, -, -, -, tears⟩ := torn ⟨requests, crash, run⟩
      exact absurd tears (Programmer.not_tears_of_fits fits)
  · -- The other way around, such data is put together from at most two requests.
    rintro ⟨data, some_bytes, le_block, le_application, tears⟩
    obtain ⟨requests, h⟩ :=
      exists_crash_of_tears small ready some_bytes le_block le_application tears
    exact ⟨requests, _, h⟩

/-- Blocks of four bytes hold the slot at address six, so that whatever is sent is answered. -/
theorem crashes_iff_torn_fourBytes :
    ∃ s : Session .small, s.Reachable ∧
      ∀ requests, ∃ replies t, s.exchangeAll requests = .ok (replies, t) := by
  have reachable : Reachable (start .interface (.small []) .none .disabled) := .start _ _ _ _
  have fits : Layout.small.SlotFits Geometry.small.eraseSize := by
    intro slot slotted
    cases slotted
    decide
  obtain ⟨-, -, answered, -⟩ := crashes_iff_torn (by decide) reachable
  refine ⟨_, reachable, answered ?_⟩
  rw [start_updater]
  exact fits

/-- Blocks of fifteen bytes tear a slot at address 44: after three bytes that begin with a jump, the
end of the image has no answer. -/
theorem finalize_torn_slot :
    ∃ flash : Programmer ⟨150, 5, 15, by decide, by decide⟩,
      flash.layout = ⟨44, 60, some ⟨44, Relocation.relativeJump⟩⟩ ∧
      (start .interface flash .none .disabled).exchangeAll
        [.sealed .crc8 8 .writeFlash (addressBytes 0 ++ [0x12, 0xc0, 3]),
          .sealed .crc8 8 .finalizeFlash []] = .error .outOfBounds := by
  let flash : Programmer ⟨150, 5, 15, by decide, by decide⟩ :=
    ⟨Chip.erased _, ⟨44, 60, some ⟨44, Relocation.relativeJump⟩⟩, 0,
      Layout.verdict_eq_ok_iff.1 (by decide)⟩
  refine ⟨flash, rfl, map_eq_error (f := fun _ => ()).1 ?_⟩
  decide +kernel

end Session

end FieldUpdate
