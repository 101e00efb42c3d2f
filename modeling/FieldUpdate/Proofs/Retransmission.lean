import FieldUpdate.Proofs.Resend
import FieldUpdate.Proofs.Settled

namespace FieldUpdate

def overwrite (eraseSize : Nat) (staged : Bytes) (cursor : Nat) : Bytes → Bytes
  | [] => staged
  | b :: rest => overwrite eraseSize (staged.set (cursor % eraseSize) b) (cursor + 1) rest

theorem getElem?_overwrite (n cursor : Nat) (data : Bytes) (i : Nat) :
    (∃ b, ∀ staged : Bytes, i < staged.length →
        (overwrite n staged cursor data)[i]? = some b) ∨
      ∀ staged : Bytes, (overwrite n staged cursor data)[i]? = staged[i]? := by
  induction data generalizing cursor with
  | nil => exact .inr fun _ => rfl
  | cons b rest ih =>
    rcases ih (cursor + 1) with ⟨last, later⟩ | kept
    · exact .inl ⟨last, fun staged hi => later _ (by rw [List.length_set]; exact hi)⟩
    · by_cases here : cursor % n = i
      · refine .inl ⟨b, fun staged hi => ?_⟩
        rw [overwrite, kept, here, List.getElem?_set_self hi]
      · refine .inr fun staged => ?_
        rw [overwrite, kept, List.getElem?_set_ne here]

theorem overwrite_length (n : Nat) (staged : Bytes) (cursor : Nat) (data : Bytes) :
    (overwrite n staged cursor data).length = staged.length := by
  induction data generalizing staged cursor with
  | nil => rfl
  | cons b rest ih => rw [overwrite, ih, List.length_set]

theorem overwrite_again (n : Nat) (staged : Bytes) (cursor : Nat) (data : Bytes) :
    overwrite n (overwrite n staged cursor data) cursor data = overwrite n staged cursor data := by
  have length := overwrite_length n staged cursor data
  apply List.ext_getElem?
  intro i
  by_cases hi : i < staged.length
  · rcases getElem?_overwrite n cursor data i with ⟨b, new⟩ | kept
    · rw [new staged hi, new _ (by rw [length]; exact hi)]
    · rw [kept]
  · rw [List.getElem?_eq_none (by rw [overwrite_length, length]; omega),
      List.getElem?_eq_none (by rw [length]; omega)]

namespace Updater

variable {g : Geometry} {u u' w : Updater g} {b : UInt8} {rest data : Bytes}
  {report : Except FlashError Unit}

/-- What one byte and those behind it may come to, where the application has room for them all. -/
inductive Took (u : Updater g) (b : UInt8) (rest : Bytes) :
    Except FlashError Unit → Updater g → Prop
  | staged (short : (u.cursor + 1) % g.eraseSize ≠ 0) (ready : (u.staging b).Ready)
      (room : u.cursor + 1 + rest.length ≤ u.flash.layout.applicationSize.toNat)
      (report : Except FlashError Unit) (u' : Updater g)
      (fed : (u.staging b).feed rest = .ok (report, u')) : Took u b rest report u'
  | failed (full : (u.cursor + 1) % g.eraseSize = 0) (e : FlashError) (flash : Programmer g)
      (layout : flash.layout = u.flash.layout) :
      Took u b rest (.error e)
        { (u.staging b).committing (u.cursor + 1 - g.eraseSize) (u.staging b).staged (.error e)
            flash with cursor := u.cursor + 1 - g.eraseSize }
  | committed (full : (u.cursor + 1) % g.eraseSize = 0) (outcome : BlockOutcome)
      (flash : Programmer g)
      (placed : u.flash.Placed (u.cursor + 1 - g.eraseSize) (u.staging b).staged)
      (commit : u.flash.commit (u.cursor + 1 - g.eraseSize) (u.staging b).staged =
        .ok (.ok outcome, flash))
      (ready : ((u.staging b).committing (u.cursor + 1 - g.eraseSize) (u.staging b).staged
        (.ok outcome) flash).Ready)
      (room : u.cursor + 1 + rest.length ≤ flash.layout.applicationSize.toNat)
      (report : Except FlashError Unit) (u' : Updater g)
      (fed : ((u.staging b).committing (u.cursor + 1 - g.eraseSize) (u.staging b).staged
        (.ok outcome) flash).feed rest = .ok (report, u')) : Took u b rest report u'

theorem took_of_feed (ready : u.Ready)
    (room : u.cursor + (b :: rest).length ≤ u.flash.layout.applicationSize.toNat)
    (h : u.feed (b :: rest) = .ok (report, u')) : Took u b rest report u' := by
  rw [List.length_cons] at room
  have staged := (u.staging_staged_length b).trans ready.staged
  have space : u.cursor < u.flash.layout.applicationSize.toNat := by omega
  by_cases full : (u.cursor + 1) % g.eraseSize = 0
  · have placed := u.placed_full b ready space full
    cases commit : u.flash.commit (u.cursor + 1 - g.eraseSize) (u.staging b).staged with
    | error crash => cases (feed_of_crash ready space full commit).symm.trans h
    | ok answer =>
      obtain ⟨outcome, flash⟩ := answer
      have layout := Programmer.layout_of_commit commit
      cases outcome with
      | error e =>
        cases (feed_of_failed ready space full commit).symm.trans h
        exact .failed full e flash layout
      | ok outcome =>
        rw [feed_of_committed ready space full commit] at h
        refine .committed full outcome flash placed commit ⟨staged, ?_⟩ ?_ _ _ h
        · change u.cursor + 1 ≤ flash.layout.applicationSize.toNat
          rw [layout]
          omega
        · rw [layout]
          omega
  · rw [feed_cons_open space full] at h
    exact .staged full ⟨staged, space⟩ (by omega) _ _ h

theorem Ready.feed (ready : u.Ready)
    (room : u.cursor + data.length ≤ u.flash.layout.applicationSize.toNat)
    (h : u.feed data = .ok (report, u')) : u'.Ready := by
  induction data generalizing u with
  | nil =>
    cases h
    exact ready
  | cons b rest ih =>
    cases took_of_feed ready room h with
    | staged short ready' room' _ _ fed => exact ih ready' room' fed
    | committed full outcome flash placed commit ready' room' _ _ fed =>
      exact ih ready' room' fed
    | failed full e flash layout =>
      have pos := u.flash.sound.eraseSize_pos
      rw [List.length_cons] at room
      refine ⟨(u.staging_staged_length b).trans ready.staged, ?_⟩
      change u.cursor + 1 - g.eraseSize ≤ flash.layout.applicationSize.toNat
      rw [layout]
      omega

theorem Ready.extend (ready : u.Ready) {address : Nat} {report : Except StreamError Progress}
    (short : ∀ e, report = .error (.flash e) → data.length < 0x100000000)
    (h : u.extend address data = .ok (report, u')) : u'.Ready := by
  rw [extend_eq] at h
  have begun : (if address = 0 then { u with cursor := 0 } else u).Ready := by
    split
    · exact ⟨ready.staged, Nat.zero_le _⟩
    · exact ready
  generalize (if address = 0 then { u with cursor := 0 } else u) = v at h begun
  cases proceeded h with
  | outOfSequence elsewhere => exact begun
  | outOfRange next past => exact begun
  | failed next room e _ fed =>
    rw [Nat.mod_eq_of_lt (short e rfl)] at room
    exact begun.feed room fed
  | taken next room _ fed => exact begun.feed room fed

theorem Ready.finish (ready : u.Ready) {report : Except FlashError Progress}
    (h : u.finish = .ok (report, u')) : u'.Ready := by
  rcases finish_cases ready h with ⟨-, -, rfl⟩ | ⟨-, outcome, flash, commit, rfl, -⟩
  · exact ready
  · refine ⟨ready.staged, ?_⟩
    change u.cursor ≤ flash.layout.applicationSize.toNat
    rw [Programmer.layout_of_commit commit]
    exact ready.cursor

theorem Ready.moved (ready : u.Ready) (h : u.Moved u') : u'.Ready := by
  cases h with
  | same => exact ready
  | extended address data short report _ answer =>
    exact ready.extend (fun _ _ => Nat.lt_of_le_of_lt (Nat.le_add_left _ _) short) answer
  | failed e _ answer => exact ready.finish answer
  | finished progress u₁ answer => exact ⟨(ready.finish answer).staged, (ready.finish answer).cursor⟩

theorem commit_staged {start len : Nat} (h : u.commit start len = .ok (report, u')) :
    u'.staged = u.staged := by
  obtain ⟨data, -, h⟩ := bind_eq_ok.1 h
  obtain ⟨⟨outcome, flash⟩, -, h⟩ := bind_eq_ok.1 h
  cases h
  rfl

theorem feed_staged (h : u.feed data = .ok (.ok (), u')) :
    u'.staged = overwrite g.eraseSize u.staged u.cursor data := by
  induction data generalizing u with
  | nil =>
    cases h
    rfl
  | cons b rest ih =>
    obtain ⟨staged, stage, h⟩ := bind_eq_ok.1 h
    have cursor := (stage_fed stage).cursor
    have overwritten : staged.staged = u.staged.set (u.cursor % g.eraseSize) b := by
      obtain ⟨_, -, stage⟩ := bind_eq_ok.1 stage
      cases stage
      rfl
    rw [overwrite, ← overwritten, ← List.length_singleton (a := b), ← cursor]
    split at h
    · obtain ⟨⟨_ | _, u₁⟩, commit, h⟩ := bind_eq_ok.1 h
      · cases h
      · have waits : u₁.cursor = staged.cursor := (commit_fed commit).cursor
        rw [← commit_staged commit, ← waits]
        exact ih h
    · exact ih h

theorem settled_of_feed {start : Nat} {block : Bytes} (settled : u.flash.Settled start block)
    (aligned : start % g.eraseSize = 0) (before : start + g.eraseSize ≤ u.cursor)
    (ready : u.Ready) (room : u.cursor + data.length ≤ u.flash.layout.applicationSize.toNat)
    (h : u.feed data = .ok (.ok (), u')) : u'.flash.Settled start block := by
  induction data generalizing u with
  | nil =>
    cases h
    exact settled
  | cons b rest ih =>
    cases took_of_feed ready room h with
    | staged short ready' room' _ _ fed =>
      exact ih (u := u.staging b) settled (Nat.le_succ_of_le before) ready' room' fed
    | committed full outcome flash placed commit ready' room' _ _ fed =>
      refine ih ?_ (Nat.le_succ_of_le before) ready' room' fed
      exact settled.later aligned (by omega) placed commit

/-- Bytes that were all taken are taken again where they were, and flash is left alone: each block
that they complete is settled by then. -/
theorem feed_again (ready : u.Ready)
    (room : u.cursor + data.length ≤ u.flash.layout.applicationSize.toNat)
    (h : u.feed data = .ok (.ok (), u')) (flash : w.flash = u'.flash)
    (cursor : w.cursor = u.cursor) (length : w.staged.length = g.eraseSize)
    (same : w.staged.take (u.cursor % g.eraseSize) = u.staged.take (u.cursor % g.eraseSize)) :
    ∃ w', w.feed data = .ok (.ok (), w') ∧ w'.flash = w.flash := by
  -- On the bytes, while both runs have the same bytes staged of the block under way.
  induction data generalizing u w with
  | nil => exact ⟨w, rfl, rfl⟩
  | cons b rest ih =>
    have pos := u.flash.sound.eraseSize_pos
    have below := Nat.mod_lt u.cursor pos
    have layout : w.flash.layout = u.flash.layout := by rw [flash, (fed_of_feed h).layout]
    have readyw : w.Ready := by
      refine ⟨length, ?_⟩
      rw [layout, cursor]
      exact ready.cursor
    have space : w.cursor < w.flash.layout.applicationSize.toNat := by
      rw [List.length_cons] at room
      rw [layout, cursor]
      omega
    have next : (w.staging b).cursor = (u.staging b).cursor := congrArg (· + 1) cursor
    have staged : (w.staging b).staged.take (u.cursor % g.eraseSize + 1) =
        (u.staging b).staged.take (u.cursor % g.eraseSize + 1) := by
      rw [staging, staging, cursor]
      rw [Stream.take_set_succ b (by omega),
        Stream.take_set_succ b (by rw [ready.staged]; omega), same]
    cases took_of_feed ready room h with
    | staged short ready' room' _ _ fed =>
      rw [feed_cons_open space (by rw [cursor]; exact short)]
      refine ih (w := w.staging b) ready' room' fed flash next
        ((w.staging_staged_length b).trans length) ?_
      change (w.staging b).staged.take ((u.cursor + 1) % g.eraseSize) =
        (u.staging b).staged.take ((u.cursor + 1) % g.eraseSize)
      rw [mod_succ_of_ne pos short]
      exact staged
    | committed full outcome flash' placed commit ready' room' _ _ fed =>
      have lengthw := (w.staging_staged_length b).trans length
      have block : (w.staging b).staged = (u.staging b).staged := by
        rw [mod_succ_of_eq pos full] at staged
        rwa [List.take_of_length_le (Nat.le_of_eq lengthw),
          List.take_of_length_le (Nat.le_of_eq
            ((u.staging_staged_length b).trans ready.staged))] at staged
      have hle := Nat.le_of_dvd (Nat.succ_pos _) (Nat.dvd_of_mod_eq_zero full)
      have settled : w.flash.Settled (u.cursor + 1 - g.eraseSize) (u.staging b).staged := by
        rw [flash]
        exact settled_of_feed (Programmer.settled_of_commit placed commit) placed.aligned
          (Nat.le_of_eq (Nat.sub_add_cancel hle)) ready' room' fed
      have placedw : w.flash.Placed (u.cursor + 1 - g.eraseSize) (u.staging b).staged :=
        ⟨placed.aligned, placed.nonempty, placed.le_block, by
          rw [layout]
          exact placed.le_application⟩
      have commitw := settled.commit_eq placedw
      rw [← block, ← cursor] at commitw
      rw [feed_of_committed readyw space (by rw [cursor]; exact full) commitw]
      refine ih ready' room' fed flash next lengthw ?_
      have whole : ((u.staging b).committing (u.cursor + 1 - g.eraseSize) (u.staging b).staged
        (.ok outcome) flash').cursor % g.eraseSize = 0 := full
      rw [whole, List.take_zero, List.take_zero]

structure Same (u u' : Updater g) : Prop where
  flash : u'.flash = u.flash
  cursor : u'.cursor = u.cursor
  staged : u'.staged = u.staged

/-- An accepted write that begins an image can be made again and changes nothing. -/
theorem extend_again (ready : u.Ready) {progress : Progress}
    (h : u.extend 0 data = .ok (.ok progress, u')) :
    ∃ progress' w, u'.extend 0 data = .ok (.ok progress', w) ∧ u'.Same w := by
  have h : ({ u with cursor := 0 } : Updater g).proceed 0 data = .ok (.ok progress, u') := h
  cases proceeded h with
  | taken next room _ fed =>
    have begun : Ready { u with cursor := 0 } := ⟨ready.staged, Nat.zero_le _⟩
    have first := fed_of_feed fed
    have staged := feed_staged fed
    obtain ⟨w, again, flash⟩ := feed_again (w := { u' with cursor := 0 }) begun room fed rfl rfl
      (begun.feed room fed).staged (by rw [Nat.zero_mod, List.take_zero, List.take_zero])
    have fits : data.length ≤ u'.flash.layout.applicationSize.toNat := by
      rw [first.layout]
      omega
    refine ⟨_, w, extend_zero_of_feed fits again, flash, ?_, ?_⟩
    · rw [(fed_of_feed again).cursor, first.cursor]
    · rw [feed_staged again, staged]
      exact overwrite_again _ _ _ _

theorem extend_again_later {address : Nat} (later : address ≠ 0) (some_data : data ≠ [])
    {progress : Progress} (h : u.extend address data = .ok (.ok progress, u')) :
    u'.extend address data = .ok (.error .outOfSequence, u') := by
  apply extend_elsewhere later
  rw [extend_eq, if_neg later] at h
  cases proceeded h with
  | taken next room _ fed =>
    have := List.length_pos_iff.2 some_data
    rw [(fed_of_feed fed).cursor]
    omega

theorem extend_again_empty {address : Nat} (later : address ≠ 0) {progress : Progress}
    (h : u.extend address [] = .ok (.ok progress, u')) :
    u'.extend address [] = .ok (.ok progress, u') := by
  rw [extend_eq, if_neg later] at h
  cases proceeded h with
  | taken next room _ fed =>
    cases fed
    rw [extend_eq, if_neg later]
    exact h

theorem finish_of_settled (ready : u.Ready) (tail : u.cursor % g.eraseSize ≠ 0)
    (settled : u.flash.Settled u.completed (u.staged.take (u.cursor % g.eraseSize))) :
    ∃ progress w, u.finish = .ok (.ok progress, w) ∧ u.Same w := by
  have commit := settled.commit_eq (u.placed_tail ready tail)
  rw [finish_tail ready tail]
  simp only [commit]
  exact ⟨_, _, rfl, rfl, rfl, rfl⟩

theorem finish_again (ready : u.Ready) {progress : Progress}
    (h : u.finish = .ok (.ok progress, u')) :
    ∃ progress' w, ({ u' with flash := u'.flash.takeErases.2 } : Updater g).finish =
        .ok (.ok progress', w) ∧
      Same { u' with flash := u'.flash.takeErases.2 } w := by
  have ready' := ready.finish h
  rcases finish_cases ready h with ⟨whole, -, rfl⟩ | ⟨tail, outcome, flash, commit, rfl, hr⟩
  · exact ⟨_, _, finish_whole whole, rfl, rfl, rfl⟩
  · cases outcome with
    | error e => cases hr
    | ok outcome =>
      have settled := Programmer.settled_of_commit (u.placed_tail ready tail) commit
      exact finish_of_settled ⟨ready'.staged, ready'.cursor⟩ tail settled.takeErases

end Updater

/-- The same frame once more, for the same address and with no less room for the reply. -/
structure Request.Repeats (r' r : Request) : Prop where
  framing : r'.framing = r.framing
  address : r'.address = r.address
  frame : r'.frame = r.frame
  room : r.room ≤ r'.room

theorem Request.Repeats.brings {r r' : Request} {command : Command} {payload : Bytes}
    {capacity : Nat} (h : r'.Repeats r) (brings : r.Brings command payload capacity) :
    r'.Brings command payload capacity where
  addressed := by rw [h.address]; exact brings.addressed
  frame := by rw [h.frame, h.framing, h.address]; exact brings.frame
  fits := brings.fits
  room := by rw [h.framing]; exact Nat.le_trans brings.room h.room

namespace Session

variable {g : Geometry} {s : Session g} {r r' : Request} {command : Command} {payload said : Bytes}
  {e : Exchanged (Session g)}

theorem Reachable.ready_of_any_size (h : Reachable s) : s.updater.Ready := by
  induction h with
  | start board flash children logger =>
    rw [start_updater]
    exact Updater.idle_ready flash
  | exchange s r e before answer ih => exact ih.moved (exchange_moved answer)
  | arrive s framing buffer arrival arrived before answer ih => exact ih.moved (arrive_moved answer)
  | disturb s chip before ih => exact ⟨ih.staged, ih.cursor⟩

theorem write_again (ready : s.updater.Ready) (brings : r.Brings .writeFlash payload 0)
    (answer : s.exchange r = .ok e) (ok : e.Answers r .ok said) (again : r'.Repeats r) :
    ∃ high low data, payload = high :: low :: data ∧ ∃ e', e.state.exchange r' = .ok e' ∧
      e.state.updater.Same e'.state.updater ∧
      e'.Answers r' (if bigEndian high low ≠ 0 ∧ data ≠ [] then .invalidArguments else .ok) [] := by
  cases wrote_of_exchange brings answer with
  | malformed _ short same answer' => cases (ok.inj answer').1
  | extended high low data report extended answer' =>
    refine ⟨high, low, data, rfl, ?_⟩
    have brings' : r'.Brings .writeFlash (addressBytes (bigEndian high low) ++ data) 0 := by
      rw [addressBytes_bigEndian]
      exact again.brings brings
    have below := bigEndian_lt high low
    obtain ⟨progress, rfl⟩ : ∃ progress, report = .ok progress := by
      rcases report with (_ | _ | error) | progress
      · cases (ok.inj answer').1
      · cases (ok.inj answer').1
      · cases (ok.inj answer').1.trans (flashAnswer_status error _)
      · exact ⟨progress, rfl⟩
    -- At zero the image begins again; further on the cursor has gone past the data.
    by_cases zero : bigEndian high low = 0
    · rw [zero] at extended
      obtain ⟨progress', w, extend, same⟩ := Updater.extend_again ready extended
      obtain ⟨e', exchanged, hu, said'⟩ := exchange_write below brings' (by rw [zero]; exact extend)
      rw [if_neg fun h => h.1 zero]
      exact ⟨e', exchanged, by rw [hu]; exact same, said'⟩
    · by_cases empty : data = []
      · subst empty
        have extend := Updater.extend_again_empty zero extended
        obtain ⟨e', exchanged, hu, said'⟩ := exchange_write below brings' extend
        rw [if_neg fun h => h.2 rfl]
        exact ⟨e', exchanged, by rw [hu]; exact ⟨rfl, rfl, rfl⟩, said'⟩
      · have extend := Updater.extend_again_later zero empty extended
        obtain ⟨e', exchanged, hu, said'⟩ := exchange_write below brings' extend
        rw [if_pos ⟨zero, empty⟩]
        exact ⟨e', exchanged, by rw [hu]; exact ⟨rfl, rfl, rfl⟩, said'⟩

theorem finalize_again (ready : s.updater.Ready) (brings : r.Brings .finalizeFlash payload 0)
    (answer : s.exchange r = .ok e) (ok : e.Answers r .ok said) (again : r'.Repeats r) :
    ∃ e', e.state.exchange r' = .ok e' ∧ e.state.updater.Same e'.state.updater ∧
      e'.Answers r' .ok [0] := by
  cases ended_of_exchange brings answer with
  | malformed _ nonempty same answer' => cases (ok.inj answer').1
  | failed error finish answer' => cases (ok.inj answer').1
  | untold progress u finish state full answer' => cases (ok.inj answer').1
  | told progress u finish state room answer' =>
    obtain ⟨progress', w, again', same⟩ := Updater.finish_again ready finish
    rw [← state] at again' same
    have accepted := (again.brings brings).accepted.room
    have brings' : r'.Brings .finalizeFlash [] 1 := by
      refine ⟨(again.brings brings).addressed, (again.brings brings).frame, brings.fits, ?_⟩
      have := again.room
      unfold Request.capacity at room
      rw [again.framing] at accepted ⊢
      omega
    obtain ⟨e', exchanged, hu, said'⟩ := exchange_finalize brings' again'
    have none : w.flash.completedErases = 0 := by
      rw [same.flash, state]
      rfl
    rw [none] at said'
    refine ⟨e', exchanged, ?_, said'⟩
    rw [hu]
    refine ⟨?_, same.cursor, same.staged⟩
    -- No erase was counted since the count was taken, so to take it again is no change.
    change w.flash.takeErases.2 = e.state.updater.flash
    rw [same.flash, state]
    rfl

/-- A frame with data for flash or with the end of an image, answered with success and delivered once
more at once: flash with all that happened to it, its count of erases, the cursor and the staged
bytes are as they were. The second answer refuses data for an address other than zero, which does
not continue the image any more, and otherwise is success, with no erase since the first. -/
theorem retransmission_harmless (reachable : s.Reachable)
    (flashes : command = .writeFlash ∨ command = .finalizeFlash)
    (brings : r.Brings command payload 0) (answer : s.exchange r = .ok e)
    (ok : e.Answers r .ok said) (again : r'.Repeats r) :
    ∃ e', e.state.exchange r' = .ok e' ∧
      e'.state.updater.flash = e.state.updater.flash ∧
      e'.state.updater.cursor = e.state.updater.cursor ∧
      e'.state.updater.staged = e.state.updater.staged ∧
      (command = .finalizeFlash → e'.Answers r' .ok [0]) ∧
      (command = .writeFlash → ∃ high low data, payload = high :: low :: data ∧
        e'.Answers r'
          (if bigEndian high low ≠ 0 ∧ data ≠ [] then .invalidArguments else .ok) []) := by
  have ready := reachable.ready_of_any_size
  rcases flashes with rfl | rfl
  · obtain ⟨high, low, data, split, e', exchanged, same, said'⟩ :=
      write_again ready brings answer ok again
    exact ⟨e', exchanged, same.flash, same.cursor, same.staged, Command.noConfusion,
      fun _ => ⟨high, low, data, split, said'⟩⟩
  · obtain ⟨e', exchanged, same, said'⟩ := finalize_again ready brings answer ok again
    exact ⟨e', exchanged, same.flash, same.cursor, same.staged, fun _ => said', Command.noConfusion⟩

/-- Six bytes for address zero, twice: the first time the slot's block and block zero are erased, the
second time nothing is. -/
theorem retransmission_harmless_sixBytes :
    ∃ (s : Session .small) (r : Request) (e e' : Exchanged (Session .small)), s.Reachable ∧
      r.Brings .writeFlash (addressBytes 0 ++ sixBytes) 0 ∧ s.exchange r = .ok e ∧
      e.Answers r .ok [] ∧ e.state.updater.flash.chip.erases = 2 ∧
      e.state.exchange r = .ok e' ∧ e'.Answers r .ok [] ∧
      e'.state.updater.flash.chip.erases = 2 := by
  obtain ⟨s, reachable, hs⟩ := exists_reachable (.small [])
  have brings : (Request.sealed .crc8 1 .writeFlash (addressBytes 0 ++ sixBytes)).Brings .writeFlash
      (addressBytes 0 ++ sixBytes) 0 := Request.sealed_brings (by decide) (by decide) (by decide)
  obtain ⟨⟨report, u⟩, extend, good⟩ := exists_ok_of_any
    (x := (Updater.idle (.small [])).extend 0 sixBytes)
    (p := fun a => a.1.isOk && a.2.flash.chip.erases == 2) (by decide +kernel)
  rw [Bool.and_eq_true, beq_iff_eq] at good
  obtain ⟨taken, erases⟩ := good
  rcases report with _ | progress
  · cases taken
  rw [← hs] at extend
  obtain ⟨e, answer, hu, ok⟩ := exchange_write (by decide) brings extend
  obtain ⟨e', answer', flash, -, -, -, again⟩ := retransmission_harmless reachable (.inl rfl) brings
    answer ok ⟨rfl, rfl, rfl, Nat.le_refl _⟩
  obtain ⟨high, low, data, split, said⟩ := again rfl
  cases split
  rw [if_neg fun later => later.1 (bigEndian_addressBytes (show 0 < addressSpace by decide))] at said
  refine ⟨s, _, e, e', reachable, brings, answer, ok, by rw [hu]; exact erases, answer', said, ?_⟩
  rw [flash, hu]
  exact erases

end Session

end FieldUpdate
