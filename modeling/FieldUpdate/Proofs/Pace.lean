import FieldUpdate.Proofs.Stimuli
import FieldUpdate.Proofs.Waiting

namespace FieldUpdate

namespace Chip

variable {g : Geometry} {c d : Chip g}

/-- The parts differ at most in how long operations take. -/
def SameButPace (c d : Chip g) : Prop := ∃ busyCycles busy, d = { c with busyCycles, busy }

theorem SameButPace.perform (h : c.SameButPace d) (op : Operation) :
    SameReport SameButPace (c.perform op) (d.perform op) := by
  obtain ⟨busyCycles, busy, rfl⟩ := h
  by_cases fits : op.fits g
  · cases armed : c.strike.armed with
    | none =>
      have armed' : (strike { c with busyCycles, busy }).armed = none := armed
      rw [perform_of_unarmed fits armed, perform_of_unarmed fits armed']
      exact ⟨rfl, busyCycles, 0, rfl⟩
    | some bits =>
      have armed' : (strike { c with busyCycles, busy }).armed = some bits := armed
      rw [perform_of_fits fits, perform_of_fits fits, begin, begin, armed, armed']
      exact ⟨rfl, busyCycles, 0, rfl⟩
  · simp only [Chip.perform, start, fits, Bool.false_eq_true, if_false]
    exact ⟨rfl, busyCycles, busy, rfl⟩

end Chip

namespace Programmer

variable {g : Geometry} {p q : Programmer g} {start : Nat} {content data : Bytes}

def SameButPace (p q : Programmer g) : Prop :=
  ∃ chip, p.chip.SameButPace chip ∧ q = { p with chip }

namespace SameButPace

theorem layout (h : p.SameButPace q) : q.layout = p.layout := by
  obtain ⟨_, -, rfl⟩ := h
  rfl

theorem stored (h : p.SameButPace q) : q.stored = p.stored := by
  obtain ⟨_, ⟨_, _, rfl⟩, rfl⟩ := h
  rfl

theorem image (h : p.SameButPace q) : q.imageByte = p.imageByte := by
  obtain ⟨_, ⟨_, _, rfl⟩, rfl⟩ := h
  rfl

theorem completedErases (h : p.SameButPace q) : q.completedErases = p.completedErases := by
  obtain ⟨_, -, rfl⟩ := h
  rfl

theorem takeErases (h : p.SameButPace q) : p.takeErases.2.SameButPace q.takeErases.2 := by
  obtain ⟨chip, same, rfl⟩ := h
  exact ⟨chip, same, rfl⟩

theorem holds (h : p.SameButPace q) (address : Nat) (content : Bytes) :
    q.holds address content = p.holds address content := by
  induction content generalizing address with
  | nil => rfl
  | cons b rest ih => rw [Programmer.holds, Programmer.holds, h.stored, ih]

theorem erase (h : p.SameButPace q) (address : Nat) :
    SameReport SameButPace (p.erase address) (q.erase address) := by
  obtain ⟨chip, same, rfl⟩ := id h
  unfold Programmer.erase writable
  simp only
  split
  · exact ⟨rfl, h⟩
  · split
    · exact ⟨rfl, h⟩
    · obtain ⟨report, c, d, performed, performed', parts⟩ :=
        (same.perform (.erase address)).exists_report
      rw [performed, performed']
      cases report with
      | error e => exact ⟨rfl, d, parts, rfl⟩
      | ok done => exact ⟨rfl, d, parts, rfl⟩

theorem programPage (h : p.SameButPace q) (address : Nat) (data : Bytes) :
    SameReport SameButPace (p.programPage address data) (q.programPage address data) := by
  obtain ⟨chip, same, rfl⟩ := id h
  obtain ⟨reports, parts⟩ := same.perform (.program address data)
  unfold Programmer.programPage writable
  simp only
  split
  · exact ⟨rfl, h⟩
  · split
    · exact ⟨rfl, h⟩
    · exact ⟨reports, _, parts, rfl⟩

theorem programPages (h : p.SameButPace q) (address : Nat) (pages : List Bytes) :
    SameReport SameButPace (p.programPages address pages) (q.programPages address pages) := by
  induction pages generalizing p q address with
  | nil => exact ⟨rfl, h⟩
  | cons page rest ih =>
    rw [Programmer.programPages, Programmer.programPages]
    split
    · exact ih h _
    · obtain ⟨report, p', q', written, written', flash⟩ :=
        (h.programPage address page).exists_report
      rw [written, written']
      cases report with
      | error e => exact ⟨rfl, flash⟩
      | ok done => exact ih flash _

theorem refillBlock (h : p.SameButPace q) (start : Nat) (content : Bytes) :
    SameReport SameButPace (p.refillBlock start content) (q.refillBlock start content) := by
  obtain ⟨report, p', q', erased, erased', flash⟩ := (h.erase start).exists_report
  rw [Programmer.refillBlock, Programmer.refillBlock, erased, erased']
  cases report with
  | error e => exact ⟨rfl, flash⟩
  | ok done => exact flash.programPages _ _

theorem updateBlock (h : p.SameButPace q) (start : Nat) (content : Bytes) :
    Alike (SameReport SameButPace) (p.updateBlock start content) (q.updateBlock start content) := by
  unfold Programmer.updateBlock
  rw [h.holds]
  split
  · exact .crashed _
  · apply Alike.after
    intro held
    split
    · exact .answered _ _ ⟨rfl, h⟩
    · obtain ⟨reports, flash⟩ := h.refillBlock start content
      exact .answered _ _ ⟨congrArg (Except.map fun _ => BlockOutcome.written) reports, flash⟩

theorem storeVector (h : p.SameButPace q) (slot : VectorSlot) (word : UInt16) :
    Alike (SameReport SameButPace) (p.storeVector slot word) (q.storeVector slot word) := by
  unfold Programmer.storeVector storedRange
  rw [h.stored]
  apply Alike.after
  intro within
  apply Alike.after
  intro content
  exact h.updateBlock _ _

theorem moveVector (h : p.SameButPace q) (slot : VectorSlot) (block : Bytes) :
    Alike (SameReport SameButPace) (p.moveVector slot block) (q.moveVector slot block) := by
  rcases block with _ | ⟨low, _ | ⟨high, rest⟩⟩
  · exact .crashed _
  · exact .crashed _
  · rw [Programmer.moveVector, Programmer.moveVector]
    cases slot.toSlot (wordOf low high) with
    | none => exact .answered _ _ ⟨rfl, h⟩
    | some word =>
      apply (h.storeVector slot word).bind
      rintro ⟨outcome, p'⟩ ⟨_, q'⟩ - ⟨rfl, flash⟩
      cases outcome with
      | error e => exact .answered _ _ ⟨rfl, flash⟩
      | ok outcome => exact .answered _ _ ⟨by rw [flash.stored], flash⟩

theorem updateKept (h : p.SameButPace q) (start len : Nat) (block : Bytes) :
    Alike (SameReport SameButPace) (p.updateBlock start (p.keepReserved start len block))
      (q.updateBlock start (q.keepReserved start len block)) := by
  have kept : q.keepReserved start len block = p.keepReserved start len block := by
    rw [keepReserved, keepReserved, h.layout, h.stored]
  rw [kept]
  exact h.updateBlock _ _

theorem commit (h : p.SameButPace q) (start : Nat) (data : Bytes) :
    Alike (SameReport SameButPace) (p.commit start data) (q.commit start data) := by
  unfold Programmer.commit
  rw [h.layout]
  simp only
  split
  · split
    · apply (h.moveVector _ _).bind
      rintro ⟨moved, p'⟩ ⟨_, q'⟩ - ⟨rfl, flash⟩
      cases moved with
      | error e => exact .answered _ _ ⟨rfl, flash⟩
      | ok block => exact flash.updateKept _ _ _
    · exact h.updateKept _ _ _
  · exact h.updateKept _ _ _

end SameButPace

end Programmer

namespace Updater

variable {g : Geometry} {u v : Updater g}

def SameButPace (u v : Updater g) : Prop :=
  ∃ flash, u.flash.SameButPace flash ∧ v = { u with flash }

namespace SameButPace

theorem stage (h : u.SameButPace v) (b : UInt8) : Alike SameButPace (u.stage b) (v.stage b) := by
  obtain ⟨flash, same, rfl⟩ := h
  apply Alike.after
  intro cursor
  exact .answered _ _ ⟨flash, same, rfl⟩

theorem commit (h : u.SameButPace v) (start len : Nat) :
    Alike (SameReport SameButPace) (u.commit start len) (v.commit start len) := by
  obtain ⟨flash, same, rfl⟩ := h
  apply Alike.after
  intro data
  apply (same.commit start data).bind
  rintro ⟨outcome, p⟩ ⟨_, q⟩ - ⟨rfl, same⟩
  exact .answered _ _ ⟨rfl, q, same, rfl⟩

theorem feed (h : u.SameButPace v) (data : Bytes) :
    Alike (SameReport SameButPace) (u.feed data) (v.feed data) := by
  induction data generalizing u v with
  | nil => exact .answered _ _ ⟨rfl, h⟩
  | cons b rest ih =>
    rw [Updater.feed, Updater.feed]
    apply (h.stage b).bind
    rintro u₁ v₁ - staged
    have cursor : v₁.cursor = u₁.cursor := by
      obtain ⟨_, -, rfl⟩ := staged
      rfl
    rw [cursor]
    split
    · apply (staged.commit _ _).bind
      rintro ⟨outcome, u₂⟩ ⟨_, v₂⟩ - ⟨rfl, committed⟩
      cases outcome with
      | error e =>
        obtain ⟨flash, same, rfl⟩ := committed
        exact .answered _ _ ⟨rfl, flash, same, rfl⟩
      | ok done => exact ih committed
    · exact ih staged

theorem proceed (h : u.SameButPace v) (address : Nat) (data : Bytes) :
    Alike (SameReport SameButPace) (u.proceed address data) (v.proceed address data) := by
  obtain ⟨flash, same, rfl⟩ := id h
  unfold Updater.proceed
  simp only [same.layout]
  split
  · exact .answered _ _ ⟨rfl, h⟩
  · apply Alike.after
    intro stop
    split
    · exact .answered _ _ ⟨rfl, h⟩
    · apply (h.feed data).bind
      rintro ⟨report, fed⟩ ⟨_, fed'⟩ - ⟨rfl, fed_same⟩
      cases report with
      | error e => exact .answered _ _ ⟨rfl, fed_same⟩
      | ok done =>
        obtain ⟨q, flash_same, rfl⟩ := fed_same
        exact .answered _ _ ⟨rfl, q, flash_same, rfl⟩

theorem extend (h : u.SameButPace v) (address : Nat) (data : Bytes) :
    Alike (SameReport SameButPace) (u.extend address data) (v.extend address data) := by
  rw [extend_eq, extend_eq]
  split
  · obtain ⟨flash, same, rfl⟩ := h
    exact proceed (u := { u with cursor := 0 }) ⟨flash, same, rfl⟩ address data
  · exact h.proceed address data

theorem finish (h : u.SameButPace v) :
    Alike (SameReport SameButPace) u.finish v.finish := by
  obtain ⟨flash, same, rfl⟩ := id h
  unfold Updater.finish
  simp only
  split
  · exact .answered _ _ ⟨rfl, h⟩
  · apply (h.commit _ _).bind
    rintro ⟨report, done⟩ ⟨_, done'⟩ - ⟨rfl, done_same⟩
    obtain ⟨q, flash_same, rfl⟩ := done_same
    cases report with
    | error e => exact .answered _ _ ⟨rfl, q, flash_same, rfl⟩
    | ok committed => exact .answered _ _ ⟨rfl, q, flash_same, rfl⟩

theorem paced_left (h : u.SameButPace v) (cycles : Nat) : (u.paced cycles).SameButPace v := by
  obtain ⟨_, ⟨_, ⟨busyCycles, busy, rfl⟩, rfl⟩, rfl⟩ := h
  exact ⟨_, ⟨_, ⟨busyCycles, busy, rfl⟩, rfl⟩, rfl⟩

end SameButPace

theorem parallel_pace : Parallel (SameButPace (g := g)) where
  cursor := by
    rintro u _ ⟨_, -, rfl⟩
    rfl
  layout := by
    rintro u _ ⟨flash, same, rfl⟩
    exact same.layout
  image := by
    rintro u _ ⟨flash, same, rfl⟩
    exact same.image
  extend {u v address data} _ h := h.extend address data
  finish h := h.finish
  erases := by
    rintro u _ ⟨flash, same, rfl⟩
    exact same.completedErases
  taken := by
    rintro u _ ⟨flash, same, rfl⟩
    exact ⟨_, same.takeErases, rfl⟩
  facing := by
    rintro u _ f ⟨_, ⟨_, ⟨busyCycles, busy, rfl⟩, rfl⟩, rfl⟩
    exact ⟨_, ⟨_, ⟨busyCycles, busy, rfl⟩, rfl⟩, rfl⟩
  paced := by
    rintro u _ cycles ⟨_, ⟨_, ⟨busyCycles, busy, rfl⟩, rfl⟩, rfl⟩
    exact ⟨_, ⟨_, ⟨cycles, busy, rfl⟩, rfl⟩, rfl⟩

end Updater

namespace Stimulus

def isPace : Stimulus → Bool
  | pace _ => true
  | _ => false

/-- All that happens but for changes of pace. -/
def unpaced (stimuli : List Stimulus) : List Stimulus := stimuli.filter (!isPace ·)

end Stimulus

namespace Session

variable {g : Geometry} {s t : Session g}

open Stimulus (unpaced)

def SameButPace (s t : Session g) : Prop :=
  ∃ busyCycles busy,
    t = { s with updater.flash.chip := { s.updater.flash.chip with busyCycles, busy } }

theorem sameButPace_iff : s.SameButPace t ↔ Twins Updater.SameButPace Eq s t := by
  constructor
  · rintro ⟨busyCycles, busy, rfl⟩
    exact ⟨_, _, rfl, ⟨_, ⟨_, ⟨busyCycles, busy, rfl⟩, rfl⟩, rfl⟩, rfl⟩
  · rintro ⟨_, _, rfl, ⟨_, ⟨_, ⟨busyCycles, busy, rfl⟩, rfl⟩, rfl⟩, rfl⟩
    exact ⟨busyCycles, busy, rfl⟩

theorem SameButPace.refl (s : Session g) : s.SameButPace s := ⟨_, _, rfl⟩

theorem SameButPace.join {u : Session g} (hs : s.SameButPace u) (ht : t.SameButPace u) :
    s.SameButPace t := by
  obtain ⟨_, _, rfl⟩ := hs
  obtain ⟨_, _, same⟩ := ht
  let chip := t.updater.flash.chip
  let asT (u : Session g) : Session g := { u with updater.flash.chip :=
    { u.updater.flash.chip with busyCycles := chip.busyCycles, busy := chip.busy } }
  exact ⟨chip.busyCycles, chip.busy, (congrArg asT same).symm⟩

/-- Without its changes of pace, the same sequence of stimuli has the same responses. -/
theorem respondAll_unpaced (h : Twins Updater.SameButPace Eq s t) (stimuli : List Stimulus) :
    Alike (SameReport (Twins Updater.SameButPace Eq)) (s.respondAll stimuli)
      (t.respondAll (unpaced stimuli)) := by
  have ties : Ties Updater.SameButPace (Twins (g := g) Updater.SameButPace Eq) :=
    ties_twins fun _ _ same => by rw [same]
  -- By the stimuli: a change of pace happens on one side alone, all else on both.
  induction stimuli generalizing s t with
  | nil => exact .answered _ _ ⟨rfl, h⟩
  | cons x rest ih =>
    by_cases pace : x.isPace
    · obtain ⟨cycles, rfl⟩ : ∃ cycles, x = .pace cycles := by
        cases x with
        | pace cycles => exact ⟨cycles, rfl⟩
        | _ => cases pace
      have paced : Twins Updater.SameButPace Eq
          { s with updater := s.updater.paced cycles } t := by
        obtain ⟨v, l, rfl, related, logged⟩ := h
        exact ⟨v, l, rfl, related.paced_left cycles, logged⟩
      apply (ih paced).map_left
      rintro ⟨responses, last⟩ ⟨_, last'⟩ ⟨rfl, related⟩
      exact ⟨rfl, related⟩
    · have kept : unpaced (x :: rest) = x :: unpaced rest := List.filter_cons_of_pos (by simp [pace])
      rw [kept]
      apply (h.respond Updater.parallel_pace ties x).bind
      rintro ⟨response, s'⟩ ⟨_, t'⟩ - ⟨rfl, related⟩
      apply (ih related).bind
      rintro ⟨later, last⟩ ⟨_, last'⟩ - ⟨rfl, related'⟩
      exact .answered _ _ ⟨rfl, related'⟩

/-- Waiting comes to an end and leaves nothing to see. Polling a part ends with the poll after all
busy ones, and an operation that is accepted is waited for in just that way. Sessions that differ in
how long their parts take, at the start or from any time on, respond alike and stay equal in all
else: in what flash holds and what happened to it, in the erases counted, in the image and in the
log. And whatever the paces, a fault is reported by the first operation it is in store for that the
part accepts, and by no other. -/
theorem pace_invisible :
    (∀ (c last : Chip g) n report,
      c.Waits n report last ↔ n = c.busy + 1 ∧ c.wait = (report, last)) ∧
    (∀ (c d : Chip g) op, c.start op = (.ok (), d) →
      d.busy = c.busyCycles ∧ c.perform op = d.wait) ∧
    (∀ (s t : Session g) stimuli stimuli', s.SameButPace t → unpaced stimuli = unpaced stimuli' →
      Alike (SameReport SameButPace) (s.respondAll stimuli) (t.respondAll stimuli')) ∧
    (∀ (c : Chip g) ops n bits, (c.reports ops)[n]? = some (.error (.hardware bits)) ↔
      Chip.Accepts g ops n ∧ c.Faces ops n bits) ∧
    ∀ (c : Chip g) ops, (∀ x ∈ ops, x.2.fits g) → c.armed = none →
      (c.schedule.map Fault.after).Nodup → ∀ n bits,
      (c.reports ops)[n]? = some (.error (.hardware bits)) ↔
        n < ops.length ∧ ⟨n, bits⟩ ∈ c.schedule := by
  refine ⟨fun _ _ _ _ => Chip.waits_iff, fun _ _ _ => Chip.perform_of_accepted, ?_,
    fun _ _ _ _ => Chip.reports_eq_hardware_iff,
    fun _ _ fits unarmed apart _ _ => Chip.reports_eq_scheduled_iff fits unarmed apart⟩
  intro s t stimuli stimuli' same alike
  -- Both are compared with the second session, left to what happens but for changes of pace.
  have left := respondAll_unpaced (sameButPace_iff.1 same) stimuli
  have right := respondAll_unpaced (sameButPace_iff.1 (SameButPace.refl t)) stimuli'
  rw [alike] at left
  apply left.join right
  rintro ⟨responses, s'⟩ ⟨_, t'⟩ ⟨_, u⟩ ⟨rfl, hs⟩ ⟨rfl, ht⟩
  exact ⟨rfl, (sameButPace_iff.2 hs).join (sameButPace_iff.2 ht)⟩

/-- A block whose erase meets a fault is sent twice, to a part that is never busy and to one that is
busy for long. The second of three erases meets a fault, at whatever pace each is carried out. -/
theorem pace_invisible_sentTwice :
    ∃ (s t : Session .small) (stimuli stimuli' : List Stimulus) (responses : List Response),
      s.SameButPace t ∧ unpaced stimuli = unpaced stimuli' ∧
      (s.respondAll stimuli).map Prod.fst = .ok responses ∧
      (t.respondAll stimuli').map Prod.fst = .ok responses ∧
      responses.map (· matches .exchanged (some [1, 1, 0x13, _]) _) = [true, false] ∧
      ∃ c d : Chip .small, c.start (.erase 4) = (.ok (), d) ∧ d.busy = c.busyCycles ∧
        c.armed = none ∧ (c.schedule.map Fault.after).Nodup ∧
        ∀ n bits, (c.reports [(3, .erase 4), (0, .erase 4), (5, .erase 4)])[n]? =
          some (.error (.hardware bits)) ↔ n = 1 ∧ bits = 8 := by
  let s : Session .small := start .interface (.small [⟨0, 8⟩]) .none .disabled
  let t : Session .small := { s with updater := s.updater.paced 3 }
  let write := Request.sealed .crc8 1 .writeFlash (addressBytes 0 ++ [0x12, 0xc0, 3, 4])
  let responses : List Response :=
    [.exchanged (some [1, 1, 0x13, 44]) ([1, 1, 0x13, 44, 0xc0, 3, 4, 11] ++ List.replicate 24 0),
      .exchanged (some [0, 0, 215]) ([0, 0, 215, 0x12, 0xc0, 3, 4, 11] ++ List.replicate 24 0)]
  obtain ⟨-, accepted, alike, -, scheduled⟩ := pace_invisible (g := .small)
  have same : s.SameButPace t := ⟨3, s.updater.flash.chip.busy, rfl⟩
  have unpaced_eq : unpaced [.request write, .request write] =
      unpaced [.request write, .pace 255, .request write] := rfl
  have answered : (s.respondAll [.request write, .request write]).map Prod.fst = .ok responses := by
    decide +kernel
  have answered' := (alike s t _ _ same unpaced_eq).map_eq (f := Prod.fst) (k := Prod.fst)
    fun a b related => related.1
  refine ⟨s, t, _, _, responses, same, unpaced_eq, answered, answered'.symm.trans answered, rfl, ?_⟩
  let c := (Programmer.small [⟨1, 8⟩]).chip
  have started : c.start (.erase 4) = (.ok (), (c.start (.erase 4)).2) := rfl
  refine ⟨c, _, started, (accepted c _ _ started).1, rfl, by decide, fun n bits => ?_⟩
  rw [scheduled c _ (by decide) rfl (by decide)]
  constructor
  · rintro ⟨-, due⟩
    cases List.mem_singleton.1 due
    exact ⟨rfl, rfl⟩
  · rintro ⟨rfl, rfl⟩
    exact ⟨by decide, List.mem_singleton.2 rfl⟩

end Session

end FieldUpdate
