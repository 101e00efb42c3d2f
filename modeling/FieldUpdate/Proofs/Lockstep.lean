import FieldUpdate.Proofs.Host

namespace FieldUpdate

/-- Both crash in the same way, or both have an answer and the answers are related. -/
inductive Alike {α β : Type} (R : α → β → Prop) : Checked α → Checked β → Prop
  | crashed (crash : Crash) : Alike R (.error crash) (.error crash)
  | answered (a : α) (b : β) (related : R a b) : Alike R (.ok a) (.ok b)

namespace Alike

variable {α β γ δ : Type} {R R' : α → β → Prop} {S : γ → δ → Prop} {x : Checked α} {y : Checked β}

theorem refl {R : α → α → Prop} (h : ∀ a, R a a) (x : Checked α) : Alike R x x := by
  cases x with
  | error crash => exact .crashed crash
  | ok a => exact .answered a a (h a)

theorem mono (h : Alike R x y) (weaker : ∀ a b, x = .ok a → R a b → R' a b) : Alike R' x y := by
  cases h with
  | crashed crash => exact .crashed crash
  | answered a b related => exact .answered a b (weaker a b rfl related)

theorem bind {f : α → Checked γ} {k : β → Checked δ} (h : Alike R x y)
    (next : ∀ a b, x = .ok a → R a b → Alike S (f a) (k b)) : Alike S (x >>= f) (y >>= k) := by
  cases h with
  | crashed crash => exact .crashed crash
  | answered a b related => exact next a b rfl related

theorem after {f : α → Checked γ} {k : α → Checked δ} (x : Checked α)
    (next : ∀ a, Alike S (f a) (k a)) : Alike S (x >>= f) (x >>= k) :=
  bind (refl (fun _ => rfl) x) (R := Eq) fun a _ _ same => same ▸ next a

theorem map_eq {f : α → γ} {k : β → γ} (h : Alike R x y) (same : ∀ a b, R a b → f a = k b) :
    x.map f = y.map k := by
  cases h with
  | crashed crash => rfl
  | answered a b related => exact congrArg Except.ok (same a b related)

theorem map_left {S : γ → β → Prop} {f : α → γ} (h : Alike R x y)
    (next : ∀ a b, R a b → S (f a) b) : Alike S (x >>= fun a => .ok (f a)) y := by
  cases h with
  | crashed crash => exact .crashed crash
  | answered a b related => exact .answered _ _ (next a b related)

theorem join {T : α → γ → Prop} {U : β → γ → Prop} {z : Checked γ} (hx : Alike T x z)
    (hy : Alike U y z) (next : ∀ a b c, T a c → U b c → R a b) : Alike R x y := by
  cases hx with
  | crashed crash =>
    cases hy with
    | crashed _ => exact .crashed crash
  | answered a c ha =>
    cases hy with
    | answered b _ hb => exact .answered a b (next a b c ha hb)

end Alike

def SameReport {ρ α β : Type} (R : α → β → Prop) (a : ρ × α) (b : ρ × β) : Prop :=
  a.1 = b.1 ∧ R a.2 b.2

theorem SameReport.exists_report {ρ α β : Type} {R : α → β → Prop} {a : ρ × α} {b : ρ × β}
    (h : SameReport R a b) : ∃ report x y, a = (report, x) ∧ b = (report, y) ∧ R x y :=
  ⟨a.1, a.2, b.2, rfl, Prod.ext h.1.symm rfl, h.2⟩

structure Exchanged.Same {σ : Type} (S : σ → σ → Prop) (e e' : Exchanged σ) : Prop where
  replyLength : e.replyLength = e'.replyLength
  buffer : e.buffer = e'.buffer
  state : S e.state e'.state

theorem Exchanged.Same.reply {σ : Type} {S : σ → σ → Prop} {e e' : Exchanged σ}
    (h : Exchanged.Same S e e') : e.reply = e'.reply := by
  rw [Exchanged.reply, Exchanged.reply, h.replyLength, h.buffer]

namespace Responder

variable {σ : Type} {S : σ → σ → Prop} {p : Responder σ} {s t : σ} {r : Request}

theorem conclude_alike (framing : Framing) (address : UInt8) (buffer : Bytes) (status : Status)
    (len : Nat) (h : S s t) :
    Alike (Exchanged.Same S) (conclude framing address buffer status len s)
      (conclude framing address buffer status len t) := by
  apply Alike.after
  intro headed
  apply Alike.after
  rintro ⟨n, reply⟩
  exact .answered _ _ ⟨rfl, rfl, h⟩

theorem runInto_alike {cmd : UInt8} {payload : Bytes} (capacity : Nat)
    (run : ∀ output,
      Alike (SameReport S) (p.run s cmd payload output) (p.run t cmd payload output)) :
    Alike (Exchanged.Same S) (p.runInto s r capacity cmd payload)
      (p.runInto t r capacity cmd payload) := by
  apply Alike.after
  intro output
  apply (run output).bind
  rintro ⟨answer, s'⟩ ⟨_, t'⟩ - ⟨rfl, related⟩
  apply Alike.after
  intro buffer
  simp only
  split
  · exact .answered _ _ ⟨rfl, rfl, related⟩
  · split
    · exact .crashed _
    · exact conclude_alike _ _ _ _ _ related

theorem exchange_alike (related : S s t)
    (broadcast : ∀ cmd, S (p.broadcast s cmd) (p.broadcast t cmd))
    (run : ∀ cmd payload output, r.framing.opened r.address r.frame = .command cmd payload →
      Alike (SameReport S) (p.run s cmd payload output) (p.run t cmd payload output)) :
    Alike (Exchanged.Same S) (p.exchange s r) (p.exchange t r) := by
  unfold exchange
  split
  · split
    · exact .answered _ _ ⟨rfl, rfl, related⟩
    · exact .answered _ _ ⟨rfl, rfl, broadcast _⟩
  · split
    · exact .answered _ _ ⟨rfl, rfl, related⟩
    · cases opened : r.framing.opened r.address r.frame with
      | dropped => exact .answered _ _ ⟨rfl, rfl, related⟩
      | refused status => exact conclude_alike _ _ _ _ _ related
      | command cmd payload => exact runInto_alike _ fun output => run cmd payload output opened

end Responder

namespace Programmer

variable {g : Geometry}

/-- What holds of the flash below two sessions that stay in step. -/
structure Lockstep (P : Programmer g → Programmer g → Prop) : Prop where
  layout : ∀ {p q}, P p q → q.layout = p.layout
  image : ∀ {p q}, P p q → q.imageByte = p.imageByte
  erases : ∀ {p q}, P p q → q.completedErases = p.completedErases
  taken : ∀ {p q}, P p q → P p.takeErases.2 q.takeErases.2
  commit : ∀ {p q start data}, P p q → p.Placed start data →
    (p.layout.slot.isSome → start ≠ 0 → 2 ≤ g.eraseSize) →
    Alike (SameReport P) (p.commit start data) (q.commit start data)

theorem two_le_of_commit {p p' : Programmer g} {data : Bytes}
    {report : Except FlashError BlockOutcome} (placed : p.Placed 0 data)
    (small : g.eraseSize < addressSpace) (slotted : p.layout.slot.isSome)
    (commit : p.commit 0 data = .ok (report, p')) : 2 ≤ g.eraseSize := by
  obtain ⟨slot, slotted⟩ := Option.isSome_iff_exists.1 slotted
  apply Nat.le_of_not_lt
  intro narrow
  have torn := commit_torn placed slotted small (by omega) fun two => by omega
  cases torn.symm.trans commit

end Programmer

/-- An image that has its vector moved has got beyond its first byte only if blocks are longer. -/
def Updater.Wide {g : Geometry} (u : Updater g) : Prop :=
  u.flash.layout.slot.isSome → u.cursor ≠ 0 → 2 ≤ g.eraseSize

theorem Stream.Step.wide {g : Geometry} {s s' : Stream g} {report : Except FlashError Unit}
    (step : Step s report s') (small : g.eraseSize < addressSpace) (ready : s.updater.Ready)
    (wide : s.updater.Wide) : s'.updater.Wide := by
  have pos := s.updater.flash.sound.eraseSize_pos
  have hl := step.layout_eq small ready
  unfold Updater.Wide at wide ⊢
  rw [hl]
  intro slotted
  have wide := wide slotted
  cases step with
  | stage u accepted b room short =>
    intro _
    -- A byte that does not complete its block is not the whole of it.
    have one : g.eraseSize ≠ 1 := fun one => short (by rw [one, Nat.mod_one])
    omega
  | complete u accepted b outcome flash room full commit =>
    intro _
    by_cases first : u.cursor + 1 - g.eraseSize = 0
    · have placed := u.placed_full b ready room full
      rw [first] at placed commit
      exact Programmer.two_le_of_commit placed small slotted commit
    · exact wide (by simp only; omega)
  | rewind u accepted b e flash room full commit =>
    intro later
    exact wide (by simp only at later ⊢; omega)
  | flush u accepted outcome flash tail commit => exact wide
  | tally u accepted => exact wide

namespace Updater

variable {g : Geometry} {P : Programmer g → Programmer g → Prop} {u v u' v' : Updater g}
  {data : Bytes}

/-- What holds of the updaters of two sessions that stay in step. -/
structure Lockstep (R : Updater g → Updater g → Prop) : Prop where
  cursor : ∀ {u v}, R u v → v.cursor = u.cursor
  layout : ∀ {u v}, R u v → v.flash.layout = u.flash.layout
  image : ∀ {u v}, R u v → v.flash.imageByte = u.flash.imageByte
  extend : ∀ {u v} {address : Nat} {data : Bytes}, address + data.length < 0x100000000 → R u v →
    Alike (SameReport R) (u.extend address data) (v.extend address data)
  finish : ∀ {u v}, R u v → Alike (SameReport R) u.finish v.finish
  erases : ∀ {u v}, R u v → v.flash.completedErases = u.flash.completedErases
  taken : ∀ {u v}, R u v →
    R { u with flash := u.flash.takeErases.2 } { v with flash := v.flash.takeErases.2 }

theorem lockstep_eq : Lockstep (Eq (α := Updater g)) where
  cursor same := by rw [same]
  layout same := by rw [same]
  image same := by rw [same]
  extend _ same := by
    rw [same]
    exact Alike.refl (fun _ => ⟨rfl, rfl⟩) _
  finish same := by
    rw [same]
    exact Alike.refl (fun _ => ⟨rfl, rfl⟩) _
  erases same := by rw [same]
  taken same := by rw [same]

structure Beside (P : Programmer g → Programmer g → Prop) (u v : Updater g) : Prop where
  same : v = { u with flash := v.flash }
  flash : P u.flash v.flash
  ready : u.Ready
  wide : u.Wide

namespace Beside

theorem exists_flash (h : Beside P u v) :
    ∃ q, v = { u with flash := q } ∧ P u.flash q := ⟨v.flash, h.same, h.flash⟩

theorem step (h : Beside P u v) {report : Except FlashError Unit} {accepted : Bytes}
    (step : Stream.Step ⟨u, List.replicate u.cursor 0⟩ report ⟨u', accepted⟩)
    (small : g.eraseSize < addressSpace) (same : v' = { u' with flash := v'.flash })
    (flash : P u'.flash v'.flash) : Beside P u' v' :=
  ⟨same, flash, (step.coherent small h.ready.coherent).ready, step.wide small h.ready h.wide⟩

theorem begun (h : Beside P u v) (address : Nat) :
    Beside P (if address = 0 then { u with cursor := 0 } else u)
      (if address = 0 then { v with cursor := 0 } else v) := by
  split
  · exact ⟨by rw [h.same], h.flash, ⟨h.ready.staged, Nat.zero_le _⟩, fun _ zero => absurd rfl zero⟩
  · exact h

theorem feed (h : Beside P u v) (lockstep : Programmer.Lockstep P)
    (small : g.eraseSize < addressSpace)
    (room : u.cursor + data.length ≤ u.flash.layout.applicationSize.toNat) :
    Alike (SameReport (Beside P)) (u.feed data) (v.feed data) := by
  -- By the bytes; the two differ in their flash alone, so they fill up blocks together.
  induction data generalizing u v with
  | nil => exact .answered _ _ ⟨rfl, h⟩
  | cons b rest ih =>
    rw [List.length_cons] at room
    have room' : u.cursor < u.flash.layout.applicationSize.toNat := by omega
    obtain ⟨q, rfl, related⟩ := h.exists_flash
    have hl := lockstep.layout related
    have readyq : Ready { u with flash := q } := ⟨h.ready.staged, by rw [hl]; exact h.ready.cursor⟩
    have roomq : u.cursor < q.layout.applicationSize.toNat := by rw [hl]; exact room'
    by_cases full : (u.cursor + 1) % g.eraseSize = 0
    · have pos := u.flash.sound.eraseSize_pos
      rw [feed_cons_full h.ready room' full, feed_cons_full readyq roomq full]
      apply Alike.bind (lockstep.commit related (u.placed_full b h.ready room' full)
        fun slotted later => h.wide slotted (by omega))
      rintro ⟨outcome, p'⟩ ⟨_, q'⟩ commit ⟨rfl, related'⟩
      cases outcome with
      | error e =>
        have step := Stream.Step.rewind u (List.replicate u.cursor 0) b e p' room' full commit
        exact .answered _ _ ⟨rfl, h.step step small rfl related'⟩
      | ok outcome =>
        have step := Stream.Step.complete u (List.replicate u.cursor 0) b outcome p' room' full commit
        have hp : p'.layout = u.flash.layout := step.layout_eq small h.ready
        refine ih (h.step step small rfl related') ?_
        change u.cursor + 1 + rest.length ≤ p'.layout.applicationSize.toNat
        rw [hp]
        omega
    · have step := Stream.Step.stage u (List.replicate u.cursor 0) b room' full
      rw [feed_cons_open room' full, feed_cons_open (u := { u with flash := q }) roomq full]
      refine ih (h.step step small rfl related) ?_
      change u.cursor + 1 + rest.length ≤ u.flash.layout.applicationSize.toNat
      omega

theorem proceed (h : Beside P u v) (lockstep : Programmer.Lockstep P)
    (small : g.eraseSize < addressSpace) {address : Nat} {data : Bytes}
    (short : address + data.length < 0x100000000) :
    Alike (SameReport (Beside P)) (u.proceed address data) (v.proceed address data) := by
  have hc : v.cursor = u.cursor := by rw [h.same]
  have hl := lockstep.layout h.flash
  rw [proceed_of_short u short, proceed_of_short v short, hc, hl]
  split
  · exact .answered _ _ ⟨rfl, h⟩
  · split
    · exact .answered _ _ ⟨rfl, h⟩
    · have room : u.cursor + data.length ≤ u.flash.layout.applicationSize.toNat := by omega
      apply (h.feed lockstep small room).bind
      rintro ⟨report, fed⟩ ⟨_, fed'⟩ - ⟨rfl, related⟩
      cases report with
      | error e => exact .answered _ _ ⟨rfl, related⟩
      | ok done =>
        have same : fed' = { fed with flash := fed'.flash } := related.same
        have hp : fed'.progressSince v = fed.progressSince u := by
          rw [same, h.same]
          rfl
        exact .answered _ _ ⟨congrArg Except.ok hp.symm, related⟩

theorem finish (h : Beside P u v) (lockstep : Programmer.Lockstep P)
    (small : g.eraseSize < addressSpace) : Alike (SameReport (Beside P)) u.finish v.finish := by
  obtain ⟨q, rfl, related⟩ := h.exists_flash
  have readyq : Ready { u with flash := q } :=
    ⟨h.ready.staged, by rw [lockstep.layout related]; exact h.ready.cursor⟩
  by_cases whole : u.cursor % g.eraseSize = 0
  · rw [finish_whole whole, finish_whole (u := { u with flash := q }) whole]
    exact .answered _ _ ⟨rfl, h⟩
  · rw [finish_tail h.ready whole, finish_tail readyq whole]
    apply Alike.bind (lockstep.commit related (u.placed_tail h.ready whole)
      fun slotted later => h.wide slotted (by omega))
    rintro ⟨outcome, p'⟩ ⟨_, q'⟩ commit ⟨rfl, related'⟩
    have step := Stream.Step.flush u (List.replicate u.cursor 0) outcome p' whole commit
    cases outcome with
    | error e => exact .answered _ _ ⟨rfl, h.step step small rfl related'⟩
    | ok outcome => exact .answered _ _ ⟨rfl, h.step step small rfl related'⟩

end Beside

/-- Updaters stay in step over flash that does. -/
theorem lockstep_beside (lockstep : Programmer.Lockstep P) (small : g.eraseSize < addressSpace) :
    Lockstep (Beside P) where
  cursor h := by rw [h.same]
  layout h := lockstep.layout h.flash
  image h := lockstep.image h.flash
  extend {u v address data} short h := by
    rw [extend_eq, extend_eq]
    exact (h.begun address).proceed lockstep small short
  finish h := h.finish lockstep small
  erases h := lockstep.erases h.flash
  taken {u v} h := by
    have step := Stream.Step.tally u (List.replicate u.cursor 0)
    exact h.step step small (by rw [h.same]) (lockstep.taken h.flash)

end Updater

theorem Updater.Moved.wide {g : Geometry} {u u' : Updater g} (h : u.Moved u')
    (small : g.eraseSize < addressSpace) (ready : u.Ready) (wide : u.Wide) : u'.Wide := by
  obtain ⟨accepted', path⟩ := h.path small ready.coherent
  have both := path.keeps (P := fun s => s.Coherent ∧ s.updater.Wide)
    (fun hs => ⟨hs.1.restarted, fun _ zero => absurd rfl zero⟩)
    (fun hs step => ⟨step.coherent small hs.1, step.wide small hs.1.ready hs.2⟩)
    ⟨ready.coherent, wide⟩
  exact both.2

namespace Session

variable {g : Geometry} {R : Updater g → Updater g → Prop} {S : Session g → Session g → Prop}
  {s t : Session g} {r : Request}

theorem Reachable.wide (h : Reachable s) (small : g.eraseSize < addressSpace) :
    s.updater.Wide := by
  induction h with
  | start board flash children logger =>
    rw [start_updater]
    exact fun _ zero => absurd rfl zero
  | exchange s r e before answer ih =>
    exact (exchange_moved answer).wide small (before.ready small) ih
  | arrive s framing buffer arrival arrived before answer ih =>
    exact (arrive_moved answer).wide small (before.ready small) ih
  | disturb s chip before ih => exact ih

/-- A relation between sessions that depends on their updaters through `R`, and that the same line
in both logs keeps. -/
structure Ties (R : Updater g → Updater g → Prop) (S : Session g → Session g → Prop) :
    Prop where
  updater : ∀ {s t}, S s t → R s.updater t.updater
  put : ∀ {s t u v}, S s t → R u v → S { s with updater := u } { t with updater := v }
  note : ∀ {s t} m, S s t → S (s.note m) (t.note m)

namespace Ties

theorem noteProgress (ties : Ties R S) (h : S s t) (progress : Progress) :
    S (s.noteProgress progress) (t.noteProgress progress) := by
  unfold Session.noteProgress
  split <;> split
  · exact ties.note _ (ties.note _ h)
  · exact ties.note _ h
  · exact ties.note _ h
  · exact h

theorem noteCorrupt (ties : Ties R S) (h : S s t) (r : Request) :
    S (s.noteCorrupt r) (t.noteCorrupt r) := by
  unfold Session.noteCorrupt
  split
  · exact ties.note _ h
  · exact h

theorem noteHandled (ties : Ties R S) (h : S s t) (r : Request) (n : Option Nat)
    (buffer : Bytes) : S (s.noteHandled r n buffer) (t.noteHandled r n buffer) := by
  unfold Session.noteHandled
  split
  · exact ties.note _ h
  · exact h

theorem reportFlashError (ties : Ties R S) (h : S s t) (e : FlashError) (capacity : Nat) :
    SameReport S (s.reportFlashError e capacity) (t.reportFlashError e capacity) :=
  ⟨rfl, ties.note _ h⟩

theorem writeFlash (ties : Ties R S) (lockstep : Updater.Lockstep R) (h : S s t)
    {input : Bytes} (fits : input.length ≤ maxFrame) (capacity : Nat) :
    Alike (SameReport S) (s.writeFlash input capacity) (t.writeFlash input capacity) := by
  rcases input with _ | ⟨high, _ | ⟨low, data⟩⟩
  · exact .answered _ _ ⟨rfl, h⟩
  · exact .answered _ _ ⟨rfl, h⟩
  · apply (lockstep.extend (write_short fits) (ties.updater h)).bind
    rintro ⟨report, u⟩ ⟨_, v⟩ - ⟨rfl, related⟩
    have h' := ties.put h related
    have hc : v.cursor = u.cursor := lockstep.cursor related
    rcases report with (_ | _ | error) | progress
    · exact .answered _ _ ⟨rfl, by simpa only [hc] using ties.note _ h'⟩
    · exact .answered _ _ ⟨rfl, ties.note _ h'⟩
    · exact .answered _ _ (ties.reportFlashError h' error capacity)
    · exact .answered _ _ ⟨rfl, ties.noteProgress h' progress⟩

theorem finalizeFlash (ties : Ties R S) (lockstep : Updater.Lockstep R) (h : S s t)
    (input : Bytes) (capacity : Nat) :
    Alike (SameReport S) (s.finalizeFlash input capacity) (t.finalizeFlash input capacity) := by
  cases input with
  | cons b rest => exact .answered _ _ ⟨rfl, h⟩
  | nil =>
    apply (lockstep.finish (ties.updater h)).bind
    rintro ⟨report, u⟩ ⟨_, v⟩ - ⟨rfl, related⟩
    cases report with
    | error e => exact .answered _ _ (ties.reportFlashError (ties.put h related) e capacity)
    | ok progress =>
      have he : v.flash.completedErases = u.flash.completedErases := lockstep.erases related
      have h' := ties.noteProgress (ties.put h (lockstep.taken related)) progress
      simp only [Programmer.takeErases, he]
      exact .answered _ _ ⟨rfl, ties.note _ h'⟩

theorem exchange (ties : Ties R S) (h : S s t)
    (broadcast : ∀ {s t} cmd, S s t → S (s.broadcast cmd) (t.broadcast cmd))
    (run : ∀ {s t} cmd payload output, S s t →
      r.framing.opened r.address r.frame = .command cmd payload →
      Alike (SameReport S) (s.run cmd payload output) (t.run cmd payload output)) :
    Alike (Exchanged.Same S) (s.exchange r) (t.exchange r) := by
  have h' := ties.noteCorrupt h r
  apply Alike.bind (Responder.exchange_alike h' (fun cmd => broadcast cmd h')
    fun cmd payload output opened => run cmd payload output h' opened)
  intro e e' _ same
  refine .answered _ _ ⟨same.replyLength, same.buffer, ?_⟩
  simp only [← same.replyLength, ← same.buffer]
  exact ties.noteHandled same.state r _ _

end Ties

theorem exchangeAll_alike
    (exchange : ∀ {s t} r, S s t → Alike (Exchanged.Same S) (s.exchange r) (t.exchange r))
    (h : S s t) (requests : List Request) :
    Alike (SameReport S) (s.exchangeAll requests) (t.exchangeAll requests) := by
  induction requests generalizing s t with
  | nil => exact .answered _ _ ⟨rfl, h⟩
  | cons r rest ih =>
    apply (exchange r h).bind
    intro e e' _ same
    apply (ih same.state).bind
    rintro ⟨replies, last⟩ ⟨_, last'⟩ - ⟨rfl, related⟩
    exact .answered _ _ ⟨congrArg (· :: replies) same.reply, related⟩

/-- Sessions that differ in updater and log alone, and in these as far as `R` and `L` let them. -/
def Twins (R : Updater g → Updater g → Prop) (L : Logger → Logger → Prop) (s t : Session g) :
    Prop :=
  ∃ updater logger, t = { s with updater, logger } ∧ R s.updater updater ∧ L s.logger logger

section Twins

variable {L : Logger → Logger → Prop}

theorem ties_twins
    (line : ∀ {l l' : Logger} level pieces, L l l' →
      L (l.line level pieces).2 (l'.line level pieces).2) :
    Ties R (Twins R L) where
  updater := by
    rintro s _ ⟨v, l, rfl, related, logged⟩
    exact related
  put := by
    rintro s _ u v ⟨_, l, rfl, -, logged⟩ related
    exact ⟨v, l, rfl, related, logged⟩
  note := by
    rintro s _ m ⟨v, l, rfl, related, logged⟩
    exact ⟨v, _, rfl, related, line _ _ logged⟩

theorem Twins.setAddress (h : Twins R L s t) (ties : Ties R (Twins R L)) (input : Bytes) :
    SameReport (Twins R L) (s.setAddress input) (t.setAddress input) := by
  obtain ⟨v, l, rfl, related, logged⟩ := h
  unfold Session.setAddress
  split
  · simp only
    split
    · exact ⟨rfl, v, l, rfl, related, logged⟩
    · split
      · exact ⟨rfl, v, l, rfl, related, logged⟩
      · exact ⟨rfl, ties.note _ ⟨v, l, rfl, related, logged⟩⟩
  · exact ⟨rfl, v, l, rfl, related, logged⟩

theorem Twins.startApplication (h : Twins R L s t) (input : Bytes) :
    SameReport (Twins R L) (s.startApplication input) (t.startApplication input) := by
  obtain ⟨v, l, rfl, related, logged⟩ := h
  unfold Session.startApplication
  split
  · exact ⟨rfl, v, l, rfl, related, logged⟩
  · exact ⟨rfl, v, l, rfl, related, logged⟩

theorem Twins.selectChild (h : Twins R L s t) (ties : Ties R (Twins R L)) (input : Bytes) :
    SameReport (Twins R L) (s.selectChild input) (t.selectChild input) := by
  obtain ⟨v, l, rfl, related, logged⟩ := h
  have same : Twins R L s { s with updater := v, logger := l } := ⟨v, l, rfl, related, logged⟩
  unfold Session.selectChild
  simp only
  split
  · exact ⟨rfl, same⟩
  · split
    · split
      · exact ⟨rfl, same⟩
      · split
        · exact ⟨rfl, same⟩
        · split
          · exact ⟨rfl, v, l, rfl, related, logged⟩
          · exact ⟨rfl, v, l, rfl, related, logged⟩
          · exact ⟨rfl, ties.note _ ⟨v, l, rfl, related, logged⟩⟩
    · exact ⟨rfl, same⟩

theorem Twins.broadcast (h : Twins R L s t) (ties : Ties R (Twins R L)) (cmd : UInt8) :
    Twins R L (s.broadcast cmd) (t.broadcast cmd) := by
  unfold Session.broadcast
  split
  · obtain ⟨v, l, same, related, logged⟩ := ties.note .resetCall h
    exact ⟨v, l, by rw [same], related, logged⟩
  · obtain ⟨v, l, same, related, logged⟩ := ties.note .resetAddressCall h
    exact ⟨v, l, by simp only [same], related, logged⟩
  · exact ties.note _ h

theorem Twins.readFlash (h : Twins R L s t) (lockstep : Updater.Lockstep R) (input : Bytes)
    (capacity : Nat) : s.readFlash input capacity = t.readFlash input capacity := by
  obtain ⟨v, l, rfl, related, -⟩ := h
  have image : ∀ address n, v.flash.imageRange address n = s.updater.flash.imageRange address n := by
    intro address n
    rw [Programmer.imageRange, lockstep.image related]
    rfl
  unfold Session.readFlash
  simp only [image]

theorem Twins.run (h : Twins R L s t) (lockstep : Updater.Lockstep R)
    (ties : Ties R (Twins R L)) (cmd : UInt8) {payload : Bytes} (fits : payload.length ≤ maxFrame)
    (output : Bytes) :
    Alike (SameReport (Twins R L)) (s.run cmd payload output) (t.run cmd payload output) := by
  rw [Session.run, Session.run]
  cases Command.ofByte? cmd with
  | none => exact .answered _ _ ⟨rfl, ties.note _ h⟩
  | some command =>
    have kept {answer answer' : Answer} (same : answer = answer') :
        Alike (SameReport (Twins R L)) (.ok (answer, s)) (.ok (answer', t)) :=
      .answered _ _ ⟨same, h⟩
    obtain ⟨v, l, rfl, related, -⟩ := id h
    cases command with
    | setAddress => exact .answered _ _ (h.setAddress ties payload)
    | startApplication => exact .answered _ _ (h.startApplication payload)
    | setChildSelect => exact .answered _ _ (h.selectChild ties payload)
    | writeFlash => exact ties.writeFlash lockstep h fits output.length
    | finalizeFlash => exact ties.finalizeFlash lockstep h payload output.length
    | readFlash => exact kept (h.readFlash lockstep payload output.length)
    | getHardwareInfo =>
      have layout := lockstep.layout related
      refine kept ?_
      simp only [hardwareInfo, layout]
    | _ => exact kept rfl

theorem Twins.exchange (h : Twins R L s t) (lockstep : Updater.Lockstep R)
    (ties : Ties R (Twins R L)) (r : Request) :
    Alike (Exchanged.Same (Twins R L)) (s.exchange r) (t.exchange r) :=
  ties.exchange h (fun cmd h => h.broadcast ties cmd)
    fun cmd _ output h opened => h.run lockstep ties cmd (Framing.payload_length_le opened) output

/-- Twins answer every sequence of requests with the same replies and stay twins. -/
theorem Twins.exchangeAll (h : Twins R L s t) (lockstep : Updater.Lockstep R)
    (ties : Ties R (Twins R L)) (requests : List Request) :
    Alike (SameReport (Twins R L)) (s.exchangeAll requests) (t.exchangeAll requests) :=
  exchangeAll_alike (fun r h => h.exchange lockstep ties r) h requests

end Twins

end Session

end FieldUpdate
