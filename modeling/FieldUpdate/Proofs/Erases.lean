import FieldUpdate.Proofs.Refusals
import FieldUpdate.Proofs.Updates

namespace FieldUpdate

def Event.erased : Event → Bool
  | done op => op.isErase
  | refused _ => false
  | faulted _ _ => false
  | completed => false

namespace Chip

variable {g : Geometry} {c c' : Chip g} {op : Operation} {report : Except FlashError Unit}

def erasesDone (c : Chip g) : Nat := c.events.countP Event.erased

theorem erasesDone_of_program (h : Performed c op report c') (program : op.isErase = false) :
    c'.erasesDone = c.erasesDone := by
  unfold erasesDone
  cases h with
  | done _ fits memory events quiet => rw [events]; simp [Event.erased, program]
  | faulted bits _ fits memory events loud => rw [events]; simp [Event.erased]
  | refused _ unfit memory events quiet => rw [events]; simp [Event.erased]

theorem erasesDone_of_erase (h : Performed c op report c') (erase : op.isErase = true) :
    (report = .ok () ∧ c'.erasesDone = c.erasesDone + 1) ∨
      ((∃ e, report = .error e) ∧ c'.erasesDone = c.erasesDone) := by
  unfold erasesDone
  cases h with
  | done _ fits memory events quiet =>
    left
    rw [events]
    simp [Event.erased, erase]
  | faulted bits _ fits memory events loud =>
    right
    rw [events]
    simp [Event.erased]
  | refused _ unfit memory events quiet =>
    right
    rw [events]
    simp [Event.erased]

end Chip

namespace Programmer

variable {g : Geometry} {p p' : Programmer g} {base : Nat}

/-- The count is that of the erases done since there were `base` of them, 255 at most. -/
structure Tallied (p : Programmer g) (base : Nat) : Prop where
  base_le : base ≤ p.chip.erasesDone
  count : p.completedErases = min 255 (p.chip.erasesDone - base)

theorem Tallied.of_eq (h : p.Tallied base) (done : p'.chip.erasesDone = p.chip.erasesDone)
    (count : p'.completedErases = p.completedErases) : p'.Tallied base :=
  ⟨by rw [done]; exact h.base_le, by rw [done, count, h.count]⟩

theorem tallied_takeErases (p : Programmer g) : p.takeErases.2.Tallied p.chip.erasesDone :=
  ⟨Nat.le_refl _, by rw [show p.takeErases.2.chip = p.chip from rfl, Nat.sub_self]; rfl⟩

theorem Tallied.erase (h : p.Tallied base) (address : Nat) : (p.erase address).2.Tallied base := by
  unfold Programmer.erase
  split
  · exact h
  · split
    · exact h
    · rcases p.chip.perform_spec (.erase address) with ⟨report, chip, he, performed⟩
      rw [he]
      rcases Chip.erasesDone_of_erase performed rfl with ⟨rfl, done⟩ | ⟨⟨e, rfl⟩, done⟩
      · have := h.base_le
        refine ⟨show base ≤ chip.erasesDone by omega, ?_⟩
        change min 255 (p.completedErases + 1) = min 255 (chip.erasesDone - base)
        rw [h.count]
        omega
      · exact h.of_eq done rfl

theorem Tallied.programPage (h : p.Tallied base) (address : Nat) (data : Bytes) :
    (p.programPage address data).2.Tallied base := by
  unfold Programmer.programPage
  split
  · exact h
  · split
    · exact h
    · rcases p.chip.perform_spec (.program address data) with ⟨report, chip, he, performed⟩
      rw [he]
      exact h.of_eq (Chip.erasesDone_of_program performed rfl) rfl

theorem Tallied.programPages (h : p.Tallied base) (address : Nat) (pages : List Bytes) :
    (p.programPages address pages).2.Tallied base := by
  induction pages generalizing p address with
  | nil => exact h
  | cons page rest ih =>
    rw [Programmer.programPages]
    split
    · exact ih h _
    · have hp := h.programPage address page
      generalize p.programPage address page = result at hp ⊢
      rcases result with ⟨_ | _, p₁⟩
      · exact hp
      · exact ih hp _

theorem Tallied.refillBlock (h : p.Tallied base) (start : Nat) (content : Bytes) :
    (p.refillBlock start content).2.Tallied base := by
  have hp := h.erase start
  unfold Programmer.refillBlock
  generalize p.erase start = result at hp ⊢
  rcases result with ⟨_ | _, p₁⟩
  · exact hp
  · exact hp.programPages _ _

theorem tallied_kept (base : Nat) : KeptByUpdates fun p : Programmer g => p.Tallied base := by
  intro p p' start content report hp h
  unfold updateBlock at h
  split at h
  · cases h
  · rcases bind_eq_ok.1 h with ⟨same, -, h⟩
    split at h
    · cases h
      exact hp
    · cases h
      exact hp.refillBlock start content

theorem tallied_of_attach {chip : Chip g} {layout : Layout}
    (h : attach chip layout = .ok (.ok p)) : p.Tallied p.chip.erasesDone := by
  have count : p.completedErases = 0 := by
    unfold attach at h
    split at h
    · cases h
    · cases h
    · cases h
      rfl
  exact ⟨Nat.le_refl _, by rw [count, Nat.sub_self]; rfl⟩

end Programmer

theorem Updater.tallied_of_meet {g : Geometry} {u u' : Updater g} {demand : Demand} {base : Nat}
    (h : u.meet demand = .ok u') (other : demand ≠ .finish) (tallied : u.flash.Tallied base) :
    u'.flash.Tallied base := by
  cases demand with
  | nothing =>
    cases h
    exact tallied
  | write address data =>
    rcases bind_eq_ok.1 h with ⟨⟨report, u₁⟩, extended, h⟩
    cases h
    exact kept_by_extend (Programmer.tallied_kept base) tallied extended
  | finish => exact absurd rfl other

namespace Session

variable {g : Geometry} {flash : Programmer g} {s : Session g} {r : Request}
  {e : Exchanged (Session g)} {told taken : Nat} {input payload : Bytes}

def erasesDone (s : Session g) : Nat := s.updater.flash.chip.erasesDone

/-- The sessions that requests reach over a part, whatever is done to it in between but to its
history. Each comes with the number of erases that were done when their count was last told, in a
reply that says that the image was ended, and when it was last taken, be it for a reply that had no
room for it. -/
inductive Counting (flash : Programmer g) : Session g → Nat → Nat → Prop
  | start (board : Board) (children : Children) (logger : Logger) :
      Counting flash (start board flash children logger) flash.chip.erasesDone flash.chip.erasesDone
  | told (s : Session g) (told taken : Nat) (before : Counting flash s told taken) (r : Request)
      (input : Bytes) (brings : r.Brings .finalizeFlash input 0) (e : Exchanged (Session g))
      (exchanged : s.exchange r = .ok e) (payload : Bytes) (answer : e.Answers r .ok payload) :
      Counting flash e.state e.state.erasesDone e.state.erasesDone
  | lost (s : Session g) (told taken : Nat) (before : Counting flash s told taken) (r : Request)
      (input : Bytes) (brings : r.Brings .finalizeFlash input 0) (e : Exchanged (Session g))
      (exchanged : s.exchange r = .ok e) (payload : Bytes)
      (answer : e.Answers r .invalidTransfer payload) :
      Counting flash e.state told e.state.erasesDone
  | other (s : Session g) (told taken : Nat) (before : Counting flash s told taken) (r : Request)
      (e : Exchanged (Session g)) (exchanged : s.exchange r = .ok e)
      (neither : ∀ input, r.Brings .finalizeFlash input 0 →
        ∀ payload, ¬e.Answers r .ok payload ∧ ¬e.Answers r .invalidTransfer payload) :
      Counting flash e.state told taken
  | disturb (s : Session g) (told taken : Nat) (before : Counting flash s told taken)
      (chip : Chip g) (events : chip.events = s.updater.flash.chip.events) :
      Counting flash { s with updater.flash.chip := chip } told taken

theorem neither_of_write (brings : r.Brings .writeFlash payload 0) (input : Bytes)
    (finalize : r.Brings .finalizeFlash input 0) (said : Bytes) :
    ¬e.Answers r .ok said ∧ ¬e.Answers r .invalidTransfer said :=
  nomatch finalize.body.symm.trans brings.body

theorem tallied_of_taken {u : Updater g}
    (state : e.state.updater = { u with flash := u.flash.takeErases.2 }) :
    e.state.erasesDone = u.flash.chip.erasesDone ∧
      e.state.updater.flash.Tallied e.state.erasesDone := by
  have done : e.state.erasesDone = u.flash.chip.erasesDone := by
    rw [erasesDone, state]
    rfl
  refine ⟨done, ?_⟩
  rw [done, state]
  exact u.flash.tallied_takeErases

theorem Counting.tallied (h : Counting flash s told taken)
    (fresh : flash.Tallied flash.chip.erasesDone) :
    told ≤ taken ∧ s.updater.flash.Tallied taken := by
  -- Only an end of the image takes the count, so only there does the base move.
  induction h with
  | start board children logger =>
    rw [start_updater]
    exact ⟨Nat.le_refl _, fresh⟩
  | told s told taken before r input brings e exchanged payload answer ih =>
    rcases (ended_of_exchange brings exchanged).of_ok answer with ⟨progress, u, -, state, -⟩
    exact ⟨Nat.le_refl _, (tallied_of_taken state).2⟩
  | lost s told taken before r input brings e exchanged payload answer ih =>
    cases ended_of_exchange brings exchanged with
    | malformed _ nonempty same answer' => cases (answer.inj answer').1
    | failed error finish answer' => cases (answer.inj answer').1
    | told progress u finish state room answer' => cases (answer.inj answer').1
    | untold progress u finish state full answer' =>
      rcases ih with ⟨le, tallied⟩
      rcases tallied_of_taken state with ⟨done, tallied'⟩
      have later := Updater.kept_by_finish (Programmer.tallied_kept taken) tallied finish
      refine ⟨?_, tallied'⟩
      rw [done]
      exact Nat.le_trans le later.base_le
  | other s told taken before r e exchanged neither ih =>
    rcases ih with ⟨le, tallied⟩
    refine ⟨le, ?_⟩
    by_cases ends : r.demand = .finish
    · have brings := Request.demand_eq_finish_iff.1 ends
      cases ended_of_exchange brings exchanged with
      | malformed _ nonempty same answer => exact absurd rfl nonempty
      | failed error finish answer =>
        exact Updater.kept_by_finish (Programmer.tallied_kept taken) tallied finish
      | untold progress u finish state full answer => exact absurd answer (neither [] brings []).2
      | told progress u finish state room answer => exact absurd answer (neither [] brings _).1
    · exact Updater.tallied_of_meet (meet_of_exchange exchanged) ends tallied
  | disturb s told taken before chip events ih =>
    rcases ih with ⟨le, tallied⟩
    refine ⟨le, tallied.of_eq ?_ rfl⟩
    rw [Chip.erasesDone, Chip.erasesDone, events]

/-- The host is told of the erases since their count was last taken. That is the number since it was
last told, up to 255, unless erases were taken for a reply without room for the count, and fewer than
255 followed. -/
theorem told_erases {chip : Chip g} {layout : Layout}
    (attached : Programmer.attach chip layout = .ok (.ok flash))
    (counting : Counting flash s told taken) (brings : r.Brings .finalizeFlash input 0)
    (exchanged : s.exchange r = .ok e) (answer : e.Answers r .ok payload) :
    ∃ count : UInt8, payload = [count] ∧ told ≤ taken ∧ taken ≤ e.state.erasesDone ∧
      count.toNat = min 255 (e.state.erasesDone - taken) ∧
      (count.toNat = min 255 (e.state.erasesDone - told) ↔
        taken = told ∨ 255 ≤ e.state.erasesDone - taken) := by
  rcases counting.tallied (Programmer.tallied_of_attach attached) with ⟨le, tallied⟩
  rcases (ended_of_exchange brings exchanged).of_ok answer with ⟨progress, u, finish, state, rfl⟩
  rw [(tallied_of_taken state).1]
  have later := Updater.kept_by_finish (Programmer.tallied_kept taken) tallied finish
  have base_le := later.base_le
  have hc : u.flash.completedErases.toUInt8.toNat =
      min 255 (u.flash.chip.erasesDone - taken) := by
    rw [Nat.toUInt8_eq, UInt8.toNat_ofNat', later.count]
    omega
  refine ⟨_, rfl, le, base_le, hc, ?_⟩
  rw [hc]
  omega

/-- After a write of four bytes, which takes two erases, the host is told of two. -/
theorem told_erases_fourBytes :
    ∃ (chip : Chip .small) (layout : Layout) (flash : Programmer .small) (s : Session .small)
      (told taken : Nat) (r : Request) (e : Exchanged (Session .small)),
      Programmer.attach chip layout = .ok (.ok flash) ∧ Counting flash s told taken ∧
      s.exchange r = .ok e ∧ e.Answers r .ok [2] ∧ min 255 (e.state.erasesDone - taken) = 2 := by
  let write : Request := .sealed .crc8 1 .writeFlash (addressBytes 0 ++ [0x12, 0xc0, 3, 4])
  let final : Request := .sealed .crc8 1 .finalizeFlash []
  let first : Session .small := start .interface (.small []) .none .disabled
  have attached : Programmer.attach (Programmer.small []).chip .small =
      .ok (.ok (.small [])) := rfl
  obtain ⟨e, written, good⟩ := exists_ok_of_any (x := first.exchange write)
    (p := fun e => (e.state.exchange final).toOption.any fun e => e.Answers final .ok [2])
    (by decide +kernel)
  obtain ⟨e', ended, answer⟩ := exists_ok_of_any good
  have answer := of_decide_eq_true answer
  have counting : Counting (.small []) e.state _ _ :=
    .other _ _ _ (.start _ _ _) write e written (neither_of_write
      (Request.sealed_brings (by decide) (by decide) (by decide)))
  have brings : final.Brings .finalizeFlash [] 0 :=
    Request.sealed_brings (by decide) (by decide) (by decide)
  obtain ⟨count, payload, -, -, counted, -⟩ := told_erases attached counting brings ended answer
  cases payload
  exact ⟨_, _, _, e.state, _, _, final, e', attached, counting, ended, answer, counted.symm⟩

/-- A host that leaves no room for the count is refused, and the next one that is told of no erases
though there were two since the start. -/
theorem untold_erases :
    ∃ (chip : Chip .small) (layout : Layout) (flash : Programmer .small) (s : Session .small)
      (told taken : Nat) (r : Request) (e : Exchanged (Session .small)),
      Programmer.attach chip layout = .ok (.ok flash) ∧ Counting flash s told taken ∧
      r.Brings .finalizeFlash [] 0 ∧ s.exchange r = .ok e ∧ e.Answers r .ok [0] ∧
      min 255 (e.state.erasesDone - told) = 2 := by
  let write : Request := .sealed .crc8 1 .writeFlash (addressBytes 0 ++ [0x12, 0xc0, 3, 4])
  let final : Request := .sealed .crc8 1 .finalizeFlash []
  let cramped : Request := { final with maxReply := 3 }
  let first : Session .small := start .interface (.small []) .none .disabled
  obtain ⟨e, written, good⟩ := exists_ok_of_any (x := first.exchange write)
    (p := fun e => (e.state.exchange cramped).toOption.any fun e =>
      e.Answers cramped .invalidTransfer [] ∧ (e.state.exchange final).toOption.any fun e =>
        e.Answers final .ok [0] ∧ e.state.erasesDone = 2)
    (by decide +kernel)
  -- The reply without room takes the count and does not tell it.
  obtain ⟨e₁, refused, good⟩ := exists_ok_of_any good
  obtain ⟨untold, good⟩ := of_decide_eq_true good
  obtain ⟨e₂, ended, good⟩ := exists_ok_of_any good
  obtain ⟨answer, done⟩ := of_decide_eq_true good
  have brings : final.Brings .finalizeFlash [] 0 :=
    Request.sealed_brings (by decide) (by decide) (by decide)
  have crampedBrings : cramped.Brings .finalizeFlash [] 0 :=
    ⟨brings.addressed, brings.frame, brings.fits, by decide⟩
  have counting : Counting (.small []) e₁.state _ _ :=
    .lost _ _ _ (.other _ _ _ (.start _ _ _) write e written (neither_of_write
      (Request.sealed_brings (by decide) (by decide) (by decide)))) cramped [] crampedBrings e₁
      refused [] untold
  refine ⟨(Programmer.small []).chip, .small, _, e₁.state, _, _, final, e₂, rfl, counting, brings,
    ended, answer, ?_⟩
  rw [done]
  decide

end Session

end FieldUpdate
