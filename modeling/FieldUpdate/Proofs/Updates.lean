import FieldUpdate.Proofs.Demands

namespace FieldUpdate

namespace Programmer

variable {g : Geometry} {p p' : Programmer g} {P : Programmer g → Prop}

/-- What is true before an update of a block is true behind it, however it went. -/
def KeptByUpdates (P : Programmer g → Prop) : Prop :=
  ∀ {p p' : Programmer g} {start : Nat} {content : Bytes} {report : Except FlashError BlockOutcome},
    P p → p.updateBlock start content = .ok (report, p') → P p'

theorem KeptByUpdates.storeVector (kept : KeptByUpdates P) {slot : VectorSlot} {word : UInt16}
    {report : Except FlashError BlockOutcome} (hp : P p)
    (h : p.storeVector slot word = .ok (report, p')) : P p' := by
  rcases bind_eq_ok.1 h with ⟨within, -, h⟩
  rcases bind_eq_ok.1 h with ⟨content, -, update⟩
  exact kept hp update

theorem KeptByUpdates.moveVector (kept : KeptByUpdates P) {slot : VectorSlot} {block : Bytes}
    {moved : Except FlashError Bytes} (hp : P p) (h : p.moveVector slot block = .ok (moved, p')) :
    P p' := by
  unfold Programmer.moveVector at h
  split at h
  · split at h
    · cases h
      exact hp
    · rcases bind_eq_ok.1 h with ⟨⟨_ | outcome, p₁⟩, stored, h⟩
      · cases h
        exact kept.storeVector hp stored
      · cases h
        exact kept.storeVector hp stored
  · cases h

theorem KeptByUpdates.commit (kept : KeptByUpdates P) {start : Nat} {data : Bytes}
    {report : Except FlashError BlockOutcome} (hp : P p)
    (h : p.commit start data = .ok (report, p')) : P p' := by
  unfold Programmer.commit at h
  split at h
  · split at h
    · -- The block is updated behind what was done for the vector.
      rcases bind_eq_ok.1 h with ⟨⟨_ | block, p₁⟩, first, h⟩
      · cases h
        exact kept.moveVector hp first
      · exact kept (kept.moveVector hp first) h
    · exact kept hp h
  · exact kept hp h

end Programmer

namespace Updater

variable {g : Geometry} {u u' : Updater g} {P : Programmer g → Prop} {data : Bytes}

open Programmer (KeptByUpdates)

theorem kept_by_commit (kept : KeptByUpdates P) {start len : Nat} {report : Except FlashError Unit}
    (hu : P u.flash) (h : u.commit start len = .ok (report, u')) : P u'.flash := by
  rcases bind_eq_ok.1 h with ⟨data, -, h⟩
  rcases bind_eq_ok.1 h with ⟨⟨outcome, flash⟩, commit, h⟩
  cases h
  exact kept.commit hu commit

theorem kept_by_feed (kept : KeptByUpdates P) {report : Except FlashError Unit} (hu : P u.flash)
    (h : u.feed data = .ok (report, u')) : P u'.flash := by
  induction data generalizing u with
  | nil =>
    cases h
    exact hu
  | cons b rest ih =>
    rcases bind_eq_ok.1 h with ⟨staged, stage, h⟩
    have hs : P staged.flash := by
      rcases bind_eq_ok.1 stage with ⟨cursor, -, stage⟩
      cases stage
      exact hu
    split at h
    · rcases bind_eq_ok.1 h with ⟨⟨_ | _, u₁⟩, commit, h⟩
      · have hu₁ := kept_by_commit kept hs commit
        cases h
        exact hu₁
      · exact ih (kept_by_commit kept hs commit) h
    · exact ih hs h

theorem kept_by_extend (kept : KeptByUpdates P) {address : Nat}
    {report : Except StreamError Progress} (hu : P u.flash)
    (h : u.extend address data = .ok (report, u')) : P u'.flash := by
  rw [extend_eq] at h
  have hv : P (if address = 0 then { u with cursor := 0 } else u).flash := by
    split
    · exact hu
    · exact hu
  generalize (if address = 0 then { u with cursor := 0 } else u) = v at h hv
  cases proceeded h with
  | outOfSequence elsewhere => exact hv
  | outOfRange next past => exact hv
  | failed next room e _ fed => exact kept_by_feed kept hv fed
  | taken next room _ fed => exact kept_by_feed kept hv fed

theorem kept_by_finish (kept : KeptByUpdates P) {report : Except FlashError Progress}
    (hu : P u.flash) (h : u.finish = .ok (report, u')) : P u'.flash := by
  unfold finish at h
  simp only at h
  split at h
  · cases h
    exact hu
  · rcases bind_eq_ok.1 h with ⟨⟨_ | _, u₁⟩, commit, h⟩
    · cases h
      exact kept_by_commit kept hu commit
    · cases h
      exact kept_by_commit kept hu commit

end Updater

end FieldUpdate
