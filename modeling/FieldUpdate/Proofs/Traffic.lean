import FieldUpdate.Proofs.Lockstep
import FieldUpdate.Proofs.Refusals

namespace FieldUpdate

theorem Framing.head?_of_opened {f : Framing} {address cmd : UInt8} {frame payload : Bytes}
    (h : f.opened address frame = .command cmd payload) : frame.head? = some cmd := by
  unfold opened at h
  repeat' split at h
  all_goals cases h
  rfl

namespace Request

variable {r : Request}

/-- An intact frame to one device that begins with the command to write or to end the image. -/
def Updates (r : Request) : Prop :=
  r.address ≠ generalCallAddress ∧ r.framing.intact r.address r.frame ∧
    (r.frame.head? = some Command.writeFlash.byte ∨ r.frame.head? = some Command.finalizeFlash.byte)

instance : Decidable r.Updates := inferInstanceAs (Decidable (_ ∧ _ ∧ _))

theorem demand_of_not_updates (other : ¬r.Updates) : r.demand = .nothing := by
  apply Classical.not_not.1
  intro asks
  obtain ⟨command, payload, brings, demand⟩ := brings_of_demand asks
  have head : r.frame.head? = some command.byte := by
    rw [brings.frame, Framing.enclose]
    rfl
  have intact : r.framing.intact r.address r.frame := by
    rw [brings.frame]
    exact Framing.intact_enclose _ _ _
  apply other
  refine ⟨brings.addressed, intact, ?_⟩
  rw [head]
  rw [demand] at asks
  cases command with
  | writeFlash => exact .inl rfl
  | finalizeFlash => exact .inr rfl
  | _ => exact absurd rfl asks

end Request

def repliesToUpdates (requests : List Request) (replies : List (Option Bytes)) :
    List (Option Bytes) :=
  ((requests.zip replies).filter fun exchanged => exchanged.1.Updates).map Prod.snd

theorem repliesToUpdates_cons {r : Request} {requests : List Request} {reply : Option Bytes}
    {replies : List (Option Bytes)} :
    repliesToUpdates (r :: requests) (reply :: replies) =
      if r.Updates then reply :: repliesToUpdates requests replies
      else repliesToUpdates requests replies := by
  by_cases updates : r.Updates
  · simp [repliesToUpdates, updates]
  · simp [repliesToUpdates, updates]

namespace Session

variable {g : Geometry} {s t : Session g} {r : Request}

theorem ties_updater :
    Ties Eq fun s t : Session g => s.updater = t.updater where
  updater same := same
  put _ same := same
  note _ same := same

/-- An update is answered from the updater alone. -/
theorem exchange_updates (updates : r.Updates) (same : s.updater = t.updater) :
    Alike (Exchanged.Same fun s t => s.updater = t.updater) (s.exchange r) (t.exchange r) := by
  apply ties_updater.exchange same
  · intro s t cmd same
    rw [broadcast_updater, broadcast_updater]
    exact same
  · intro s t cmd payload output same opened
    have head := Framing.head?_of_opened opened
    rcases updates.2.2 with write | finalize
    · cases head.symm.trans write
      exact ties_updater.writeFlash Updater.lockstep_eq same (Framing.payload_length_le opened)
        output.length
    · cases head.symm.trans finalize
      exact ties_updater.finalizeFlash Updater.lockstep_eq same payload output.length

theorem exchange_other (s : Session g) (other : ¬r.Updates) :
    ∃ e, s.exchange r = .ok e ∧ e.state.updater = s.updater := by
  have kept := s.exchange_updater r
  rw [Request.demand_of_not_updates other] at kept
  cases answer : s.exchange r with
  | error crash =>
    rw [answer] at kept
    cases kept
  | ok e =>
    rw [answer] at kept
    exact ⟨e, rfl, Except.ok.inj kept⟩

theorem exchangeAll_updates (same : s.updater = t.updater) (requests : List Request) :
    Alike (fun a b => repliesToUpdates requests a.1 = b.1 ∧ a.2.updater = b.2.updater)
      (s.exchangeAll requests) (t.exchangeAll (requests.filter fun r => r.Updates)) := by
  induction requests generalizing s t with
  | nil => exact .answered _ _ ⟨rfl, same⟩
  | cons r rest ih =>
    by_cases updates : r.Updates
    · rw [List.filter_cons_of_pos (by simpa using updates)]
      apply (exchange_updates updates same).bind
      intro e e' _ first
      apply (ih first.state).bind
      rintro ⟨replies, last⟩ ⟨replies', last'⟩ _ ⟨later, kept⟩
      refine .answered _ _ ⟨?_, kept⟩
      simp only at later
      rw [repliesToUpdates_cons, if_pos updates, first.reply, later]
    · obtain ⟨e, answer, kept⟩ := s.exchange_other updates
      have later := ih (kept.trans same)
      rw [List.filter_cons_of_neg (by simpa using updates), exchangeAll_cons answer]
      apply later.map_left
      rintro ⟨replies, last⟩ ⟨replies', last'⟩ ⟨later, kept⟩
      exact ⟨by rw [repliesToUpdates_cons, if_neg updates, later], kept⟩

/-- Other traffic does not disturb an update. Whatever requests are made, in whatever order and
whatever faults the part has in store, the updates among them are answered as if they had been made
alone, and flash with its faults, the staged bytes, the cursor and the count of erases end up the
same. -/
theorem updates_undisturbed (s : Session g) (requests : List Request) :
    ((s.exchangeAll requests).map fun a => (repliesToUpdates requests a.1, a.2.updater)) =
      (s.exchangeAll (requests.filter fun r => r.Updates)).map fun a => (a.1, a.2.updater) := by
  apply (exchangeAll_updates rfl requests).map_eq
  rintro a b ⟨replies, kept⟩
  rw [replies, kept]

end Session

end FieldUpdate
