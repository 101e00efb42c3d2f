import FieldUpdate.Proofs.Refusals

namespace FieldUpdate

namespace Updater

variable {g : Geometry} {u u' : Updater g} {address : Nat} {data : Bytes} {error : FlashError}

theorem extend_elsewhere (later : address ≠ 0) (elsewhere : address ≠ u.cursor) :
    u.extend address data = .ok (.error .outOfSequence, u) := by
  rw [extend_eq, if_neg later]
  exact if_pos elsewhere

theorem refusing_cursor (u : Updater g) (demand : Demand) :
    (u.refusing demand).cursor = u.cursor ∨ (u.refusing demand).cursor = 0 := by
  cases demand with
  | write address data =>
    rw [refusing]
    split
    · exact .inr rfl
    · exact .inl rfl
  | finish => exact .inl rfl
  | nothing => exact .inl rfl

end Updater

namespace Session

variable {g : Geometry} {s : Session g} {b : Nat}

/-- A write at this address was accepted: it went well, or failed behind the block that it begins
with. -/
def Accepts (e : Exchanged (Session g)) (r : Request) (address : Nat) : Prop :=
  ∃ data, r.Brings .writeFlash (addressBytes address ++ data) 0 ∧
    ((∃ payload, e.Answers r .ok payload) ∨
      (∃ payload, e.Answers r .failed payload) ∧ e.state.updater.cursor ≠ address)

/-- The sessions between a write that failed with the commit of the block at this address and the
next accepted write there or at zero, whatever is done to the part in between. -/
inductive Resending : Nat → Session g → Prop
  | failed (s : Session g) (r : Request) (input : Bytes) (brings : r.Brings .writeFlash input 0)
      (e : Exchanged (Session g)) (exchanged : s.exchange r = .ok e) (payload : Bytes)
      (answer : e.Answers r .failed payload) (c : Commit) (earlier : List Commit)
      (last : e.state.updater.commits = c :: earlier) : Resending c.start e.state
  | other (b : Nat) (s : Session g) (before : Resending b s) (r : Request)
      (e : Exchanged (Session g)) (exchanged : s.exchange r = .ok e) (block : ¬Accepts e r b)
      (zero : ¬Accepts e r 0) : Resending b e.state
  | disturb (b : Nat) (s : Session g) (before : Resending b s) (chip : Chip g) :
      Resending b { s with updater.flash.chip := chip }

theorem rewound_of_failed {r : Request} {input payload : Bytes} {e : Exchanged (Session g)}
    (brings : r.Brings .writeFlash input 0) (exchanged : s.exchange r = .ok e)
    (answer : e.Answers r .failed payload) : e.state.updater.Rewound := by
  cases wrote_of_exchange brings exchanged with
  | malformed _ short same answer' => cases (answer.inj answer').1
  | extended high low data report extended answer' =>
    have status := (answer.inj answer').1
    rcases report with (_ | _ | error) | progress
    · cases status
    · cases status
    · exact Updater.extend_rewound extended
    · cases status

/-- A write that is not accepted does not take the cursor anywhere but to its block or to zero. -/
theorem cursor_of_unaccepted {r : Request} {address : Nat} {data : Bytes}
    {e : Exchanged (Session g)} (brings : r.Brings .writeFlash (addressBytes address ++ data) 0)
    (exchanged : s.exchange r = .ok e) (unaccepted : ¬Accepts e r address) :
    e.state.updater.cursor = s.updater.cursor ∨ e.state.updater.cursor = 0 ∨
      e.state.updater.cursor = address := by
  -- A write that is refused leaves what refusing it leaves.
  have refused {u : Updater g} {demand : Demand} (hu : u = s.updater.refusing demand) :
      u.cursor = s.updater.cursor ∨ u.cursor = 0 ∨ u.cursor = address := by
    rw [hu, ← or_assoc]
    exact .inl (s.updater.refusing_cursor demand)
  have wrote := wrote_of_exchange brings exchanged
  rw [addressBytes_append] at wrote
  cases wrote with
  | malformed _ short same answer =>
    rw [same]
    exact .inl rfl
  | extended _ _ _ report extended answer =>
    rcases report with (_ | _ | error) | progress
    · exact refused (Updater.extend_refused extended (.inl rfl))
    · exact refused (Updater.extend_refused extended (.inr rfl))
    · have failed : (writeAnswer (.error (.flash error)) r.capacity).result.status = .failed :=
        flashAnswer_status error _
      rw [failed] at answer
      refine .inr (.inr (Classical.not_not.1 fun elsewhere => ?_))
      exact unaccepted ⟨data, brings, .inr ⟨⟨_, answer⟩, elsewhere⟩⟩
    · exact absurd ⟨data, brings, .inl ⟨_, answer⟩⟩ unaccepted

theorem extend_of_waits {u : Updater g} {address : Nat} (data : Bytes)
    (waits : u.cursor = b ∨ u.cursor = 0) (block : address ≠ b) (zero : address ≠ 0) :
    u.extend address data = .ok (.error .outOfSequence, u) := by
  apply Updater.extend_elsewhere zero
  rcases waits with waits | waits
  · rw [waits]
    exact block
  · rw [waits]
    exact zero

theorem finish_of_waits {u : Updater g} (aligned : b % g.eraseSize = 0)
    (waits : u.cursor = b ∨ u.cursor = 0) :
    u.finish = .ok (.ok (Progress.ofCommits []), u) := by
  apply Updater.finish_whole
  rcases waits with waits | waits
  · rw [waits, aligned]
  · rw [waits, Nat.zero_mod]

theorem Resending.waits (h : Resending b s) :
    b % g.eraseSize = 0 ∧ (s.updater.cursor = b ∨ s.updater.cursor = 0) := by
  -- What each request keeps is that the cursor waits at the block or at zero.
  induction h with
  | failed s r input brings e exchanged payload answer c earlier last =>
    rcases rewound_of_failed brings exchanged answer with ⟨aligned, block, error, rest, -, commits⟩
    cases last.symm.trans commits
    exact ⟨aligned, .inl rfl⟩
  | other b s before r e exchanged block zero ih =>
    rcases ih with ⟨aligned, waits⟩
    refine ⟨aligned, ?_⟩
    have met := meet_of_exchange exchanged
    cases demand : r.demand with
    | nothing =>
      rw [demand] at met
      rw [← Except.ok.inj met]
      exact waits
    | finish =>
      rw [demand, Updater.meet, finish_of_waits aligned waits] at met
      rw [← Except.ok.inj met]
      exact waits
    | write address data =>
      have brings := (Request.demand_eq_write_iff.1 demand).2
      -- A write to the block or to zero was not accepted; any other is out of sequence.
      by_cases resent : address = b
      · subst resent
        rcases cursor_of_unaccepted brings exchanged block with same | start | there
        · rw [same]
          exact waits
        · exact .inr start
        · exact .inl there
      · by_cases restarted : address = 0
        · subst restarted
          rcases cursor_of_unaccepted brings exchanged zero with same | start | start
          · rw [same]
            exact waits
          · exact .inr start
          · exact .inr start
        · rw [demand, Updater.meet, extend_of_waits data waits resent restarted] at met
          rw [← Except.ok.inj met]
          exact waits
  | disturb b s before chip ih => exact ih

/-- A block that failed comes first. From the failure on, until a write at the block's address or at
zero is accepted, every other write is refused and changes nothing of the image or of flash. The end
of an image does nothing to flash either, but says that it went well wherever its reply has room for
the count of erases. -/
theorem resend_before_anything_else (h : Resending b s) :
    (∀ (r : Request) (input : Bytes), r.Brings .writeFlash input 0 →
      (∀ data, input ≠ addressBytes b ++ data ∧ input ≠ addressBytes 0 ++ data) →
      ∃ e, s.exchange r = .ok e ∧ e.Answers r .invalidArguments [] ∧
        e.state.updater = s.updater) ∧
    (∀ (r : Request) (input : Bytes), r.Brings .finalizeFlash input 0 →
      ∃ e, s.exchange r = .ok e ∧ e.state.updater.flash.chip = s.updater.flash.chip ∧
        ((∃ payload, e.Answers r .ok payload) ↔ input = [] ∧ r.capacity ≠ 0)) := by
  rcases h.waits with ⟨aligned, waits⟩
  constructor
  · intro r input brings elsewhere
    rcases input with _ | ⟨high, _ | ⟨low, data⟩⟩
    · rcases exchange_write_malformed brings (by decide) with ⟨e, exchanged, same, answer⟩
      exact ⟨e, exchanged, answer, same⟩
    · rcases exchange_write_malformed brings Nat.one_lt_two with ⟨e, exchanged, same, answer⟩
      exact ⟨e, exchanged, answer, same⟩
    · have sent := addressBytes_bigEndian high low
      have block : bigEndian high low ≠ b := by
        rintro rfl
        exact (elsewhere data).1 (by rw [sent]; rfl)
      have zero : bigEndian high low ≠ 0 := by
        intro zero
        rw [zero] at sent
        exact (elsewhere data).2 (by rw [sent]; rfl)
      have brings : r.Brings .writeFlash (addressBytes (bigEndian high low) ++ data) 0 := by
        rw [sent]
        exact brings
      rcases exchange_write (bigEndian_lt high low) brings (extend_of_waits data waits block zero)
        with ⟨e, exchanged, same, answer⟩
      exact ⟨e, exchanged, answer, same⟩
  · intro r input brings
    cases exchanged : s.exchange r with
    | error crash =>
      -- With nothing staged there is nothing to commit, so this does not come about.
      have met := s.exchange_updater r
      rw [exchanged, brings.demand] at met
      cases input with
      | nil =>
        rw [Demand.ofCommand, Updater.meet, finish_of_waits aligned waits] at met
        cases met
      | cons _ _ => cases met
    | ok e =>
      refine ⟨e, rfl, ?_⟩
      have finish := finish_of_waits aligned waits
      cases ended_of_exchange brings exchanged with
      | malformed _ nonempty same answer =>
        rw [same]
        refine ⟨rfl, ?_, fun told => absurd told.1 nonempty⟩
        rintro ⟨payload, ok⟩
        cases (ok.inj answer).1
      | failed error finish' answer => cases finish.symm.trans finish'
      | untold progress u finish' state full answer =>
        cases finish.symm.trans finish'
        rw [state]
        refine ⟨rfl, ?_, fun told => absurd full told.2⟩
        rintro ⟨payload, ok⟩
        cases (ok.inj answer).1
      | told progress u finish' state room answer =>
        cases finish.symm.trans finish'
        rw [state]
        exact ⟨rfl, fun _ => ⟨rfl, room⟩, fun _ => ⟨_, answer⟩⟩

def afterFault (r : Request) (p : Exchanged (Session .small) → Bool) : Bool :=
  let write := Request.sealed .crc8 1 .writeFlash (addressBytes 0 ++ [0x12, 0xc0, 3, 4])
  ((start .interface (.small [⟨0, 8⟩]) .none .disabled).exchange write).toOption.any fun e =>
    decide (e.Answers write .failed [0x13]) &&
      decide ((e.state.updater.commits.map Commit.start).head? = some 0) &&
      (e.state.exchange r).toOption.any p

theorem resending_of_afterFault {r : Request} {p : Exchanged (Session .small) → Bool}
    (h : afterFault r p = true) :
    ∃ (s : Session .small) (e : Exchanged (Session .small)), Resending 0 s ∧
      s.exchange r = .ok e ∧ p e = true := by
  unfold afterFault at h
  obtain ⟨e, exchanged, h⟩ := exists_ok_of_any h
  rw [Bool.and_eq_true, Bool.and_eq_true, decide_eq_true_eq, decide_eq_true_eq] at h
  obtain ⟨⟨answer, first⟩, next⟩ := h
  obtain ⟨e', exchanged', good⟩ := exists_ok_of_any next
  cases commits : e.state.updater.commits with
  | nil =>
    rw [commits] at first
    cases first
  | cons c earlier =>
    rw [commits] at first
    have zero : c.start = 0 := Option.some.inj first
    have resending := Resending.failed _ _ _
      (Request.sealed_brings (by decide) (by decide) (by decide)) e exchanged _ answer c earlier
      commits
    rw [zero] at resending
    exact ⟨e.state, e', resending, exchanged', good⟩

/-- After block zero failed, a write behind it is refused. -/
theorem resend_before_anything_else_fourBytes :
    ∃ (s : Session .small) (r : Request) (e : Exchanged (Session .small)), Resending 0 s ∧
      r.Brings .writeFlash (addressBytes 4 ++ [5]) 0 ∧ s.exchange r = .ok e ∧
      e.Answers r .invalidArguments [] ∧ e.state.updater = s.updater := by
  obtain ⟨s, e, resending, -, -⟩ := resending_of_afterFault
    (r := .sealed .crc8 1 .writeFlash (addressBytes 4 ++ [5])) (p := fun _ => true)
    (by decide +kernel)
  have brings : (Request.sealed .crc8 1 .writeFlash (addressBytes 4 ++ [5])).Brings .writeFlash
      (addressBytes 4 ++ [5]) 0 := Request.sealed_brings (by decide) (by decide) (by decide)
  obtain ⟨e, exchanged, answer, same⟩ := (resend_before_anything_else resending).1 _ _ brings
    fun _ => ⟨nofun, nofun⟩
  exact ⟨s, _, e, resending, brings, exchanged, answer, same⟩

/-- The end of the image is taken, though the only block that was sent failed. -/
theorem finalize_before_resend :
    ∃ (s : Session .small) (r : Request) (e : Exchanged (Session .small)), Resending 0 s ∧
      r.Brings .finalizeFlash [] 0 ∧ s.exchange r = .ok e ∧ e.Answers r .ok [0] := by
  obtain ⟨s, e, resending, exchanged, good⟩ := resending_of_afterFault
    (r := .sealed .crc8 1 .finalizeFlash [])
    (p := fun e => e.Answers (.sealed .crc8 1 .finalizeFlash []) .ok [0]) (by decide +kernel)
  exact ⟨s, _, e, resending, Request.sealed_brings (by decide) (by decide) (by decide), exchanged,
    of_decide_eq_true good⟩

end Session

end FieldUpdate
