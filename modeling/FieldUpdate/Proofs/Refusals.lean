import FieldUpdate.Proofs.Host

namespace FieldUpdate

theorem Command.byte_of_ofByte? {cmd : UInt8} {command : Command}
    (h : Command.ofByte? cmd = some command) : cmd = command.byte := by
  unfold ofByte? at h
  split at h
  all_goals first | (cases h; rfl) | cases h

namespace Request

variable {r : Request} {address : Nat} {data : Bytes}

theorem Accepted.brings (accepted : r.Accepted) (addressed : r.address ≠ generalCallAddress)
    {command : Command} {payload : Bytes} (hb : r.body = command.byte :: payload) :
    r.Brings command payload 0 := by
  have size := accepted.size
  rw [hb, List.length_cons] at size
  exact ⟨addressed, by rw [← hb, accepted.enclosed], by omega, accepted.room⟩

theorem brings_of_demand (asks : r.demand ≠ .nothing) :
    ∃ command payload, r.Brings command payload 0 ∧ r.demand = .ofCommand command payload := by
  have addressed : r.address ≠ generalCallAddress := fun everyone =>
    asks (demand_of_general everyone)
  have accepted : r.Accepted := Classical.not_not.1 fun rejected =>
    asks (demand_of_not_accepted rejected)
  obtain ⟨cmd, payload, hb⟩ := exists_body_eq_cons accepted.long
  have demand := demand_of_accepted addressed accepted hb
  unfold Demand.ofCall at demand
  split at demand
  · rename_i command known
    rw [Command.byte_of_ofByte? known] at hb
    exact ⟨command, payload, accepted.brings addressed hb, demand⟩
  · exact absurd demand asks

theorem demand_eq_finish_iff : r.demand = .finish ↔ r.Brings .finalizeFlash [] 0 := by
  constructor
  · intro h
    rcases brings_of_demand (by rw [h]; exact nofun) with ⟨command, payload, brings, demand⟩
    rw [h] at demand
    unfold Demand.ofCommand at demand
    split at demand
    · cases demand
    · exact brings
    · cases demand
  · exact Brings.demand

theorem demand_eq_write_iff : r.demand = .write address data ↔
    address < addressSpace ∧ r.Brings .writeFlash (addressBytes address ++ data) 0 := by
  constructor
  · intro h
    rcases brings_of_demand (by rw [h]; exact nofun) with ⟨command, payload, brings, demand⟩
    rw [h] at demand
    unfold Demand.ofCommand at demand
    split at demand
    · cases demand
      rw [addressBytes_bigEndian]
      exact ⟨bigEndian_lt _ _, brings⟩
    · cases demand
    · cases demand
  · rintro ⟨small, brings⟩
    rw [brings.demand, addressBytes_append, Demand.ofCommand, bigEndian_addressBytes small]

end Request

namespace Logger

structure Grown (l l' : Logger) : Prop where
  level_eq : l'.level = l.level
  keeps_eq : l'.sink.keeps = l.sink.keeps
  text : l.sink.text.toList <+: l'.sink.text.toList

theorem Grown.refl (l : Logger) : Grown l l := ⟨rfl, rfl, List.prefix_rfl⟩

theorem Grown.trans {l l' l'' : Logger} (h : Grown l l') (h' : Grown l' l'') : Grown l l'' :=
  ⟨h'.level_eq.trans h.level_eq, h'.keeps_eq.trans h.keeps_eq, h.text.trans h'.text⟩

theorem grown_write (sink : Sink) (level : Level) (piece : String) :
    Grown ⟨sink, level⟩ ⟨(sink.write piece).2, level⟩ := by
  unfold Sink.write
  split
  · exact ⟨rfl, rfl, List.prefix_rfl⟩
  · refine ⟨rfl, rfl, ?_⟩
    simp only
    split
    · rw [String.toList_append]
      exact List.prefix_append _ _
    · exact List.prefix_rfl

theorem grown_writeAll (sink : Sink) (level : Level) (pieces : List String) :
    Grown ⟨sink, level⟩ ⟨sink.writeAll pieces, level⟩ := by
  induction pieces generalizing sink with
  | nil => exact .refl _
  | cons piece rest ih =>
    have first := grown_write sink level piece
    rw [Sink.writeAll]
    generalize sink.write piece = written at first ⊢
    rcases written with ⟨_ | _, sink'⟩
    · exact first
    · exact first.trans (ih sink')

theorem grown_line (l : Logger) (level : Level) (pieces : List String) :
    Grown l (l.line level pieces).2 := by
  have first : Grown l (l.begin level).2 := by
    unfold begin
    split
    · exact .refl l
    · exact grown_write l.sink l.level level.tag
  rw [line]
  generalize l.begin level = begun at first ⊢
  rcases begun with ⟨_ | _, l'⟩
  · exact first
  · exact first.trans (grown_writeAll _ _ _)

end Logger

theorem Lines.drive_ne_noSuchChild (l : Lines) (line : Nat) (high : Bool) :
    (l.drive line high).1 ≠ .error .noSuchChild := by
  unfold drive
  split
  · exact nofun
  · exact nofun

theorem Children.eq_of_noSuchChild {c c' : Children} {index : UInt8} {high : Bool}
    (h : c.select index high = (.error .noSuchChild, c')) : c' = c := by
  cases c with
  | none =>
    cases h
    rfl
  | lines l =>
    rw [select] at h
    split at h
    · exact absurd (congrArg Prod.fst h) (l.drive_ne_noSuchChild _ _)
    · cases h
      rfl
  | other s =>
    rw [select, Selector.select] at h
    generalize s.answerAfter s.selections index high = report at h
    match report with
    | .error .noSuchChild =>
      cases h
      rfl
    | .error .pin => cases h
    | .ok () => cases h

def Status.Refuses (status : Status) : Prop := status ≠ .ok ∧ status ≠ .failed

/-- There is no reply, or one with a status that refuses the request. -/
def Exchanged.Refused {σ : Type} (e : Exchanged σ) : Prop :=
  ∀ reply ∈ e.reply, reply.head? ≠ some Status.ok.byte ∧ reply.head? ≠ some Status.failed.byte

theorem Exchanged.refused_iff {σ : Type} {e : Exchanged σ} {framing : Framing} {address : UInt8}
    {status : Status} {rest : Bytes}
    (sent : e.reply = some (framing.enclose address (status.byte :: rest))) :
    e.Refused ↔ status.Refuses := by
  have differs (other : Status) :
      (framing.enclose address (status.byte :: rest)).head? ≠ some other.byte ↔
        status ≠ other := by
    rw [Framing.enclose, List.cons_append, List.head?_cons]
    apply not_congr
    constructor
    · intro same
      exact Status.byte_injective (Option.some.inj same)
    · rintro rfl
      rfl
  rw [Refused, sent]
  constructor
  · intro refused
    rcases refused _ rfl with ⟨ok, failed⟩
    exact ⟨(differs _).1 ok, (differs _).1 failed⟩
  · rintro ⟨ok, failed⟩ _ ⟨⟩
    exact ⟨(differs _).2 ok, (differs _).2 failed⟩

namespace Updater

variable {g : Geometry} {u u' : Updater g} {address : Nat} {data : Bytes}

def refusing (u : Updater g) : Demand → Updater g
  | .write address data =>
    if address = 0 ∧ u.flash.layout.applicationSize.toNat < data.length then { u with cursor := 0 }
    else u
  | .finish => u
  | .nothing => u

theorem proceed_refused {e : StreamError} (h : u.proceed address data = .ok (.error e, u'))
    (refused : e = .outOfSequence ∨ e = .outOfRange) : u' = u ∧ (address = u.cursor →
      u.flash.layout.applicationSize.toNat < address + data.length) := by
  cases proceeded h with
  | outOfSequence elsewhere => exact ⟨rfl, fun next => absurd next elsewhere⟩
  | outOfRange next past => exact ⟨rfl, fun _ => past⟩
  | failed next room error _ fed =>
    rcases refused with impossible | impossible
    · cases impossible
    · cases impossible

theorem extend_refused {e : StreamError} (h : u.extend address data = .ok (.error e, u'))
    (refused : e = .outOfSequence ∨ e = .outOfRange) :
    u' = u.refusing (.write address data) := by
  rw [extend_eq] at h
  by_cases zero : address = 0
  · subst zero
    rcases proceed_refused h refused with ⟨rfl, past⟩
    have past := past rfl
    rw [Nat.zero_add] at past
    exact (if_pos ⟨rfl, past⟩).symm
  · rw [if_neg zero] at h
    rcases proceed_refused h refused with ⟨rfl, -⟩
    exact (if_neg fun h => zero h.1).symm

end Updater

namespace Session

variable {g : Geometry} {s s' s'' : Session g} {r : Request} {answer : Answer} {payload : Bytes}
  {capacity : Nat}

def Noted (s s' : Session g) : Prop := ∃ logger, s.logger.Grown logger ∧ s' = { s with logger }

theorem Noted.refl (s : Session g) : Noted s s := ⟨s.logger, .refl _, rfl⟩

theorem Noted.trans (h : Noted s s') (h' : Noted s' s'') : Noted s s'' := by
  rcases h with ⟨logger, grown, rfl⟩
  rcases h' with ⟨logger', grown', rfl⟩
  exact ⟨logger', grown.trans grown', rfl⟩

theorem noted_note (s : Session g) (m : Message) : Noted s (s.note m) :=
  ⟨_, s.logger.grown_line _ _, rfl⟩

theorem noted_noteCorrupt (s : Session g) (r : Request) : Noted s (s.noteCorrupt r) := by
  unfold noteCorrupt
  split
  · exact s.noted_note _
  · exact .refl s

theorem noted_noteHandled (s : Session g) (r : Request) (n : Option Nat) (buffer : Bytes) :
    Noted s (s.noteHandled r n buffer) := by
  unfold noteHandled
  split
  · exact s.noted_note _
  · exact .refl s

theorem setAddress_refused (h : s.setAddress payload = (answer, s'))
    (refused : answer.result.status.Refuses) : s' = s := by
  unfold setAddress at h
  split at h
  · split at h
    · cases h
      rfl
    · split at h
      · cases h
        rfl
      · cases h
        exact absurd rfl refused.1
  · cases h
    rfl

theorem startApplication_refused (h : s.startApplication payload = (answer, s'))
    (refused : answer.result.status.Refuses) : s' = s := by
  unfold startApplication at h
  split at h
  · cases h
    exact absurd rfl refused.1
  · cases h
    rfl

theorem selectChild_refused (h : s.selectChild payload = (answer, s'))
    (refused : answer.result.status.Refuses) : s' = s := by
  unfold selectChild at h
  split at h
  · cases h
    rfl
  · split at h
    · split at h
      · cases h
        rfl
      · split at h
        · cases h
          rfl
        · split at h
          · cases h
            exact absurd rfl refused.1
          · rename_i missing
            cases h
            rw [Children.eq_of_noSuchChild missing]
          · cases h
            exact absurd rfl refused.2
    · cases h
      rfl

theorem writeFlash_refused (h : s.writeFlash payload capacity = .ok (answer, s'))
    (refused : answer.result.status.Refuses) :
    Noted { s with updater := s.updater.refusing (.ofCommand .writeFlash payload) } s' := by
  rcases payload with _ | ⟨high, _ | ⟨low, data⟩⟩
  · cases h
    exact .refl s
  · cases h
    exact .refl s
  · rcases bind_eq_ok.1 h with ⟨⟨report, u⟩, extended, h⟩
    rw [Demand.ofCommand]
    rcases report with (_ | _ | error) | progress
    · cases h
      rw [← Updater.extend_refused extended (.inl rfl)]
      exact noted_note _ _
    · cases h
      rw [← Updater.extend_refused extended (.inr rfl)]
      exact noted_note _ _
    · have answered : flashAnswer error capacity = answer := congrArg Prod.fst (Except.ok.inj h)
      have failed := flashAnswer_status error capacity
      rw [answered] at failed
      exact absurd failed refused.2
    · cases h
      exact absurd rfl refused.1

theorem run_refused {cmd : UInt8} {output : Bytes}
    (h : s.run cmd payload output = .ok (answer, s')) (refused : answer.result.status.Refuses)
    (other : Demand.ofCall cmd payload ≠ .finish) :
    Noted { s with updater := s.updater.refusing (.ofCall cmd payload) } s' := by
  rw [run] at h
  unfold Demand.ofCall at other ⊢
  cases known : Command.ofByte? cmd with
  | none =>
    rw [known] at h
    cases h
    exact noted_note s _
  | some command =>
    rw [known] at h other
    cases command with
    | writeFlash => exact writeFlash_refused h refused
    | finalizeFlash =>
      cases payload with
      | nil => exact absurd rfl other
      | cons _ _ =>
        cases h
        exact .refl s
    | setAddress =>
      rw [setAddress_refused (Except.ok.inj h) refused]
      exact .refl s
    | startApplication =>
      rw [startApplication_refused (Except.ok.inj h) refused]
      exact .refl s
    | setChildSelect =>
      rw [selectChild_refused (Except.ok.inj h) refused]
      exact .refl s
    | _ =>
      cases h
      exact .refl s

/-- A request that asks for anything but the end of the image and is refused does no more than
refusing a write does. -/
theorem exchange_refused {e : Exchanged (Session g)} (addressed : r.address ≠ generalCallAddress)
    (other : r.demand ≠ .finish) (answer : s.exchange r = .ok e) (refused : e.Refused) :
    Noted { s with updater := s.updater.refusing r.demand } e.state := by
  rcases bind_eq_ok.1 answer with ⟨e₁, served, handled⟩
  have handled : e = { e₁ with state := e₁.state.noteHandled r e₁.replyLength e₁.buffer } :=
    (Except.ok.inj handled).symm
  -- What is noted of the reply comes on top.
  have kept : Noted e₁.state e.state := by
    rw [handled]
    exact noted_noteHandled _ _ _ _
  refine Noted.trans ?_ kept
  have comes := Responder.exchange_comes responder_bounded (s.noteCorrupt r) r
  rw [served] at comes
  cases comes with
  | general everyone => exact absurd everyone addressed
  | ignored _ rejected =>
    rw [Request.demand_of_not_accepted rejected]
    exact s.noted_noteCorrupt r
  | refused _ rejected =>
    rw [Request.demand_of_not_accepted rejected]
    exact s.noted_noteCorrupt r
  | silent _ accepted cmd payload hb answer s' run silent =>
    have demand := Request.demand_of_accepted addressed accepted hb
    rw [s.noteCorrupt_of_accepted accepted] at run
    rw [demand] at other ⊢
    exact run_refused run (by rw [silent]; exact ⟨nofun, nofun⟩) other
  | answered _ accepted cmd payload hb answer s' run sent fits frame hf =>
    have demand := Request.demand_of_accepted addressed accepted hb
    rw [s.noteCorrupt_of_accepted accepted] at run
    rw [demand] at other ⊢
    have reply : e.reply = some frame := by
      rw [handled]
      exact congrArg some List.take_left
    exact run_refused run ((Exchanged.refused_iff (hf ▸ reply)).1 refused) other

/-- Refused requests have no effect. Whatever a request to one device holds, unless that is the end
of the image, if it has no reply or one that says neither that it went well nor that it failed, then
nothing but the log changed, and that was only added to. The exception is a write to address zero of
more than the application has room for, which leaves the cursor at zero. -/
theorem refused_without_effect {e : Exchanged (Session g)}
    (addressed : r.address ≠ generalCallAddress) (other : ¬r.Brings .finalizeFlash [] 0)
    (answer : s.exchange r = .ok e) (refused : e.Refused) :
    ((∃ data, r.Brings .writeFlash (addressBytes 0 ++ data) 0 ∧
        s.updater.flash.layout.applicationSize.toNat < data.length) →
      ∃ logger, s.logger.Grown logger ∧
        e.state = { s with updater.cursor := 0, logger }) ∧
    ((∀ data, r.Brings .writeFlash (addressBytes 0 ++ data) 0 →
        data.length ≤ s.updater.flash.layout.applicationSize.toNat) →
      ∃ logger, s.logger.Grown logger ∧ e.state = { s with logger }) := by
  have noted := exchange_refused addressed (mt Request.demand_eq_finish_iff.1 other) answer refused
  constructor
  · rintro ⟨data, brings, long⟩
    rw [Request.demand_eq_write_iff.2 ⟨by decide, brings⟩, Updater.refusing,
      if_pos ⟨rfl, long⟩] at noted
    exact noted
  · intro fits
    have same : s.updater.refusing r.demand = s.updater := by
      cases demand : r.demand with
      | write address data =>
        refine if_neg ?_
        rintro ⟨rfl, long⟩
        have := fits data (Request.demand_eq_write_iff.1 demand).2
        omega
      | finish => rfl
      | nothing => rfl
    rw [same] at noted
    exact noted

/-- Seven bytes do not fit an application of six: the write is refused, and the image that was begun
before is abandoned. -/
theorem refused_without_effect_sevenBytes :
    ∃ (s : Session .small) (r : Request) (e : Exchanged (Session .small)) (logger : Logger),
      s.Reachable ∧ s.updater.cursor = 3 ∧ s.exchange r = .ok e ∧
      e.Answers r .invalidArguments [] ∧ e.state = { s with updater.cursor := 0, logger } := by
  let request (data : Bytes) : Request :=
    .sealed .crc8 1 .writeFlash (addressBytes 0 ++ data)
  have brings : (request [1, 2, 3, 4, 5, 6, 7]).Brings .writeFlash
      (addressBytes 0 ++ [1, 2, 3, 4, 5, 6, 7]) 0 :=
    Request.sealed_brings (by decide) (by decide) (by decide)
  let first : Session .small := start .interface (.small []) .none .disabled
  obtain ⟨e, answer, good⟩ := exists_ok_of_any (x := first.exchange (request [1, 2, 3]))
    (p := fun e => e.state.updater.cursor = 3 ∧
      e.state.updater.flash.layout.applicationSize.toNat < 7 ∧
      (e.state.exchange (request [1, 2, 3, 4, 5, 6, 7])).toOption.any fun e =>
        e.Answers (request [1, 2, 3, 4, 5, 6, 7]) .invalidArguments [])
    (by decide +kernel)
  obtain ⟨begun, long, next⟩ := of_decide_eq_true good
  obtain ⟨e', answer', told⟩ := exists_ok_of_any next
  have told := of_decide_eq_true told
  have other : ¬(request [1, 2, 3, 4, 5, 6, 7]).Brings .finalizeFlash [] 0 := fun finalize =>
    nomatch finalize.body.symm.trans brings.body
  have refused : e'.Refused := (Exchanged.refused_iff told).2 ⟨nofun, nofun⟩
  obtain ⟨logger, -, state⟩ :=
    (refused_without_effect brings.addressed other answer' refused).1 ⟨_, brings, long⟩
  exact ⟨e.state, _, e', logger, .exchange first _ e (.start _ _ _ _) answer, begun, answer', told,
    state⟩

end Session

end FieldUpdate
