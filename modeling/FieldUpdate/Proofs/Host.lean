import FieldUpdate.Bus
import FieldUpdate.Proofs.Serving
import FieldUpdate.Proofs.StreamInvariant

namespace FieldUpdate

/-- A request as a host makes it, in a buffer that takes the longest frame. -/
def Request.sealed (framing : Framing) (address : UInt8) (command : Command) (payload : Bytes) :
    Request where
  framing
  address
  buffer := overlay (List.replicate maxFrame 0) (framing.enclose address (command.byte :: payload))
  len := 1 + payload.length + framing.trailerLength
  maxReply := maxFrame

theorem Request.sealed_brings {framing : Framing} {address : UInt8} {command : Command}
    {payload : Bytes} {capacity : Nat} (addressed : address ≠ generalCallAddress)
    (fits : 1 + payload.length + framing.trailerLength ≤ maxFrame)
    (room : framing.replyOverhead + capacity ≤ maxFrame) :
    (sealed framing address command payload).Brings command payload capacity := by
  have hl := framing.enclose_length address (command.byte :: payload)
  rw [List.length_cons, Nat.add_comm payload.length] at hl
  refine ⟨addressed, ?_, by omega, ?_⟩
  · have ht : (framing.enclose address (command.byte :: payload)).take maxFrame =
        framing.enclose address (command.byte :: payload) := List.take_of_length_le (by omega)
    change (overlay _ _).take (1 + payload.length + framing.trailerLength) = _
    rw [overlay, List.length_replicate, ht, ← hl, List.take_left]
    rfl
  · rw [Request.room, sealed, overlay_length, List.length_replicate, Nat.min_self]
    exact room

theorem Request.sealed_demand {framing : Framing} {address : UInt8} {command : Command}
    {payload : Bytes} (addressed : address ≠ generalCallAddress)
    (fits : 1 + payload.length + framing.trailerLength ≤ maxFrame) :
    (sealed framing address command payload).demand = .ofCommand command payload := by
  have brings : (sealed framing address command payload).Brings command payload 0 :=
    sealed_brings addressed fits (by cases framing <;> decide)
  exact brings.demand

namespace Stream

variable {g : Geometry}

theorem Path.coherent {s s' : Stream g} (h : Path s s') (small : g.eraseSize < addressSpace)
    (hs : s.Coherent) : s'.Coherent :=
  h.keeps (P := Coherent) Coherent.restarted (fun ht step => step.coherent small ht) hs

theorem Path.layout_eq {s s' : Stream g} (h : Path s s') (small : g.eraseSize < addressSpace)
    (hs : s.Coherent) : s'.updater.flash.layout = s.updater.flash.layout :=
  (h.keeps (P := fun t => t.Coherent ∧ t.updater.flash.layout = s.updater.flash.layout)
    (fun ht => ⟨ht.1.restarted, ht.2⟩)
    (fun ht step => ⟨step.coherent small ht.1, (step.layout_eq small ht.1.ready).trans ht.2⟩)
    ⟨hs, rfl⟩).2

end Stream

namespace Updater

variable {g : Geometry}

theorem Moved.path {u u' : Updater g} (h : u.Moved u') (small : g.eraseSize < addressSpace)
    {accepted : Bytes} (hc : Stream.Coherent ⟨u, accepted⟩) :
    ∃ accepted', Stream.Path ⟨u, accepted⟩ ⟨u', accepted'⟩ := by
  cases h with
  | same => exact ⟨accepted, .refl⟩
  | extended address data short report _ answer =>
    have runs := Stream.extend_runs small (fun _ _ => by omega) (hc.begun address) answer
    exact ⟨_, .runs _ (.begun address .refl) _ _ runs⟩
  | failed e _ answer => exact ⟨_, .runs _ .refl _ _ (Stream.finish_runs hc answer)⟩
  | finished progress u₁ answer =>
    have path := Stream.Path.runs _ .refl _ _ (Stream.finish_runs hc answer)
    exact ⟨_, .runs _ path _ _ (.done _ (.single (.tally u₁ accepted)))⟩

theorem Ready.coherent {u : Updater g} (h : u.Ready) :
    Stream.Coherent ⟨u, List.replicate u.cursor 0⟩ := ⟨h, List.length_replicate⟩

theorem Moved.ready {u u' : Updater g} (h : u.Moved u') (small : g.eraseSize < addressSpace)
    (ready : u.Ready) : u'.Ready := by
  obtain ⟨accepted', path⟩ := h.path small ready.coherent
  exact (path.coherent small ready.coherent).ready

theorem idle_ready (flash : Programmer g) : (Updater.idle flash).Ready :=
  ⟨List.length_replicate, Nat.zero_le _⟩

end Updater

namespace Session

variable {g : Geometry} {s s' : Session g}

theorem start_updater (board : Board) (flash : Programmer g) (children : Children)
    (logger : Logger) : (start board flash children logger).updater = Updater.idle flash := by
  unfold start
  simp only
  split <;> rfl

theorem announce_updater (s : Session g) : s.announce.1.updater = s.updater := by
  unfold announce
  split <;> rfl

/-- The sessions that requests and arrivals can reach while anything happens to the part. -/
inductive Reachable : Session g → Prop
  | start (board : Board) (flash : Programmer g) (children : Children) (logger : Logger) :
      Reachable (start board flash children logger)
  | exchange (s : Session g) (r : Request) (e : Exchanged (Session g)) (before : Reachable s)
      (answer : s.exchange r = .ok e) : Reachable e.state
  | arrive (s : Session g) (framing : Framing) (buffer : Bytes) (arrival : Arrival)
      (arrived : Arrived g) (before : Reachable s)
      (answer : s.arrive framing buffer arrival = .ok arrived) : Reachable arrived.session
  | disturb (s : Session g) (chip : Chip g) (before : Reachable s) :
      Reachable { s with updater.flash.chip := chip }

theorem exists_reachable (flash : Programmer g) :
    ∃ s : Session g, s.Reachable ∧ s.updater = .idle flash :=
  ⟨start .interface flash .none .disabled, .start _ _ _ _, start_updater _ _ _ _⟩

theorem arrive_moved {framing : Framing} {buffer : Bytes} {arrival : Arrival} {arrived : Arrived g}
    (h : s.arrive framing buffer arrival = .ok arrived) :
    s.updater.Moved arrived.session.updater := by
  cases arrival with
  | quiet =>
    cases h
    exact .same
  | failure reason =>
    cases h
    exact .same
  | frame f =>
    rw [arrive] at h
    simp only at h
    split at h
    · obtain ⟨e, he, h⟩ := bind_eq_ok.1 h
      have moved := exchange_moved he
      split at h
      · cases h
        simp only [announce_updater]
        exact moved
      · split at h
        · cases h
          exact moved
        · cases h
          simp only [announce_updater]
          exact moved
    · cases h
      exact .same

theorem Reachable.ready (h : Reachable s) (small : g.eraseSize < addressSpace) :
    s.updater.Ready := by
  induction h with
  | start board flash children logger =>
    rw [start_updater]
    exact Updater.idle_ready flash
  | exchange s r e before answer ih => exact (exchange_moved answer).ready small ih
  | arrive s framing buffer arrival arrived before answer ih =>
    exact (arrive_moved answer).ready small ih
  | disturb s chip before ih => exact ⟨ih.staged, ih.cursor⟩

theorem exchangeAll_cons {r : Request} {rest : List Request} {e : Exchanged (Session g)}
    (answer : s.exchange r = .ok e) :
    s.exchangeAll (r :: rest) = (do
      let (replies, last) ← e.state.exchangeAll rest
      return (e.reply :: replies, last)) := by
  rw [exchangeAll, answer]
  rfl

theorem exchangeAll_crash {r : Request} {rest : List Request} {crash : Crash}
    (h : s.exchange r = .error crash) : s.exchangeAll (r :: rest) = .error crash := by
  rw [exchangeAll, h]
  rfl

theorem exchangeAll_path {requests : List Request} {replies : List (Option Bytes)}
    (h : s.exchangeAll requests = .ok (replies, s')) (small : g.eraseSize < addressSpace)
    {accepted : Bytes} (hc : Stream.Coherent ⟨s.updater, accepted⟩) :
    ∃ accepted', Stream.Path ⟨s.updater, accepted⟩ ⟨s'.updater, accepted'⟩ := by
  induction requests generalizing s accepted replies with
  | nil =>
    cases h
    exact ⟨accepted, .refl⟩
  | cons r rest ih =>
    obtain ⟨e, he, h⟩ := bind_eq_ok.1 h
    obtain ⟨⟨replies', last⟩, hr, h⟩ := bind_eq_ok.1 h
    cases h
    obtain ⟨accepted₁, first⟩ := (exchange_moved he).path small hc
    obtain ⟨accepted₂, later⟩ := ih hr (first.coherent small hc)
    exact ⟨accepted₂, first.trans later⟩

/-- Every read within the image is answered with the image's bytes and changes nothing. -/
def Serves (s : Session g) (image : Bytes) : Prop :=
  ∀ (r : Request) (address : Nat) (n : UInt8), address + n.toNat ≤ image.length →
    r.Brings .readFlash (addressBytes address ++ [n]) n.toNat →
    ∃ e, s.exchange r = .ok e ∧ e.state.updater = s.updater ∧
      e.Answers r .ok ((image.drop address).take n.toNat)

theorem imageRange_eq {p : Programmer g} {address n : Nat} (h : address + n ≤ addressSpace) :
    p.imageRange address n = gather p.imageByte address n := by
  apply List.map_congr_left
  intro i hi
  rw [Nat.mod_eq_of_lt (by have := List.mem_range.1 hi; omega)]

/-- A session serves an image if flash has every byte of it. -/
theorem serves_iff {image : Bytes} (fits : image.length < addressSpace) :
    s.Serves image ↔
      ∀ x < image.length, image[x]? = some (s.updater.flash.imageByte x) := by
  constructor
  · -- A read of one byte tells about that byte.
    intro serves x hx
    have brings : (Request.sealed .crc8 1 .readFlash (addressBytes x ++ [1])).Brings .readFlash
        (addressBytes x ++ [1]) 1 := Request.sealed_brings (by decide) (show 5 ≤ 32 by decide)
          (show 4 ≤ 32 by decide)
    obtain ⟨e, he, -, ha⟩ := serves _ x 1 hx brings
    obtain ⟨e', he', -, ha'⟩ := exchange_read (s := s) (Nat.lt_trans hx fits)
      (Nat.le_trans hx (Nat.le_of_lt fits)) brings
    cases he.symm.trans he'
    obtain ⟨-, hb⟩ := ha.inj ha'
    rw [imageRange_eq (Nat.le_trans hx (Nat.le_of_lt fits))] at hb
    have hi := congrArg (·[0]?) hb
    rw [List.getElem?_take, List.getElem?_drop, getElem?_gather] at hi
    exact hi
  · intro held r address n inside brings
    obtain ⟨e, he, hu, ha⟩ := exchange_read (s := s) (by omega)
      (Nat.le_trans inside (Nat.le_of_lt fits)) brings
    refine ⟨e, he, hu, ?_⟩
    have hd : s.updater.flash.imageRange address n.toNat = (image.drop address).take n.toNat := by
      rw [imageRange_eq (Nat.le_trans inside (Nat.le_of_lt fits))]
      apply List.ext_getElem?
      intro i
      rw [getElem?_gather, List.getElem?_take, List.getElem?_drop]
      split
      · rw [held (address + i) (by omega)]
      · rfl
    rw [hd] at ha
    exact ha

def pending (s : Session g) (image : Bytes) (next : Nat) : Stream g :=
  Stream.begun ⟨s.updater, image.take next⟩ next

theorem pending_layout (s : Session g) (image : Bytes) (next : Nat) :
    (s.pending image next).updater.flash.layout = s.updater.flash.layout :=
  Stream.begun_layout _ _

theorem pending_length (some_bytes : 0 < image.length) :
    s.pending image image.length = ⟨s.updater, image⟩ := by
  unfold pending Stream.begun
  rw [if_neg (by omega), List.take_length]

theorem pending_eq (s : Session g) (image : Bytes) (next : Nat) :
    s.pending image next = ⟨(s.pending image next).updater, image.take next⟩ := by
  unfold pending Stream.begun
  split
  · rename_i zero
    rw [zero]
    rfl
  · rfl

theorem part_of_chunk {image data : Bytes} {next : Nat} (part : data <+: image.drop next)
    (within : next ≤ image.length) :
    image.take next ++ data = image.take (next + data.length) ∧
      next + data.length ≤ image.length := by
  have hp := part.length_le
  rw [List.length_drop] at hp
  exact ⟨by rw [List.take_add, ← List.prefix_iff_eq_take.1 part], by omega⟩

theorem pending_cursor {image : Bytes} {next : Nat} (faithful : (s.pending image next).Faithful)
    (within : next ≤ image.length) : (s.pending image next).updater.cursor = next := by
  have hlen := faithful.coherent.length
  rw [pending_eq, List.length_take_of_le within] at hlen
  exact hlen.symm

theorem extend_pending {image data : Bytes} {next : Nat}
    (faithful : (s.pending image next).Faithful) (within : next ≤ image.length)
    (part : data <+: image.drop next)
    (fits : image.length ≤ s.updater.flash.layout.applicationSize.toNat) :
    s.updater.extend next data = (do
      let (report, fed) ← (s.pending image next).updater.feed data
      match report with
      | .error e => return (.error (.flash e), fed)
      | .ok () => return (.ok (fed.progressSince (s.pending image next).updater), fed)) := by
  have hc := pending_cursor faithful within
  have room := Nat.le_trans (part_of_chunk part within).2 fits
  exact Stream.extend_in_sequence hc room

end Session

end FieldUpdate
