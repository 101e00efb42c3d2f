import FieldUpdate.Proofs.Host

namespace FieldUpdate

namespace Programmer

variable {g : Geometry}

/-- Blocks of an image that are committed in a row, from an address on; the latest comes first. -/
inductive Blocks (image : Bytes) : Nat → Programmer g → List Commit → Programmer g → Prop
  | done (start : Nat) (p : Programmer g) : Blocks image start p [] p
  /-- Nothing is committed after a block that fails. -/
  | failed (start : Nat) (data : Bytes) (e : FlashError) (p p' : Programmer g)
      (placed : p.Placed start data) (part : data = (image.drop start).take g.eraseSize)
      (commit : p.commit start data = .ok (.error e, p')) :
      Blocks image start p [⟨start, data, .error e⟩] p'
  | next (start : Nat) (data : Bytes) (outcome : BlockOutcome) (p p₁ : Programmer g)
      (later : List Commit) (p' : Programmer g) (placed : p.Placed start data)
      (part : data = (image.drop start).take g.eraseSize)
      (commit : p.commit start data = .ok (.ok outcome, p₁))
      (rest : Blocks image (start + g.eraseSize) p₁ later p') :
      Blocks image start p (later ++ [⟨start, data, .ok outcome⟩]) p'

end Programmer

namespace Stream

variable {g : Geometry} {u u' : Updater g} {accepted image data : Bytes}

def demanded (s : Stream g) : Demand → Stream g
  | .write address _ => s.begun address
  | .finish => s
  | .nothing => s

def streamed (s : Stream g) : Demand → Bytes
  | .write address data =>
    if address = (s.begun address).updater.cursor ∧
        address + data.length ≤ s.updater.flash.layout.applicationSize.toNat then
      (s.begun address).accepted ++ data
    else (s.begun address).accepted
  | .finish => s.accepted
  | .nothing => s.accepted

theorem Coherent.take_cursor {s : Stream g} (h : s.Coherent) :
    s.accepted.take s.updater.cursor = s.accepted :=
  List.take_of_length_le (Nat.le_of_eq h.length)

theorem Path.faithful {s s' : Stream g} (h : Path s s') (small : g.eraseSize < addressSpace)
    (hs : s.Faithful) : s'.Faithful :=
  h.keeps (fun ht => ht.coherent.faithful_restarted) (fun ht step => step.faithful small ht) hs

theorem Faithful.part_of_full (h : Faithful ⟨u, accepted⟩) (b : UInt8) (rest : Bytes)
    (full : (u.cursor + 1) % g.eraseSize = 0) :
    (u.staging b).staged = ((accepted ++ [b] ++ rest).drop u.completed).take g.eraseSize := by
  have hlen : accepted.length = u.cursor := h.coherent.length
  have hs := h.staging_full b full
  have hN := (u.staging_staged_length b).trans h.coherent.ready.staged
  rw [hs] at hN
  rw [Updater.completed_of_full full, List.drop_append_of_le_length
    (by rw [List.length_append, hlen, List.length_singleton]; omega), hs,
    List.take_append_of_le_length (Nat.le_of_eq hN.symm),
    List.take_of_length_le (Nat.le_of_eq hN)]

/-- Bytes that are taken commit the blocks that they complete; if they commit none, they complete
none. -/
theorem feed_blocks (small : g.eraseSize < addressSpace) {report : Except FlashError Unit}
    (h : Faithful ⟨u, accepted⟩)
    (room : u.cursor + data.length ≤ u.flash.layout.applicationSize.toNat)
    (hf : u.feed data = .ok (report, u')) :
    ∃ commits, u'.commits = commits ++ u.commits ∧
      Programmer.Blocks (accepted ++ data) u.completed u.flash commits u'.flash ∧
      (commits = [] → u.cursor % g.eraseSize + data.length < g.eraseSize) := by
  -- By the bytes; the stream stays faithful, so each block that fills up is the image's.
  induction data generalizing u accepted with
  | nil =>
    cases hf
    exact ⟨[], rfl, .done _ _, fun _ => Nat.mod_lt _ u'.flash.sound.eraseSize_pos⟩
  | cons b rest ih =>
    rw [List.length_cons] at room
    have ready : u.Ready := h.coherent.ready
    have room' : u.cursor < u.flash.layout.applicationSize.toNat := by omega
    rw [← List.singleton_append, ← List.append_assoc]
    by_cases full : (u.cursor + 1) % g.eraseSize = 0
    · have placed := u.placed_full b ready room' full
      have start := Updater.completed_of_full full
      have part := h.part_of_full b rest full
      rw [← start] at placed
      cases commit : u.flash.commit (u.cursor + 1 - g.eraseSize) (u.staging b).staged with
      | error crash => cases (Updater.feed_of_crash ready room' full commit).symm.trans hf
      | ok answer =>
        obtain ⟨outcome, flash⟩ := answer
        cases outcome with
        | error e =>
          cases (Updater.feed_of_failed ready room' full commit).symm.trans hf
          rw [← start] at commit ⊢
          exact ⟨[_], rfl, .failed _ _ e _ _ placed part commit,
            fun none => absurd none (List.cons_ne_nil _ _)⟩
        | ok outcome =>
          rw [Updater.feed_of_committed ready room' full commit] at hf
          have step := Step.complete u accepted b outcome flash room' full commit
          have hl : flash.layout = u.flash.layout := step.layout_eq small ready
          have space : u.cursor + 1 + rest.length ≤ flash.layout.applicationSize.toNat := by
            rw [hl]
            omega
          obtain ⟨later, hc, blocks, -⟩ := ih (step.faithful small h) space hf
          rw [u.completed_committing b full] at blocks
          rw [← start] at commit hc
          refine ⟨later ++ [⟨u.completed, (u.staging b).staged, .ok outcome⟩], ?_,
            .next _ _ outcome _ flash later _ placed part commit blocks,
            fun none => absurd none (by simp)⟩
          rw [hc, List.append_assoc]
          rfl
    · rw [Updater.feed_cons_open room' full] at hf
      have step := Step.stage u accepted b room' full
      have space : u.cursor + 1 + rest.length ≤ u.flash.layout.applicationSize.toNat := by omega
      obtain ⟨commits, hc, blocks, none⟩ := ih (step.faithful small h) space hf
      rw [u.completed_staging b full] at blocks
      refine ⟨commits, hc, blocks, fun empty => ?_⟩
      have hm := mod_succ_of_ne u.flash.sound.eraseSize_pos full
      have short := none empty
      change (u.cursor + 1) % g.eraseSize + rest.length < _ at short
      rw [List.length_append, List.length_singleton]
      omega

theorem finish_blocks {report : Except FlashError Progress} (h : Faithful ⟨u, image⟩)
    (hf : u.finish = .ok (report, u')) :
    ∃ commits, u'.commits = commits ++ u.commits ∧
      Programmer.Blocks image u.completed u.flash commits u'.flash ∧
      (commits = [] → image.length ≤ u.completed) := by
  have ready : u.Ready := h.coherent.ready
  have hlen : image.length = u.cursor := h.coherent.length
  obtain ⟨whole, -, rfl⟩ | ⟨tail, outcome, flash, commit, rfl, -⟩ := Updater.finish_cases ready hf
  · have complete := Updater.completed_of_aligned whole
    exact ⟨[], rfl, .done _ _, fun _ => Nat.le_of_eq (hlen.trans complete.symm)⟩
  · have placed := u.placed_tail ready tail
    have ht : u.staged.take (u.cursor % g.eraseSize) = image.drop u.completed := h.tail
    have part : u.staged.take (u.cursor % g.eraseSize) =
        (image.drop u.completed).take g.eraseSize := by
      have hm := Nat.mod_lt u.cursor u.flash.sound.eraseSize_pos
      rw [ht, List.take_of_length_le (by rw [List.length_drop, hlen, Updater.completed]; omega)]
    refine ⟨[_], rfl, ?_, fun none => absurd none (List.cons_ne_nil _ _)⟩
    cases outcome with
    | error e => exact .failed _ _ e _ _ placed part commit
    | ok outcome => exact .next _ _ outcome _ _ [] _ placed part commit (.done _ _)

theorem proceed_blocks (small : g.eraseSize < addressSpace) {s : Stream g} (h : s.Faithful)
    {address : Nat} (bound : address + data.length < 0x100000000)
    {report : Except StreamError Progress} (hp : s.updater.proceed address data = .ok (report, u'))
    (image : Bytes)
    (hi : image = if address = s.updater.cursor ∧
        address + data.length ≤ s.updater.flash.layout.applicationSize.toNat then
      s.accepted ++ data else s.accepted) :
    Path s ⟨u', image.take u'.cursor⟩ ∧ ∃ commits, u'.commits = commits ++ s.updater.commits ∧
      Programmer.Blocks image s.updater.completed s.updater.flash commits u'.flash ∧
      (commits = [] → image.length < s.updater.completed + g.eraseSize) := by
  have hlen := h.coherent.length
  have hm := Nat.mod_lt s.updater.cursor s.updater.flash.sound.eraseSize_pos
  have hle := Nat.mod_le s.updater.cursor g.eraseSize
  have short : s.accepted.length < s.updater.completed + g.eraseSize := by
    rw [hlen, Updater.completed]
    omega
  have kept : s.accepted.take s.updater.cursor = s.accepted := h.coherent.take_cursor
  -- Where data is taken, the image is all that was accepted with it.
  have fed {fedReport : Except FlashError Unit} (next : address = s.updater.cursor)
      (room : s.updater.cursor + data.length ≤ s.updater.flash.layout.applicationSize.toNat)
      (hf : s.updater.feed data = .ok (fedReport, u')) :
      Path s ⟨u', taken s.accepted data u'.cursor fedReport⟩ ∧ image = s.accepted ++ data ∧
        ∃ commits, u'.commits = commits ++ s.updater.commits ∧
          Programmer.Blocks image s.updater.completed s.updater.flash commits u'.flash ∧
          (commits = [] → image.length < s.updater.completed + g.eraseSize) := by
    rw [if_pos ⟨next, by omega⟩] at hi
    obtain ⟨commits, hc, blocks, none⟩ := feed_blocks small h room hf
    rw [← hi] at blocks
    refine ⟨.runs _ .refl _ _ (feed_runs small h.coherent room hf), hi, commits, hc, blocks,
      fun empty => ?_⟩
    have := none empty
    rw [hi, List.length_append, hlen, Updater.completed]
    omega
  cases Updater.proceeded hp with
  | outOfSequence elsewhere =>
    rw [if_neg fun next => elsewhere next.1] at hi
    rw [hi, kept]
    exact ⟨.refl, [], rfl, .done _ _, fun _ => short⟩
  | outOfRange next past =>
    rw [if_neg fun next => by omega] at hi
    rw [hi, kept]
    exact ⟨.refl, [], rfl, .done _ _, fun _ => short⟩
  | failed next room e _ hf =>
    -- The data is short, so its range was checked in full.
    rw [Nat.mod_eq_of_lt (by omega)] at room
    obtain ⟨path, whole, blocks⟩ := fed next room hf
    rw [taken, ← whole] at path
    exact ⟨path, blocks⟩
  | taken next room _ hf =>
    obtain ⟨path, whole, blocks⟩ := fed next room hf
    have same := (path.faithful small h).coherent.take_cursor
    rw [taken, ← whole] at path same
    rw [same]
    exact ⟨path, blocks⟩

/-- What a demand leaves: blocks of the image that is being streamed were committed, and what lies
behind the cursor afterwards has to come again. If no block was, none is complete, and an image that
ends has nothing behind the complete ones. -/
theorem meet_blocks (small : g.eraseSize < addressSpace) {demand : Demand} (bound : demand.Short)
    (h : Faithful ⟨u, image⟩) (hm : u.meet demand = .ok u') :
    Path ⟨u, image⟩ ⟨u', (streamed ⟨u, image⟩ demand).take u'.cursor⟩ ∧
      ∃ commits p, u'.commits = commits ++ u.commits ∧
        Programmer.Blocks (streamed ⟨u, image⟩ demand)
          (demanded ⟨u, image⟩ demand).updater.completed u.flash commits p ∧
        u'.flash.chip = p.chip ∧ u'.flash.layout = p.layout ∧
        (commits = [] →
          (streamed ⟨u, image⟩ demand).length <
            (demanded ⟨u, image⟩ demand).updater.completed + g.eraseSize ∧
          (demand = .finish → (streamed ⟨u, image⟩ demand).length ≤ u.completed)) := by
  have pos := u.flash.sound.eraseSize_pos
  cases demand with
  | nothing =>
    cases hm
    have same : image.take u.cursor = image := h.coherent.take_cursor
    have hlen : image.length = u.cursor := h.coherent.length
    have hm := Nat.mod_lt u.cursor pos
    have hle := Nat.mod_le u.cursor g.eraseSize
    refine ⟨?_, [], u.flash, rfl, .done _ _, rfl, rfl, fun _ => ⟨?_, Demand.noConfusion⟩⟩
    · rw [streamed, same]
      exact .refl
    · change image.length < u.completed + g.eraseSize
      rw [hlen, Updater.completed]
      omega
  | write address data =>
    obtain ⟨⟨report, extended⟩, he, hm⟩ := bind_eq_ok.1 hm
    cases hm
    rw [extend_begun ⟨u, image⟩] at he
    -- A write to address zero begins the image again, so its blocks count from there.
    obtain ⟨path, commits, hc, blocks, reach⟩ := proceed_blocks small (h.begun address) bound he
      (streamed ⟨u, image⟩ (.write address data)) (by rw [begun_flash]; rfl)
    rw [begun_commits] at hc
    rw [begun_flash] at blocks
    exact ⟨(Path.begun address .refl).trans path, commits, _, hc, blocks, rfl, rfl,
      fun empty => ⟨reach empty, Demand.noConfusion⟩⟩
  | finish =>
    obtain ⟨⟨report, finished⟩, hf, hm⟩ := bind_eq_ok.1 hm
    have runs := finish_runs h.coherent hf
    obtain ⟨commits, hc, blocks, reach⟩ := finish_blocks h hf
    have short (empty : commits = []) : image.length < u.completed + g.eraseSize ∧
        (Demand.finish = .finish → image.length ≤ u.completed) :=
      ⟨Nat.lt_of_le_of_lt (reach empty) (Nat.lt_add_of_pos_right pos), fun _ => reach empty⟩
    have path := Path.runs _ .refl _ _ runs
    have same := (path.faithful small h).coherent.take_cursor
    cases report with
    | error e =>
      cases hm
      refine ⟨?_, commits, _, hc, blocks, rfl, rfl, short⟩
      rw [streamed, same]
      exact path
    | ok progress =>
      cases hm
      refine ⟨?_, commits, _, hc, blocks, rfl, rfl, short⟩
      rw [streamed, same]
      exact .runs _ path _ _ (.done _ (.single (.tally finished image)))

theorem front_eq (h : Faithful ⟨u, image⟩) {demand : Demand} {front : Bytes}
    (hf : u.front demand = some front) :
    front = (streamed ⟨u, image⟩ demand).take g.eraseSize := by
  have hlen : image.length = u.cursor := h.coherent.length
  -- Before block zero is complete, all that was accepted is staged.
  have staged (before : u.cursor < g.eraseSize) : u.staged.take u.cursor = image := by
    have ht := h.tail
    simp only [Nat.mod_eq_of_lt before, Nat.sub_self, List.drop_zero] at ht
    exact ht
  cases demand with
  | nothing => cases hf
  | write address data =>
    rw [Updater.front] at hf
    split at hf
    · rename_i due
      obtain ⟨next, room, before, reach⟩ := due
      cases hf
      by_cases zero : address = 0
      · subst zero
        rw [streamed, if_pos ⟨rfl, room⟩]
        rfl
      · have next : address = u.cursor := next.resolve_left zero
        have later : begun ⟨u, image⟩ address = ⟨u, image⟩ := if_neg zero
        rw [streamed, later, if_pos ⟨next, room⟩, next, staged (next ▸ before)]
        change image ++ data.take (g.eraseSize - u.cursor) = (image ++ data).take g.eraseSize
        rw [List.take_append, hlen, List.take_of_length_le (l := image) (by omega)]
    · cases hf
  | finish =>
    rw [Updater.front] at hf
    split at hf
    · rename_i due
      cases hf
      rw [staged due.2]
      exact (List.take_of_length_le (by omega)).symm
    · cases hf

end Stream

namespace Session

variable {g : Geometry} {flash : Programmer g} {s : Session g} {image : Bytes}

/-- The image that is being streamed while a request is served, from what was accepted of it. -/
def streamed (s : Session g) (image : Bytes) (r : Request) : Bytes :=
  Stream.streamed ⟨s.updater, image⟩ r.demand

/-- The sessions that requests reach over a part, each with what it has accepted of the image that
is being streamed. -/
inductive Follows (flash : Programmer g) : Session g → Bytes → Prop
  | start (board : Board) (children : Children) (logger : Logger) :
      Follows flash (start board flash children logger) []
  | exchange (s : Session g) (image : Bytes) (r : Request) (e : Exchanged (Session g))
      (before : Follows flash s image) (answer : s.exchange r = .ok e) :
      Follows flash e.state ((s.streamed image r).take e.state.updater.cursor)

theorem exists_follows (flash : Programmer g) :
    ∃ s : Session g, s.Follows flash [] ∧ s.updater = .idle flash :=
  ⟨start .interface flash .none .disabled, .start _ _ _, start_updater _ _ _ _⟩

theorem Follows.path (h : Follows flash s image) (small : g.eraseSize < addressSpace) :
    Stream.Path ⟨Updater.idle flash, []⟩ ⟨s.updater, image⟩ := by
  induction h with
  | start board children logger =>
    rw [start_updater]
    exact .refl
  | exchange s image r e before answer ih =>
    have faithful := ih.faithful small (Stream.faithful_idle flash)
    exact ih.trans (Stream.meet_blocks small r.demand_short faithful (meet_of_exchange answer)).1

theorem Follows.faithful (h : Follows flash s image) (small : g.eraseSize < addressSpace) :
    Stream.Faithful ⟨s.updater, image⟩ :=
  (h.path small).faithful small (Stream.faithful_idle flash)

end Session

end FieldUpdate
