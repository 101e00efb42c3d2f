import FieldUpdate.Proofs.Commit
import Mathlib.Logic.Relation

namespace FieldUpdate

theorem mod_succ {c n : Nat} (pos : 0 < n) :
    (c + 1) % n = if c % n + 1 = n then 0 else c % n + 1 := by
  have hc := Nat.mod_lt c pos
  have hd : c + 1 = c % n + 1 + n * (c / n) := by
    have := Nat.mod_add_div c n
    omega
  rw [hd, Nat.add_mul_mod_self_left]
  by_cases hn : c % n + 1 = n
  · rw [if_pos hn, hn, Nat.mod_self]
  · rw [if_neg hn]
    exact Nat.mod_eq_of_lt (by omega)

theorem mod_succ_of_ne {c n : Nat} (pos : 0 < n) (h : (c + 1) % n ≠ 0) :
    (c + 1) % n = c % n + 1 := by
  rw [mod_succ pos] at h ⊢
  exact if_neg fun hn => h (if_pos hn)

theorem mod_succ_of_eq {c n : Nat} (pos : 0 < n) (h : (c + 1) % n = 0) : c % n + 1 = n := by
  by_cases hn : c % n + 1 = n
  · exact hn
  · rw [mod_succ pos, if_neg hn] at h
    cases h

namespace Updater

variable {g : Geometry}

/-- The staged bytes are one block and the cursor stays in the application. -/
structure Ready (u : Updater g) : Prop where
  staged : u.staged.length = g.eraseSize
  cursor : u.cursor ≤ u.flash.layout.applicationSize.toNat

/-- Where the blocks that are complete end. -/
def completed (u : Updater g) : Nat := u.cursor - u.cursor % g.eraseSize

theorem completed_of_aligned {u : Updater g} (h : u.cursor % g.eraseSize = 0) :
    u.completed = u.cursor := by
  rw [completed, h, Nat.sub_zero]

theorem completed_of_full {u : Updater g} (full : (u.cursor + 1) % g.eraseSize = 0) :
    u.completed = u.cursor + 1 - g.eraseSize := by
  have hm := mod_succ_of_eq u.flash.sound.eraseSize_pos full
  rw [completed]
  omega

theorem le_cursor_of_completed {u : Updater g} (h : u.completed ≠ 0) : g.eraseSize ≤ u.cursor := by
  unfold completed at h
  by_cases hc : u.cursor < g.eraseSize
  · rw [Nat.mod_eq_of_lt hc] at h
    omega
  · omega

def staging (u : Updater g) (b : UInt8) : Updater g :=
  { u with staged := u.staged.set (u.cursor % g.eraseSize) b, cursor := u.cursor + 1 }

def committing (u : Updater g) (start : Nat) (data : Bytes)
    (outcome : Except FlashError BlockOutcome) (flash : Programmer g) : Updater g :=
  { u with flash, commits := ⟨start, data, outcome⟩ :: u.commits }

theorem cursor_of_stage {u u' : Updater g} {b : UInt8} (h : u.stage b = .ok u') :
    u'.cursor = u.cursor + 1 ∧ u.cursor + 1 < 0x10000 := by
  obtain ⟨cursor, next, h⟩ := bind_eq_ok.1 h
  cases h
  unfold advance at next
  split at next
  · rename_i below
    cases next
    exact ⟨rfl, below⟩
  · cases next

theorem cursor_of_commit {u u' : Updater g} {start len : Nat} {report : Except FlashError Unit}
    (h : u.commit start len = .ok (report, u')) : u'.cursor = u.cursor := by
  obtain ⟨data, -, h⟩ := bind_eq_ok.1 h
  obtain ⟨⟨outcome, flash⟩, -, h⟩ := bind_eq_ok.1 h
  cases h
  rfl

theorem stage_eq {u : Updater g} (b : UInt8)
    (room : u.cursor < u.flash.layout.applicationSize.toNat) : u.stage b = .ok (u.staging b) := by
  have := u.flash.layout.applicationSize.toNat_lt
  rw [stage, advance_eq_ok (show u.cursor + 1 < 0x10000 by omega)]
  rfl

theorem commit_eq {u : Updater g} {start len : Nat} (h : len ≤ u.staged.length) :
    u.commit start len = (do
      let (outcome, flash) ← u.flash.commit start (u.staged.take len)
      return (outcome.map fun _ => (), u.committing start (u.staged.take len) outcome flash)) := by
  rw [commit, slice_eq_ok (by omega)]
  rfl

theorem completed_staging {u : Updater g} (b : UInt8) (short : (u.cursor + 1) % g.eraseSize ≠ 0) :
    (u.staging b).completed = u.completed := by
  have hm := mod_succ_of_ne u.flash.sound.eraseSize_pos short
  have hc : (u.staging b).cursor = u.cursor + 1 := rfl
  rw [completed, completed, hc, hm, Nat.add_sub_add_right]

theorem completed_committing (u : Updater g) (b : UInt8)
    {outcome : Except FlashError BlockOutcome} {flash : Programmer g}
    (full : (u.cursor + 1) % g.eraseSize = 0) :
    ((u.staging b).committing (u.cursor + 1 - g.eraseSize) (u.staging b).staged outcome
      flash).completed = u.completed + g.eraseSize := by
  have hle := Nat.le_of_dvd (Nat.succ_pos _) (Nat.dvd_of_mod_eq_zero full)
  rw [completed_of_full full, Nat.sub_add_cancel hle]
  exact completed_of_aligned full

theorem staging_staged_length (u : Updater g) (b : UInt8) :
    (u.staging b).staged.length = u.staged.length := List.length_set

theorem feed_cons_open {u : Updater g} {b : UInt8} {rest : Bytes}
    (room : u.cursor < u.flash.layout.applicationSize.toNat)
    (h : (u.cursor + 1) % g.eraseSize ≠ 0) : u.feed (b :: rest) = (u.staging b).feed rest := by
  rw [feed, stage_eq b room]
  exact if_neg h

theorem feed_cons_full {u : Updater g} {b : UInt8} {rest : Bytes} (ready : u.Ready)
    (room : u.cursor < u.flash.layout.applicationSize.toNat)
    (h : (u.cursor + 1) % g.eraseSize = 0) :
    u.feed (b :: rest) = (do
      let start := u.cursor + 1 - g.eraseSize
      let (outcome, flash) ← u.flash.commit start (u.staging b).staged
      let done := (u.staging b).committing start (u.staging b).staged outcome flash
      match outcome with
      | .error e => return (.error e, { done with cursor := start })
      | .ok _ => done.feed rest) := by
  have hl : (u.staging b).staged.length = g.eraseSize :=
    (u.staging_staged_length b).trans ready.staged
  -- A full block is taken from the staged bytes as a whole.
  have ht : (u.staging b).staged.take g.eraseSize = (u.staging b).staged := by
    rw [← hl, List.take_length]
  have small : g.eraseSize < addressSpace := by
    have := Nat.le_of_dvd (Nat.succ_pos _) (Nat.dvd_of_mod_eq_zero h)
    exact Nat.lt_of_le_of_lt (by omega) u.flash.layout.applicationSize.toNat_lt
  rw [feed, stage_eq b room, Nat.mod_eq_of_lt small]
  have hc : (u.staging b).commit ((u.staging b).cursor - g.eraseSize) g.eraseSize = _ :=
    commit_eq (Nat.le_of_eq hl.symm)
  rw [ht] at hc
  refine (if_pos h).trans ?_
  simp only [hc]
  have hf : (u.staging b).flash = u.flash := rfl
  rw [hf]
  have hs : (u.staging b).cursor = u.cursor + 1 := rfl
  rw [hs]
  cases u.flash.commit (u.cursor + 1 - g.eraseSize) (u.staging b).staged with
  | error crash => rfl
  | ok answer =>
    obtain ⟨outcome, flash⟩ := answer
    cases outcome with
    | error e => rfl
    | ok outcome => rfl

theorem feed_length_lt {u u' : Updater g} {data : Bytes} (h : u.feed data = .ok (.ok (), u')) :
    data = [] ∨ u.cursor + data.length < 0x10000 := by
  induction data generalizing u with
  | nil => exact .inl rfl
  | cons b rest ih =>
    obtain ⟨staged, stage, h⟩ := bind_eq_ok.1 h
    obtain ⟨next, below⟩ := cursor_of_stage stage
    -- The rest is taken from the next address on, behind a commit or without one.
    obtain ⟨u₁, same, fed⟩ : ∃ u₁ : Updater g, u₁.cursor = staged.cursor ∧
        u₁.feed rest = .ok (.ok (), u') := by
      split at h
      · obtain ⟨⟨_ | _, u₁⟩, commit, h⟩ := bind_eq_ok.1 h
        · cases h
        · exact ⟨u₁, cursor_of_commit commit, h⟩
      · exact ⟨staged, rfl, h⟩
    right
    rw [List.length_cons]
    obtain rfl | later := ih fed
    · exact below
    · omega

/-- The last commit was that of a whole block and failed, and the stream goes on with that block. -/
structure Rewound (u : Updater g) : Prop where
  aligned : u.cursor % g.eraseSize = 0
  failed : ∃ block error earlier, block.length = g.eraseSize ∧
    u.commits = ⟨u.cursor, block, .error error⟩ :: earlier

theorem commit_failed {u u' : Updater g} {start len : Nat} {error : FlashError}
    (h : u.commit start len = .ok (.error error, u')) :
    ∃ block, block.length = len ∧ u'.commits = ⟨start, block, .error error⟩ :: u.commits := by
  rcases bind_eq_ok.1 h with ⟨block, taken, h⟩
  rcases bind_eq_ok.1 h with ⟨⟨_ | _, flash⟩, -, h⟩
  · cases h
    exact ⟨block, slice_length taken, rfl⟩
  · cases h

theorem feed_rewound {u u' : Updater g} {data : Bytes} {error : FlashError}
    (h : u.feed data = .ok (.error error, u')) : u'.Rewound := by
  induction data generalizing u with
  | nil => cases h
  | cons b rest ih =>
    rcases bind_eq_ok.1 h with ⟨staged, stage, h⟩
    split at h
    · rename_i full
      rcases bind_eq_ok.1 h with ⟨⟨_ | _, u₁⟩, commit, h⟩
      · rcases commit_failed commit with ⟨block, length, commits⟩
        cases h
        refine ⟨?_, block, _, _, length, commits⟩
        -- The block ends at the cursor, which is an address.
        rcases cursor_of_stage stage with ⟨next, below⟩
        have reach := Nat.le_of_dvd (by omega) (Nat.dvd_of_mod_eq_zero full)
        have small : g.eraseSize < 0x10000 := by omega
        simp only [Nat.mod_eq_of_lt small]
        rw [← Nat.mod_eq_sub_mod reach]
        exact full
      · exact ih h
    · exact ih h

theorem short_of_room {l : Layout} {n : Nat} (room : n ≤ l.applicationSize.toNat) :
    n < 0x100000000 :=
  Nat.lt_trans (Nat.lt_of_le_of_lt room l.applicationSize.toNat_lt) (by decide)

theorem dataEnd_eq_ok {address length : Nat} (short : address + length < 0x100000000) :
    dataEnd address length = .ok (address + length) := by
  rw [dataEnd, Nat.mod_eq_of_lt (by omega), if_pos short]

def proceed (u : Updater g) (address : Nat) (data : Bytes) :
    Checked (Except StreamError Progress × Updater g) := do
  if address ≠ u.cursor then
    return (.error .outOfSequence, u)
  else if (← dataEnd address data.length) > u.flash.layout.applicationSize.toNat then
    return (.error .outOfRange, u)
  else
    match ← u.feed data with
    | (.error e, fed) => return (.error (.flash e), fed)
    | (.ok (), fed) => return (.ok (fed.progressSince u), fed)

theorem extend_eq (u : Updater g) (address : Nat) (data : Bytes) :
    u.extend address data =
      (if address = 0 then { u with cursor := 0 } else u).proceed address data := rfl

theorem proceed_of_short (u : Updater g) {address : Nat} {data : Bytes}
    (short : address + data.length < 0x100000000) :
    u.proceed address data =
      if address ≠ u.cursor then .ok (.error .outOfSequence, u)
      else if address + data.length > u.flash.layout.applicationSize.toNat then
        .ok (.error .outOfRange, u)
      else do
        match ← u.feed data with
        | (.error e, fed) => return (.error (.flash e), fed)
        | (.ok (), fed) => return (.ok (fed.progressSince u), fed) := by
  rw [proceed, dataEnd_eq_ok short]
  rfl

/-- What a write that may continue the image may come to. Where it fails, there was room for as much
of the length as counts. -/
inductive Proceeded (u : Updater g) (address : Nat) (data : Bytes) :
    Except StreamError Progress → Updater g → Prop
  | outOfSequence (elsewhere : address ≠ u.cursor) :
      Proceeded u address data (.error .outOfSequence) u
  | outOfRange (next : address = u.cursor)
      (past : u.flash.layout.applicationSize.toNat < address + data.length) :
      Proceeded u address data (.error .outOfRange) u
  | failed (next : address = u.cursor)
      (room : u.cursor + data.length % 0x100000000 ≤ u.flash.layout.applicationSize.toNat)
      (e : FlashError)
      (u' : Updater g) (fed : u.feed data = .ok (.error e, u')) :
      Proceeded u address data (.error (.flash e)) u'
  | taken (next : address = u.cursor)
      (room : u.cursor + data.length ≤ u.flash.layout.applicationSize.toNat) (u' : Updater g)
      (fed : u.feed data = .ok (.ok (), u')) :
      Proceeded u address data (.ok (u'.progressSince u)) u'

theorem proceeded {u u' : Updater g} {address : Nat} {data : Bytes}
    {report : Except StreamError Progress} (h : u.proceed address data = .ok (report, u')) :
    Proceeded u address data report u' := by
  unfold proceed at h
  split at h
  · rename_i elsewhere
    cases h
    exact .outOfSequence elsewhere
  · rename_i inSequence
    have next : address = u.cursor := Classical.not_not.1 inSequence
    obtain ⟨stop, summed, h⟩ := bind_eq_ok.1 h
    unfold dataEnd at summed
    split at summed
    · cases summed
      have cut := Nat.mod_le data.length 0x100000000
      split at h
      · rename_i past
        cases h
        exact .outOfRange next (by omega)
      · rename_i inRange
        rw [next] at inRange
        have room := Nat.le_of_not_lt inRange
        obtain ⟨⟨report₁, fed⟩, hf, h⟩ := bind_eq_ok.1 h
        cases report₁ with
        | error e =>
          cases h
          exact .failed next room e _ hf
        | ok done =>
          cases h
          refine .taken next ?_ _ hf
          -- Data that was taken is short, so nothing of its length was lost.
          obtain rfl | below := feed_length_lt hf
          · exact room
          · rwa [Nat.mod_eq_of_lt (by omega)] at room
    · cases summed

theorem extend_rewound {u u' : Updater g} {address : Nat} {data : Bytes} {error : FlashError}
    (h : u.extend address data = .ok (.error (.flash error), u')) : u'.Rewound := by
  rw [extend_eq] at h
  generalize (if address = 0 then { u with cursor := 0 } else u) = v at h
  cases proceeded h with
  | failed next room _ _ fed => exact feed_rewound fed

theorem placed_full {u : Updater g} (b : UInt8) (ready : u.Ready)
    (room : u.cursor < u.flash.layout.applicationSize.toNat)
    (full : (u.cursor + 1) % g.eraseSize = 0) :
    u.flash.Placed (u.cursor + 1 - g.eraseSize) (u.staging b).staged := by
  have pos := u.flash.sound.eraseSize_pos
  have hl := (u.staging_staged_length b).trans ready.staged
  have hle := Nat.le_of_dvd (Nat.succ_pos _) (Nat.dvd_of_mod_eq_zero full)
  refine ⟨?_, by omega, by omega, by omega⟩
  rw [← Nat.mod_eq_sub_mod hle, full]

theorem placed_tail {u : Updater g} (ready : u.Ready) (tail : u.cursor % g.eraseSize ≠ 0) :
    u.flash.Placed (u.cursor - u.cursor % g.eraseSize)
      (u.staged.take (u.cursor % g.eraseSize)) := by
  have hm := Nat.mod_lt u.cursor u.flash.sound.eraseSize_pos
  have hle := Nat.mod_le u.cursor g.eraseSize
  have hl : (u.staged.take (u.cursor % g.eraseSize)).length = u.cursor % g.eraseSize := by
    rw [List.length_take, ready.staged]
    omega
  have hc := ready.cursor
  exact ⟨Nat.sub_mod_eq_zero_of_mod_eq (by rw [Nat.mod_mod]), by omega, by omega, by omega⟩

theorem finish_whole {u : Updater g} (whole : u.cursor % g.eraseSize = 0) :
    u.finish = .ok (.ok (Progress.ofCommits []), u) := if_pos whole

theorem finish_tail {u : Updater g} (ready : u.Ready) (tail : u.cursor % g.eraseSize ≠ 0) :
    u.finish = (do
      let data := u.staged.take (u.cursor % g.eraseSize)
      let (outcome, flash) ← u.flash.commit u.completed data
      let done := u.committing u.completed data outcome flash
      match outcome with
      | .error e => return (.error e, done)
      | .ok _ => return (.ok (done.progressSince u), done)) := by
  have hm := Nat.mod_lt u.cursor u.flash.sound.eraseSize_pos
  have hs : u.cursor % g.eraseSize ≤ u.staged.length := by
    rw [ready.staged]
    exact Nat.le_of_lt hm
  refine (if_neg tail).trans ?_
  simp only [commit_eq hs]
  unfold completed
  cases u.flash.commit (u.cursor - u.cursor % g.eraseSize)
    (u.staged.take (u.cursor % g.eraseSize)) with
  | error crash => rfl
  | ok answer =>
    obtain ⟨outcome, flash⟩ := answer
    cases outcome with
    | error e => rfl
    | ok outcome => rfl

/-- The end of an image commits the block that the stream ends in, if there is one. -/
theorem finish_cases {u u' : Updater g} {report : Except FlashError Progress} (ready : u.Ready)
    (h : u.finish = .ok (report, u')) :
    (u.cursor % g.eraseSize = 0 ∧ report = .ok (Progress.ofCommits []) ∧ u' = u) ∨
      (u.cursor % g.eraseSize ≠ 0 ∧ ∃ outcome flash,
        u.flash.commit u.completed (u.staged.take (u.cursor % g.eraseSize)) =
          .ok (outcome, flash) ∧
        u' = u.committing u.completed (u.staged.take (u.cursor % g.eraseSize)) outcome flash ∧
        (report.map fun _ => ()) = outcome.map fun _ => ()) := by
  by_cases whole : u.cursor % g.eraseSize = 0
  · rw [finish_whole whole] at h
    cases h
    exact .inl ⟨whole, rfl, rfl⟩
  · rw [finish_tail ready whole] at h
    obtain ⟨⟨outcome, flash⟩, commit, h⟩ := bind_eq_ok.1 h
    cases outcome with
    | error e =>
      cases h
      exact .inr ⟨whole, _, _, commit, rfl, rfl⟩
    | ok outcome =>
      cases h
      exact .inr ⟨whole, _, _, commit, rfl, rfl⟩

theorem finish_ok {u u' : Updater g} {progress : Progress} (ready : u.Ready)
    (small : g.eraseSize < addressSpace) (h : u.finish = .ok (.ok progress, u')) :
    (u.cursor % g.eraseSize = 0 ∧ u' = u) ∨
      (u.cursor % g.eraseSize ≠ 0 ∧ u'.cursor = u.cursor ∧
        u.flash.Placed u.completed (u.staged.take (u.cursor % g.eraseSize)) ∧
        ∃ outcome, Programmer.Committed u.flash u.completed
          (u.staged.take (u.cursor % g.eraseSize)) (.ok outcome) u'.flash) := by
  obtain ⟨whole, -, rfl⟩ | ⟨tail, outcome, flash, commit, rfl, hr⟩ := finish_cases ready h
  · exact .inl ⟨whole, rfl⟩
  · have placed := u.placed_tail ready tail
    cases outcome with
    | error e => cases hr
    | ok outcome =>
      exact .inr ⟨tail, rfl, placed, outcome, Programmer.committed_of_commit placed small commit⟩

end Updater

/-- An updater and what it has accepted of the image. -/
structure Stream (g : Geometry) where
  updater : Updater g
  accepted : Bytes

namespace Stream

variable {g : Geometry}

def restarted (s : Stream g) : Stream g := ⟨{ s.updater with cursor := 0 }, []⟩

def begun (s : Stream g) (address : Nat) : Stream g := if address = 0 then s.restarted else s

/-- One step and how it went. -/
inductive Step : Stream g → Except FlashError Unit → Stream g → Prop
  /-- A byte is staged and its block is not complete. -/
  | stage (u : Updater g) (accepted : Bytes) (b : UInt8)
      (room : u.cursor < u.flash.layout.applicationSize.toNat)
      (short : (u.cursor + 1) % g.eraseSize ≠ 0) :
      Step ⟨u, accepted⟩ (.ok ()) ⟨u.staging b, accepted ++ [b]⟩
  /-- A byte completes its block and the block is committed. -/
  | complete (u : Updater g) (accepted : Bytes) (b : UInt8) (outcome : BlockOutcome)
      (flash : Programmer g) (room : u.cursor < u.flash.layout.applicationSize.toNat)
      (full : (u.cursor + 1) % g.eraseSize = 0)
      (commit : u.flash.commit (u.cursor + 1 - g.eraseSize) (u.staging b).staged =
        .ok (.ok outcome, flash)) :
      Step ⟨u, accepted⟩ (.ok ())
        ⟨(u.staging b).committing (u.cursor + 1 - g.eraseSize) (u.staging b).staged (.ok outcome)
          flash, accepted ++ [b]⟩
  /-- A byte completes its block and the commit fails: the block has to come again. -/
  | rewind (u : Updater g) (accepted : Bytes) (b : UInt8) (e : FlashError) (flash : Programmer g)
      (room : u.cursor < u.flash.layout.applicationSize.toNat)
      (full : (u.cursor + 1) % g.eraseSize = 0)
      (commit : u.flash.commit (u.cursor + 1 - g.eraseSize) (u.staging b).staged =
        .ok (.error e, flash)) :
      Step ⟨u, accepted⟩ (.error e)
        ⟨{ (u.staging b).committing (u.cursor + 1 - g.eraseSize) (u.staging b).staged (.error e)
            flash with cursor := u.cursor + 1 - g.eraseSize },
          accepted.take (u.cursor + 1 - g.eraseSize)⟩
  /-- The block that the stream ends in is committed or not; the stream stays where it is. -/
  | flush (u : Updater g) (accepted : Bytes) (outcome : Except FlashError BlockOutcome)
      (flash : Programmer g) (tail : u.cursor % g.eraseSize ≠ 0)
      (commit : u.flash.commit (u.cursor - u.cursor % g.eraseSize)
        (u.staged.take (u.cursor % g.eraseSize)) = .ok (outcome, flash)) :
      Step ⟨u, accepted⟩ (outcome.map fun _ => ())
        ⟨u.committing (u.cursor - u.cursor % g.eraseSize) (u.staged.take (u.cursor % g.eraseSize))
          outcome flash, accepted⟩
  /-- The erases are counted from zero again. -/
  | tally (u : Updater g) (accepted : Bytes) :
      Step ⟨u, accepted⟩ (.ok ()) ⟨{ u with flash := u.flash.takeErases.2 }, accepted⟩

abbrev Steps : Stream g → Stream g → Prop := Relation.ReflTransGen fun s s' => Step s (.ok ()) s'

inductive Runs (s : Stream g) : Except FlashError Unit → Stream g → Prop
  | done (s' : Stream g) (steps : Steps s s') : Runs s (.ok ()) s'
  | stopped (between : Stream g) (e : FlashError) (s' : Stream g) (steps : Steps s between)
      (last : Step between (.error e) s') : Runs s (.error e) s'

theorem Runs.head {s s₁ s' : Stream g} {report : Except FlashError Unit}
    (first : Step s (.ok ()) s₁) (h : Runs s₁ report s') : Runs s report s' := by
  cases h with
  | done _ steps => exact .done s' (.head first steps)
  | stopped between e _ steps last => exact .stopped between e s' (.head first steps) last

/-- What every step keeps, a run keeps. -/
theorem Runs.keeps {P : Stream g → Prop}
    (step : ∀ {s s' : Stream g} {report}, P s → Step s report s' → P s') {s s' : Stream g}
    {report : Except FlashError Unit} (h : Runs s report s') (hs : P s) : P s' := by
  have along : ∀ {s s' : Stream g}, Steps s s' → P s → P s' := by
    intro s s' steps hs
    induction steps with
    | refl => exact hs
    | tail _ last ih => exact step ih last
  cases h with
  | done _ steps => exact along steps hs
  | stopped between e _ steps last => exact step (along steps hs) last

/-- Steps however they go, and new images between them. -/
inductive Path (s : Stream g) : Stream g → Prop
  | refl : Path s s
  | restart (s' : Stream g) (before : Path s s') : Path s s'.restarted
  | runs (s' : Stream g) (before : Path s s') (report : Except FlashError Unit) (s'' : Stream g)
      (later : Runs s' report s'') : Path s s''

theorem Path.trans {s s' s'' : Stream g} (h : Path s s') (h' : Path s' s'') : Path s s'' := by
  induction h' with
  | refl => exact h
  | restart t _ ih => exact .restart t ih
  | runs t _ report t' later ih => exact .runs t ih report t' later

theorem Path.begun {s s' : Stream g} (address : Nat) (h : Path s s') :
    Path s (s'.begun address) := by
  unfold Stream.begun
  split
  · exact .restart s' h
  · exact h

theorem Path.keeps {P : Stream g → Prop} (restart : ∀ {s : Stream g}, P s → P s.restarted)
    (step : ∀ {s s' : Stream g} {report}, P s → Step s report s' → P s') {s s' : Stream g}
    (h : Path s s') (hs : P s) : P s' := by
  induction h with
  | refl => exact hs
  | restart t _ ih => exact restart ih
  | runs t _ report t' later ih => exact later.keeps step ih

/-- The stream's updater is ready and its cursor counts the accepted bytes. -/
structure Coherent (s : Stream g) : Prop where
  ready : s.updater.Ready
  length : s.accepted.length = s.updater.cursor

/-- All that a step does to flash is to commit the block behind the complete ones, if anything. -/
theorem Step.flash_cases {s s' : Stream g} {report : Except FlashError Unit}
    (step : Step s report s') (small : g.eraseSize < addressSpace) (ready : s.updater.Ready) :
    (s'.updater.flash.chip = s.updater.flash.chip ∧
        s'.updater.flash.layout = s.updater.flash.layout) ∨
      ∃ data outcome, s.updater.flash.Placed s.updater.completed data ∧
        Programmer.Committed s.updater.flash s.updater.completed data outcome
          s'.updater.flash := by
  cases step with
  | stage u accepted b room short => exact .inl ⟨rfl, rfl⟩
  | complete u accepted b outcome flash room full commit =>
    have placed := u.placed_full b ready room full
    have hd := Programmer.committed_of_commit placed small commit
    rw [← Updater.completed_of_full full] at placed hd
    exact .inr ⟨_, _, placed, hd⟩
  | rewind u accepted b e flash room full commit =>
    have placed := u.placed_full b ready room full
    have hd := Programmer.committed_of_commit placed small commit
    rw [← Updater.completed_of_full full] at placed hd
    exact .inr ⟨_, _, placed, hd⟩
  | flush u accepted outcome flash tail commit =>
    have placed := u.placed_tail ready tail
    exact .inr ⟨_, _, placed, Programmer.committed_of_commit placed small commit⟩
  | tally u accepted => exact .inl ⟨rfl, rfl⟩

theorem Step.layout_eq {s s' : Stream g} {report : Except FlashError Unit} (step : Step s report s')
    (small : g.eraseSize < addressSpace) (ready : s.updater.Ready) :
    s'.updater.flash.layout = s.updater.flash.layout := by
  obtain ⟨-, same⟩ | ⟨data, outcome, placed, committed⟩ := step.flash_cases small ready
  · exact same
  · exact committed.layout_eq

theorem Step.completed_le {s s' : Stream g} {report : Except FlashError Unit}
    (step : Step s report s') : s.updater.completed ≤ s'.updater.completed := by
  cases step with
  | stage u accepted b room short => exact Nat.le_of_eq (u.completed_staging b short).symm
  | complete u accepted b outcome flash room full commit =>
    simp only [u.completed_committing b full]
    exact Nat.le_add_right _ _
  | rewind u accepted b e flash room full commit =>
    have aligned : (u.cursor + 1 - g.eraseSize) % g.eraseSize = 0 := by
      rw [← Nat.mod_eq_sub_mod (Nat.le_of_dvd (Nat.succ_pos _) (Nat.dvd_of_mod_eq_zero full)), full]
    have hc : Updater.completed { (u.staging b).committing (u.cursor + 1 - g.eraseSize)
        (u.staging b).staged (.error e) flash with cursor := u.cursor + 1 - g.eraseSize } =
        u.cursor + 1 - g.eraseSize := Updater.completed_of_aligned aligned
    simp only [hc]
    exact Nat.le_of_eq (Updater.completed_of_full full)
  | flush u accepted outcome flash tail commit => exact Nat.le_refl _
  | tally u accepted => exact Nat.le_refl _

theorem Step.coherent {s s' : Stream g} {report : Except FlashError Unit} (step : Step s report s')
    (small : g.eraseSize < addressSpace) (h : s.Coherent) : s'.Coherent := by
  have hl := step.layout_eq small h.ready
  obtain ⟨⟨hs, hc⟩, hlen⟩ := h
  cases step with
  | stage u accepted b room short =>
    exact ⟨⟨(u.staging_staged_length b).trans hs, room⟩, by
      rw [List.length_append, hlen]
      rfl⟩
  | complete u accepted b outcome flash room full commit =>
    refine ⟨⟨(u.staging_staged_length b).trans hs, ?_⟩, ?_⟩
    · rw [hl]
      exact room
    · rw [List.length_append, hlen]
      rfl
  | rewind u accepted b e flash room full commit =>
    have pos := u.flash.sound.eraseSize_pos
    simp only at hlen room
    refine ⟨⟨(u.staging_staged_length b).trans hs, ?_⟩, ?_⟩
    · rw [hl]
      simp only
      omega
    · rw [List.length_take]
      simp only
      omega
  | flush u accepted outcome flash tail commit =>
    refine ⟨⟨hs, ?_⟩, hlen⟩
    rw [hl]
    exact hc
  | tally u accepted => exact ⟨⟨hs, hc⟩, hlen⟩

theorem Coherent.restarted {s : Stream g} (h : s.Coherent) : s.restarted.Coherent :=
  ⟨⟨h.ready.staged, Nat.zero_le _⟩, rfl⟩

theorem Coherent.begun {s : Stream g} (h : s.Coherent) (address : Nat) :
    (s.begun address).Coherent := by
  unfold Stream.begun
  split
  · exact h.restarted
  · exact h

def taken (accepted data : Bytes) (cursor : Nat) : Except FlashError Unit → Bytes
  | .ok () => accepted ++ data
  | .error _ => (accepted ++ data).take cursor

theorem feed_runs (small : g.eraseSize < addressSpace) {u u' : Updater g} {accepted data : Bytes}
    {report : Except FlashError Unit} (h : Coherent ⟨u, accepted⟩)
    (room : u.cursor + data.length ≤ u.flash.layout.applicationSize.toNat)
    (hf : u.feed data = .ok (report, u')) :
    Runs ⟨u, accepted⟩ report ⟨u', taken accepted data u'.cursor report⟩ := by
  -- On the bytes; that there is room for them all carries over to what is left of them.
  induction data generalizing u accepted with
  | nil =>
    cases hf
    unfold taken
    rw [List.append_nil]
    exact .done _ .refl
  | cons b rest ih =>
    rw [List.length_cons] at room
    have hb : taken accepted (b :: rest) = taken (accepted ++ [b]) rest := by
      funext cursor report
      cases report <;> simp [taken]
    have room' : u.cursor < u.flash.layout.applicationSize.toNat := by omega
    rw [hb]
    by_cases full : (u.cursor + 1) % g.eraseSize = 0
    · rw [Updater.feed_cons_full h.ready room' full] at hf
      obtain ⟨⟨outcome, flash⟩, commit, hf⟩ := bind_eq_ok.1 hf
      cases outcome with
      | error e =>
        cases hf
        have step := Step.rewind u accepted b e flash room' full commit
        -- What is cut off begins before the byte that completed the block.
        have hcut : accepted.take (u.cursor + 1 - g.eraseSize) =
            (accepted ++ [b] ++ rest).take (u.cursor + 1 - g.eraseSize) := by
          have := u.flash.sound.eraseSize_pos
          have := h.length
          simp only at this
          rw [List.append_assoc, List.take_append_of_le_length (by omega)]
        rw [hcut] at step
        exact .stopped _ e _ .refl step
      | ok outcome =>
        have step := Step.complete u accepted b outcome flash room' full commit
        have hl := step.layout_eq small h.ready
        have room₁ : u.cursor + 1 + rest.length ≤ flash.layout.applicationSize.toNat := by
          simp only [Updater.committing] at hl
          rw [hl]
          omega
        exact .head step (ih (step.coherent small h) room₁ hf)
    · rw [Updater.feed_cons_open room' full] at hf
      have step := Step.stage u accepted b room' full
      have room₁ : u.cursor + 1 + rest.length ≤ u.flash.layout.applicationSize.toNat := by omega
      exact .head step (ih (step.coherent small h) room₁ hf)

/-- What is accepted after a write that may continue the image: a success adds the data, and a
block that fails cuts back to the cursor. -/
def grown (accepted data : Bytes) (cursor : Nat) : Except StreamError Progress → Bytes
  | .ok _ => accepted ++ data
  | .error (.flash _) => (accepted ++ data).take cursor
  | .error .outOfSequence => accepted
  | .error .outOfRange => accepted

/-- What is accepted after a write; one to address zero first empties it. -/
def accept (accepted : Bytes) (address : Nat) (data : Bytes) (cursor : Nat)
    (report : Except StreamError Progress) : Bytes :=
  grown (if address = 0 then [] else accepted) data cursor report

def stepReport : Except StreamError Progress → Except FlashError Unit
  | .ok _ => .ok ()
  | .error (.flash e) => .error e
  | .error .outOfSequence => .ok ()
  | .error .outOfRange => .ok ()

/-- Where flash fails a write that may continue the image, its data has to be shorter than `2^32`
bytes: the range of longer data is not checked in full. -/
theorem proceed_runs (small : g.eraseSize < addressSpace) {u u' : Updater g}
    {accepted data : Bytes} {address : Nat} {report : Except StreamError Progress}
    (short : ∀ e, report = .error (.flash e) → data.length < 0x100000000)
    (h : Coherent ⟨u, accepted⟩) (he : u.proceed address data = .ok (report, u')) :
    Runs ⟨u, accepted⟩ (stepReport report) ⟨u', grown accepted data u'.cursor report⟩ := by
  cases Updater.proceeded he with
  | outOfSequence elsewhere => exact .done _ .refl
  | outOfRange next past => exact .done _ .refl
  | failed next room e _ fed =>
    rw [Nat.mod_eq_of_lt (short e rfl)] at room
    exact feed_runs small h room fed
  | taken next room _ fed => exact feed_runs small h room fed

theorem extend_begun (s : Stream g) (address : Nat) (data : Bytes) :
    s.updater.extend address data = (s.begun address).updater.proceed address data := by
  rw [Updater.extend_eq]
  unfold begun
  split <;> rfl

theorem begun_flash (s : Stream g) (address : Nat) :
    (s.begun address).updater.flash = s.updater.flash := by
  unfold begun
  split <;> rfl

theorem begun_commits (s : Stream g) (address : Nat) :
    (s.begun address).updater.commits = s.updater.commits := by
  unfold begun
  split <;> rfl

theorem extend_runs (small : g.eraseSize < addressSpace) {u u' : Updater g} {accepted data : Bytes}
    {address : Nat} {report : Except StreamError Progress}
    (short : ∀ e, report = .error (.flash e) → data.length < 0x100000000)
    (h : (begun ⟨u, accepted⟩ address).Coherent)
    (he : u.extend address data = .ok (report, u')) :
    Runs (begun ⟨u, accepted⟩ address) (stepReport report)
      ⟨u', accept accepted address data u'.cursor report⟩ := by
  rw [extend_begun ⟨u, accepted⟩] at he
  unfold accept
  unfold begun at h he ⊢
  split
  · rename_i zero
    rw [if_pos zero] at he h
    exact proceed_runs small short h he
  · rename_i later
    rw [if_neg later] at he h
    exact proceed_runs small short h he

theorem extend_in_sequence {u : Updater g} {accepted data : Bytes} {address : Nat}
    (next : (begun ⟨u, accepted⟩ address).updater.cursor = address)
    (room : address + data.length ≤ u.flash.layout.applicationSize.toNat) :
    u.extend address data = (do
      let (report, fed) ← (begun ⟨u, accepted⟩ address).updater.feed data
      match report with
      | .error e => return (.error (.flash e), fed)
      | .ok () => return (.ok (fed.progressSince (begun ⟨u, accepted⟩ address).updater), fed)) := by
  rw [extend_begun ⟨u, accepted⟩, Updater.proceed_of_short _ (Updater.short_of_room room),
    if_neg (fun h => h next.symm), begun_flash, if_neg (by simp only; omega)]
  cases (begun ⟨u, accepted⟩ address).updater.feed data with
  | error crash => rfl
  | ok answer =>
    obtain ⟨report, fed⟩ := answer
    cases report with
    | error e => rfl
    | ok done => rfl

theorem finish_runs {u u' : Updater g} {accepted : Bytes} {report : Except FlashError Progress}
    (h : Coherent ⟨u, accepted⟩) (hf : u.finish = .ok (report, u')) :
    Runs ⟨u, accepted⟩ (report.map fun _ => ()) ⟨u', accepted⟩ := by
  obtain ⟨-, rfl, rfl⟩ | ⟨tail, outcome, flash, commit, rfl, hr⟩ := Updater.finish_cases h.ready hf
  · exact .done _ .refl
  · have step := Step.flush u accepted outcome flash tail commit
    rw [hr]
    cases outcome with
    | error e => exact .stopped _ e _ .refl step
    | ok outcome => exact .done _ (.single step)

end Stream

end FieldUpdate
