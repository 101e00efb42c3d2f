import FieldUpdate.Proofs.Crashes
import FieldUpdate.Proofs.Journal

namespace FieldUpdate

namespace Progress

def plus (first second : Progress) : Progress :=
  ⟨min 255 (first.written + second.written), min 255 (first.unchanged + second.unchanged)⟩

theorem ofCommits_append (later earlier : List Commit) :
    ofCommits (later ++ earlier) = (ofCommits earlier).plus (ofCommits later) := by
  have saturate (a b : Nat) : min 255 (a + b) = min 255 (min 255 b + min 255 a) := by omega
  rw [ofCommits, List.countP_append, List.countP_append, saturate, saturate (List.countP _ later)]
  rfl

end Progress

theorem Programmer.layout_of_commit {g : Geometry} {p p' : Programmer g} {start : Nat} {data : Bytes}
    {report : Except FlashError BlockOutcome} (h : p.commit start data = .ok (report, p')) :
    p'.layout = p.layout := by
  have kept : KeptByUpdates _ := p.journal_kept
  obtain ⟨events, journal⟩ := kept.commit ⟨[], .refl p⟩ h
  exact journal.layout_eq

namespace Updater

variable {g : Geometry} {u u' u'' : Updater g} {data : Bytes}

/-- Bytes are taken in order, and none after a block that fails. -/
theorem feed_append (u : Updater g) (first second : Bytes) :
    u.feed (first ++ second) = (do
      match ← u.feed first with
      | (.error e, fed) => return (.error e, fed)
      | (.ok (), fed) => fed.feed second) := by
  induction first generalizing u with
  | nil => rfl
  | cons b rest ih =>
    rw [List.cons_append, feed, feed]
    cases u.stage b with
    | error crash => rfl
    | ok staged =>
      by_cases full : staged.cursor % g.eraseSize = 0
      · simp only [bind, Except.bind, if_pos full]
        rcases staged.commit (staged.cursor - g.eraseSize % addressSpace) g.eraseSize with
          _ | ⟨_ | _, u₁⟩
        · rfl
        · rfl
        · exact ih u₁
      · simp only [bind, Except.bind, if_neg full]
        exact ih staged

structure Fed (u : Updater g) (data : Bytes) (u' : Updater g) : Prop where
  cursor : u'.cursor = u.cursor + data.length
  layout : u'.flash.layout = u.flash.layout
  commits : ∃ later, u'.commits = later ++ u.commits

theorem commit_fed {start len : Nat} {report : Except FlashError Unit}
    (h : u.commit start len = .ok (report, u')) : u.Fed [] u' := by
  obtain ⟨data, -, h⟩ := bind_eq_ok.1 h
  obtain ⟨⟨outcome, flash⟩, commit, h⟩ := bind_eq_ok.1 h
  cases h
  exact ⟨rfl, Programmer.layout_of_commit commit, [_], rfl⟩

theorem stage_fed {b : UInt8} (h : u.stage b = .ok u') : u.Fed [b] u' := by
  obtain ⟨cursor, next, h⟩ := bind_eq_ok.1 h
  unfold advance at next
  split at next
  · cases next
    cases h
    exact ⟨rfl, rfl, [], rfl⟩
  · cases next

theorem Fed.trans {first second : Bytes} (h : u.Fed first u') (h' : u'.Fed second u'') :
    u.Fed (first ++ second) u'' := by
  obtain ⟨earlier, he⟩ := h.commits
  obtain ⟨later, hl⟩ := h'.commits
  refine ⟨?_, h'.layout.trans h.layout, later ++ earlier, ?_⟩
  · rw [h'.cursor, h.cursor, List.length_append, Nat.add_assoc]
  · rw [hl, he, List.append_assoc]

theorem fed_of_feed (h : u.feed data = .ok (.ok (), u')) : u.Fed data u' := by
  induction data generalizing u with
  | nil =>
    cases h
    exact ⟨rfl, rfl, [], rfl⟩
  | cons b rest ih =>
    obtain ⟨staged, stage, h⟩ := bind_eq_ok.1 h
    have first := stage_fed stage
    split at h
    · obtain ⟨⟨_ | _, u₁⟩, commit, h⟩ := bind_eq_ok.1 h
      · cases h
      · exact (first.trans (commit_fed commit)).trans (ih h)
    · exact first.trans (ih h)

theorem progressSince_trans {first second : Bytes} (h : u.Fed first u') (h' : u'.Fed second u'') :
    u''.progressSince u = (u'.progressSince u).plus (u''.progressSince u') := by
  obtain ⟨earlier, he⟩ := h.commits
  obtain ⟨later, hl⟩ := h'.commits
  have between {new old : List Commit} :
      (new ++ old).take ((new ++ old).length - old.length) = new := by
    rw [List.length_append, Nat.add_sub_cancel, List.take_left]
  simp only [progressSince]
  rw [hl, he, ← List.append_assoc, between, between, Progress.ofCommits_append]
  rw [List.append_assoc, between]

theorem extend_zero_of_feed
    (room : data.length ≤ u.flash.layout.applicationSize.toNat)
    (fed : ({ u with cursor := 0 } : Updater g).feed data = .ok (.ok (), u')) :
    u.extend 0 data = .ok (.ok (u'.progressSince { u with cursor := 0 }), u') := by
  have begun : (if 0 = 0 then { u with cursor := 0 } else u : Updater g) = { u with cursor := 0 } :=
    rfl
  rw [← Nat.zero_add data.length] at room
  rw [extend_eq, begun, proceed_of_short _ (short_of_room room), if_neg (fun h => h rfl),
    if_neg (Nat.not_lt.2 room), fed]
  rfl

/-- A write in two parts; the second is not sent if the first fails. -/
def extendInTurn (u : Updater g) (address : Nat) (first second : Bytes) :
    Checked (Except StreamError Progress × Updater g) := do
  match ← u.extend address first with
  | (.error e, u₁) => return (.error e, u₁)
  | (.ok progress₁, u₁) =>
    match ← u₁.extend (address + first.length) second with
    | (.error e, u₂) => return (.error e, u₂)
    | (.ok progress₂, u₂) => return (.ok (progress₁.plus progress₂), u₂)

theorem Fed.extend_next {address : Nat} {first second : Bytes} (h : u.Fed first u')
    (next : address = u.cursor)
    (room : address + first.length + second.length ≤ u.flash.layout.applicationSize.toNat) :
    u'.extend (address + first.length) second = (do
      match ← u'.feed second with
      | (.error e, fed) => return (.error (.flash e), fed)
      | (.ok (), fed) => return (.ok (fed.progressSince u'), fed)) := by
  have cursor : u'.cursor = address + first.length := by rw [h.cursor, next]
  -- At address zero the cursor is there already.
  have begun : (if address + first.length = 0 then { u' with cursor := 0 } else u') = u' := by
    split
    · rename_i zero
      rw [← cursor] at zero
      rw [← zero]
    · rfl
  rw [extend_eq, begun, proceed_of_short _ (short_of_room room)]
  refine (if_neg fun h => h cursor.symm).trans ((if_neg ?_).trans ?_)
  · rw [h.layout]
    exact Nat.not_lt.2 room
  · rcases u'.feed second with _ | ⟨_ | _, u''⟩ <;> rfl

theorem extend_append {address : Nat} {first second : Bytes}
    (room : address + first.length + second.length ≤ u.flash.layout.applicationSize.toNat) :
    u.extend address (first ++ second) = u.extendInTurn address first second := by
  rw [extendInTurn, extend_eq, extend_eq]
  have flash : (if address = 0 then { u with cursor := 0 } else u).flash = u.flash := by
    split <;> rfl
  rw [← flash] at room
  -- From here on, only the stream that the write begins or continues counts.
  generalize (if address = 0 then { u with cursor := 0 } else u) = v at room ⊢
  have whole : address + (first ++ second).length ≤ v.flash.layout.applicationSize.toNat := by
    rw [List.length_append]
    omega
  have part : address + first.length ≤ v.flash.layout.applicationSize.toNat := by omega
  rw [proceed_of_short v (short_of_room whole), proceed_of_short v (short_of_room part)]
  by_cases next : address = v.cursor
  · rw [if_neg (fun h => h next), if_neg (Nat.not_lt.2 whole), if_neg (fun h => h next),
      if_neg (Nat.not_lt.2 part), feed_append]
    cases fed : v.feed first with
    | error crash => rfl
    | ok answer =>
      obtain ⟨_ | _, u₁⟩ := answer
      · rfl
      · have earlier := fed_of_feed fed
        simp only [bind, Except.bind, pure, Except.pure]
        rw [earlier.extend_next next room]
        cases later : u₁.feed second with
        | error crash => rfl
        | ok answer =>
          obtain ⟨_ | _, u₂⟩ := answer
          · rfl
          · simp only [bind, Except.bind, pure, Except.pure,
              progressSince_trans earlier (fed_of_feed later)]
  · rw [if_pos next, if_pos next]
    rfl

/-- A write that is split cannot be told from the whole: the same error or success, the same updater
with its flash, its schedule of faults and its count of erases, and the progress in sum. With a slot
that fits a block there is an answer, so neither has a crash to compare. -/
theorem extend_split {address : Nat} {first second : Bytes}
    (room : address + first.length + second.length ≤ u.flash.layout.applicationSize.toNat) :
    u.extend address (first ++ second) = u.extendInTurn address first second ∧
      (g.eraseSize < addressSpace → u.Ready → u.flash.layout.SlotFits g.eraseSize →
        ∃ report u', u.extendInTurn address first second = .ok (report, u')) := by
  refine ⟨extend_append room, fun small ready fits => ?_⟩
  rw [← extend_append room]
  cases run : u.extend address (first ++ second) with
  | ok answer => exact ⟨answer.1, answer.2, rfl⟩
  | error crash =>
    have whole : address + (first ++ second).length ≤ u.flash.layout.applicationSize.toNat := by
      rw [List.length_append]
      omega
    obtain ⟨-, front, -, tears⟩ := (extend_crash_iff small ready (short_of_room whole)).1 run
    exact absurd tears (Programmer.not_tears_of_fits fits)

/-- The fourth byte completes a block whose first page meets a fault, in the second part as in the
whole. -/
theorem extend_split_failing :
    (Updater.idle (.small [⟨3, 8⟩])).extend 0 ([0x12, 0xc0, 3] ++ [4, 5, 6]) =
        (Updater.idle (.small [⟨3, 8⟩])).extendInTurn 0 [0x12, 0xc0, 3] [4, 5, 6] ∧
      ((Updater.idle (.small [⟨3, 8⟩])).extendInTurn 0 [0x12, 0xc0, 3] [4, 5, 6]).map Prod.fst =
        .ok (.error (.flash (.hardware 8))) :=
  ⟨(extend_split (by decide)).1, by decide +kernel⟩

end Updater

end FieldUpdate
