import FieldUpdate.Proofs.Relocation
import FieldUpdate.Proofs.StreamSteps

namespace FieldUpdate

namespace Layout

variable {l : Layout} {n start x : Nat} {view : Nat → UInt8} {data : Bytes}

theorem committed_data (free : ¬l.Guarded x) (hx : start ≤ x ∧ x < start + data.length) :
    l.committed n view start data x = data.getD (x - start) 0xff := by
  rw [committed, if_neg fun h => free h.1, if_pos hx]

end Layout

namespace Stream

variable {g : Geometry}

/-- Staged bytes and flash agree with what was accepted. -/
structure Faithful (s : Stream g) : Prop where
  coherent : s.Coherent
  tail : s.updater.staged.take (s.updater.cursor % g.eraseSize) =
    s.accepted.drop (s.updater.cursor - s.updater.cursor % g.eraseSize)
  blocks : ∀ x < s.updater.cursor - s.updater.cursor % g.eraseSize,
    ¬s.updater.flash.layout.Guarded x → s.accepted[x]? = some (s.updater.flash.stored x)

theorem take_set_succ {staged : Bytes} {i : Nat} (b : UInt8) (h : i < staged.length) :
    (staged.set i b).take (i + 1) = staged.take i ++ [b] := by
  apply List.ext_getElem?
  intro j
  rw [List.getElem?_take, List.getElem?_set, List.getElem?_append, List.getElem?_take,
    List.length_take, Nat.min_eq_left (Nat.le_of_lt h)]
  by_cases hj : j < i
  · rw [if_pos (by omega), if_neg (by omega), if_pos hj, if_pos hj]
  · by_cases hi : i = j
    · subst hi
      rw [if_pos (by omega), if_pos rfl, if_pos h, if_neg hj, Nat.sub_self]
      rfl
    · rw [if_neg (by omega), if_neg hj, List.getElem?_eq_none (by simp; omega)]

theorem Faithful.staging {u : Updater g} {accepted : Bytes} (h : Faithful ⟨u, accepted⟩)
    (b : UInt8) :
    (u.staging b).staged.take (u.cursor % g.eraseSize + 1) =
      (accepted ++ [b]).drop (u.cursor - u.cursor % g.eraseSize) := by
  have hm := Nat.mod_lt u.cursor u.flash.sound.eraseSize_pos
  have hs := h.coherent.ready.staged
  have hlen := h.coherent.length
  simp only at hs hlen
  rw [Updater.staging, take_set_succ b (by omega), h.tail,
    List.drop_append_of_le_length (by omega)]

theorem Faithful.staging_full {u : Updater g} {accepted : Bytes} (h : Faithful ⟨u, accepted⟩)
    (b : UInt8) (full : (u.cursor + 1) % g.eraseSize = 0) :
    (u.staging b).staged = (accepted ++ [b]).drop (u.cursor + 1 - g.eraseSize) := by
  have hm := mod_succ_of_eq u.flash.sound.eraseSize_pos full
  have hs := (u.staging_staged_length b).trans h.coherent.ready.staged
  have hle := Nat.mod_le u.cursor g.eraseSize
  have ht := h.staging b
  rw [hm, show u.cursor - u.cursor % g.eraseSize = u.cursor + 1 - g.eraseSize by omega,
    List.take_of_length_le (Nat.le_of_eq hs)] at ht
  exact ht

theorem getElem?_of_take_eq_drop {staged accepted : Bytes} {k start : Nat}
    (h : staged.take k = accepted.drop start) {x : Nat} (hx : start ≤ x) (hk : x < start + k)
    (hs : k ≤ staged.length) : accepted[x]? = some (staged.getD (x - start) 0xff) := by
  have he := congrArg (·[x - start]?) h
  rw [List.getElem?_take, if_pos (by omega), List.getElem?_drop, Nat.add_sub_cancel' hx] at he
  rw [← he, List.getD_eq_getElem?_getD, List.getElem?_eq_getElem (by omega)]
  rfl

theorem Step.faithful {s s' : Stream g} {report : Except FlashError Unit} (step : Step s report s')
    (small : g.eraseSize < addressSpace) (h : s.Faithful) : s'.Faithful := by
  have hc := step.coherent small h.coherent
  have hl := step.layout_eq small h.coherent.ready
  have hlen := h.coherent.length
  have hready := h.coherent.ready
  cases step with
  | stage u accepted b room short =>
    have hm := mod_succ_of_ne u.flash.sound.eraseSize_pos short
    have hc' : (u.staging b).cursor = u.cursor + 1 := rfl
    have hle := Nat.mod_le u.cursor g.eraseSize
    simp only at hlen
    refine ⟨hc, ?_, ?_⟩
    · simp only [hc', hm, Nat.add_sub_add_right]
      exact h.staging b
    · intro x hx free
      simp only [hc', hm, Nat.add_sub_add_right] at hx
      rw [List.getElem?_append_left (by omega)]
      exact h.blocks x hx free
  | complete u accepted b outcome flash room full commit =>
    have hm := mod_succ_of_eq u.flash.sound.eraseSize_pos full
    have placed := u.placed_full b hready room full
    have hd := Programmer.committed_of_commit placed small commit
    have hc' : (u.staging b).cursor = u.cursor + 1 := rfl
    have hs : (u.staging b).staged.length = g.eraseSize :=
      (u.staging_staged_length b).trans hready.staged
    have hstart : u.cursor - u.cursor % g.eraseSize = u.cursor + 1 - g.eraseSize := by omega
    simp only at hlen
    refine ⟨hc, ?_, ?_⟩
    · -- The next block has nothing staged yet.
      simp only [Updater.committing, hc', full, List.take_zero]
      rw [List.drop_eq_nil_of_le (by rw [List.length_append, hlen]; exact Nat.le_refl _)]
    · intro x hx free
      simp only [Updater.committing, hc', full, Nat.sub_zero] at hx free ⊢
      rw [hd.layout_eq] at free
      -- Blocks before this one are out of reach, and this one has the staged bytes.
      by_cases hb : x < u.cursor + 1 - g.eraseSize
      · rw [hd.stored_before hb, List.getElem?_append_left (by omega)]
        exact h.blocks x (by simp only; omega) free
      · have ht := h.staging b
        rw [hm, hstart] at ht
        rw [hd.stored_of_ok placed, Layout.committed_data free (by omega)]
        exact getElem?_of_take_eq_drop ht (by omega) (by omega) (Nat.le_of_eq hs.symm)
  | rewind u accepted b e flash room full commit =>
    have hm := mod_succ_of_eq u.flash.sound.eraseSize_pos full
    have placed := u.placed_full b hready room full
    have hd := Programmer.committed_of_commit placed small commit
    simp only at hlen
    refine ⟨hc, ?_, ?_⟩
    · simp only [placed.aligned, List.take_zero, Nat.sub_zero]
      rw [List.drop_eq_nil_of_le (by rw [List.length_take]; exact Nat.min_le_left _ _)]
    · -- The failed block is not complete any more, and those before it are as they were.
      intro x hx free
      simp only [placed.aligned, Nat.sub_zero] at hx free ⊢
      simp only [Updater.committing] at free ⊢
      rw [hd.layout_eq] at free
      rw [hd.stored_before hx, List.getElem?_take_of_lt hx]
      exact h.blocks x (by simp only; omega) free
  | flush u accepted outcome flash tail commit =>
    have hd := Programmer.committed_of_commit (u.placed_tail hready tail) small commit
    refine ⟨hc, h.tail, ?_⟩
    intro x hx free
    simp only [Updater.committing] at hx free ⊢
    rw [hd.layout_eq] at free
    rw [hd.stored_before hx]
    exact h.blocks x hx free
  | tally u accepted => exact ⟨hc, h.tail, h.blocks⟩

theorem Faithful.finish (small : g.eraseSize < addressSpace) {u u' : Updater g} {accepted : Bytes}
    {progress : Progress} (h : Faithful ⟨u, accepted⟩) (hf : u.finish = .ok (.ok progress, u'))
    {x : Nat} (hx : x < u.cursor) (free : ¬u.flash.layout.Guarded x) :
    accepted[x]? = some (u'.flash.stored x) := by
  have ready : u.Ready := h.coherent.ready
  obtain ⟨whole, rfl⟩ | ⟨tail, -, placed, outcome, hd⟩ := Updater.finish_ok ready small hf
  · exact h.blocks x (by simp only [whole]; exact hx) free
  · have hm := Nat.mod_lt u.cursor u.flash.sound.eraseSize_pos
    have hl : (u.staged.take (u.cursor % g.eraseSize)).length = u.cursor % g.eraseSize := by
      rw [List.length_take, ready.staged]
      omega
    unfold Updater.completed at hd placed
    -- Complete blocks are in flash already, and the others are what is staged.
    by_cases hb : x < u.cursor - u.cursor % g.eraseSize
    · rw [hd.stored_before hb]
      exact h.blocks x hb free
    · rw [hd.stored_of_ok placed, Layout.committed_data free (by omega)]
      refine getElem?_of_take_eq_drop (k := u.cursor % g.eraseSize) ?_ (by omega) (by omega)
        (by omega)
      rw [List.take_take, Nat.min_self]
      exact h.tail

/-- The streams that writes and ends of images reach on a new updater. A write of `2^32` bytes or more
counts as a shorter one where its range is checked, so flash may fail it behind the application, as
it does in `Updater.extend_overlong`; such failures are left out. -/
inductive Reached (flash : Programmer g) : Stream g → Prop
  | idle : Reached flash ⟨Updater.idle flash, []⟩
  | write (u : Updater g) (accepted : Bytes) (before : Reached flash ⟨u, accepted⟩)
      (address : Nat) (data : Bytes) (report : Except StreamError Progress) (u' : Updater g)
      (answer : u.extend address data = .ok (report, u'))
      (short : ∀ e, report = .error (.flash e) → data.length < 0x100000000) :
      Reached flash ⟨u', accept accepted address data u'.cursor report⟩
  | finish (u : Updater g) (accepted : Bytes) (before : Reached flash ⟨u, accepted⟩)
      (report : Except FlashError Progress) (u' : Updater g)
      (answer : u.finish = .ok (report, u')) : Reached flash ⟨u', accepted⟩

theorem faithful_idle (flash : Programmer g) : Faithful ⟨Updater.idle flash, []⟩ := by
  refine ⟨⟨⟨List.length_replicate, Nat.zero_le _⟩, rfl⟩, ?_, ?_⟩
  · simp [Updater.idle]
  · intro x hx
    simp [Updater.idle] at hx

theorem Coherent.faithful_restarted {s : Stream g} (h : s.Coherent) : s.restarted.Faithful := by
  refine ⟨h.restarted, by simp [Stream.restarted], ?_⟩
  intro x hx
  simp [Stream.restarted] at hx

theorem Faithful.begun {s : Stream g} (h : s.Faithful) (address : Nat) :
    (s.begun address).Faithful := by
  unfold Stream.begun
  split
  · exact h.coherent.faithful_restarted
  · exact h

theorem begun_layout (s : Stream g) (address : Nat) :
    (s.begun address).updater.flash.layout = s.updater.flash.layout := by
  rw [begun_flash]

theorem Runs.faithful {s s' : Stream g} {report : Except FlashError Unit} (h : Runs s report s')
    (small : g.eraseSize < addressSpace) (hs : s.Faithful) :
    s'.Faithful ∧ s'.updater.flash.layout = s.updater.flash.layout :=
  h.keeps (P := fun t => t.Faithful ∧ t.updater.flash.layout = s.updater.flash.layout)
    (fun ht step => ⟨step.faithful small ht.1, (step.layout_eq small ht.1.coherent.ready).trans ht.2⟩)
    ⟨hs, rfl⟩

theorem Reached.faithful {flash : Programmer g} {s : Stream g} (small : g.eraseSize < addressSpace)
    (h : Reached flash s) : s.Faithful ∧ s.updater.flash.layout = flash.layout := by
  induction h with
  | idle => exact ⟨faithful_idle flash, rfl⟩
  | write u accepted before address data report u' answer short ih =>
    have runs := extend_runs small short (ih.1.coherent.begun address) answer
    obtain ⟨hs, hl⟩ := runs.faithful small (ih.1.begun address)
    exact ⟨hs, hl.trans ((begun_layout _ _).trans ih.2)⟩
  | finish u accepted before report u' answer ih =>
    obtain ⟨hs, hl⟩ := (finish_runs ih.1.coherent answer).faithful small ih.1
    exact ⟨hs, hl.trans ih.2⟩

end Stream

end FieldUpdate
