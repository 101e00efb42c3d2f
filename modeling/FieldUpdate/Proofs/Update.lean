import FieldUpdate.Proofs.Vector

namespace FieldUpdate

def blocksEnd (eraseSize len : Nat) : Nat := (len + eraseSize - 1) / eraseSize * eraseSize

theorem blocksEnd_add {n start k : Nat} (aligned : start % n = 0) (pos : 0 < k) (le : k ≤ n) :
    blocksEnd n (start + k) = start + n := by
  obtain ⟨j, rfl⟩ := Nat.dvd_of_mod_eq_zero aligned
  rw [blocksEnd, show n * j + k + n - 1 = (k - 1) + n * (j + 1) by rw [Nat.mul_succ]; omega,
    Nat.add_mul_div_left _ _ (by omega), Nat.div_eq_of_lt (by omega), Nat.zero_add, Nat.mul_comm,
    Nat.mul_succ]

theorem blocksEnd_aligned {n len : Nat} (h : 0 < n) (aligned : len % n = 0) :
    blocksEnd n len = len := by
  obtain ⟨j, rfl⟩ := Nat.dvd_of_mod_eq_zero aligned
  rw [blocksEnd, show n * j + n - 1 = (n - 1) + n * j by omega,
    Nat.add_mul_div_left _ _ h, Nat.div_eq_of_lt (by omega), Nat.zero_add, Nat.mul_comm]

namespace Layout

/-- A view after an update to `image`: the vector that leads to the loader stays, then comes the
image, then nothing up to the end of its last block or of the application; the image's vector is in
the slot, and all else is as it was. -/
def imaged (l : Layout) (eraseSize : Nat) (view : Nat → UInt8) (image : Bytes) : Nat → UInt8 :=
  fun x =>
    if l.Guarded x then view x
    else if x < image.length then image.getD x 0xff
    else if x < min (blocksEnd eraseSize image.length) l.applicationSize.toNat then 0xff
    else l.relocated image view x

variable {l : Layout} {n : Nat} {view : Nat → UInt8}

theorem relocated_nil (jumps : l.Jumps) : l.relocated [] view = view := by
  unfold relocated
  split
  · rfl
  · rename_i slot slotted
    split
    · rfl
    · rename_i word moved
      exact absurd (highByte_firstWord (Nat.zero_le _)) (Relocation.highByte_ne_erased
        (VectorSlot.isJump_of_toSlot (jumps slot slotted) moved))

theorem imaged_nil (pos : 0 < n) (jumps : l.Jumps) : l.imaged n view [] = view := by
  funext x
  have none_left : ¬x < min 0 l.applicationSize.toNat := by omega
  rw [imaged, List.length_nil, blocksEnd_aligned pos (Nat.zero_mod n), relocated_nil jumps,
    if_neg (Nat.not_lt_zero x), if_neg none_left, ite_self]

theorem relocated_append {done data : Bytes} (two : l.slot.isSome → 2 ≤ done.length) :
    l.relocated (done ++ data) view = l.relocated done view := by
  unfold relocated
  split
  · rfl
  · rename_i slot slotted
    rw [firstWord_append (two (by rw [slotted]; rfl))]

theorem committed_imaged {done data : Bytes} (jumps : l.Jumps) (aligned : done.length % n = 0)
    (some_data : 0 < data.length) (le_block : data.length ≤ n)
    (fits : done.length + data.length ≤ l.applicationSize.toNat)
    (two : l.slot.isSome → 2 ≤ n) :
    l.committed n (l.imaged n view done) done.length data = l.imaged n view (done ++ data) := by
  have behind : done.length ≠ 0 → n ≤ done.length := fun later =>
    Nat.le_of_dvd (Nat.pos_of_ne_zero later) (Nat.dvd_of_mod_eq_zero aligned)
  have first := blocksEnd_aligned (Nat.lt_of_lt_of_le some_data le_block) aligned
  funext x
  rw [committed]
  conv => rhs; rw [imaged, List.length_append, blocksEnd_add aligned some_data le_block]
  by_cases guarded : l.Guarded x
  · -- The vector stays in block zero, and no other block comes near it.
    have hv : l.imaged n view done x = view x := if_pos guarded
    rw [if_pos guarded, hv]
    by_cases zero : done.length = 0
    · rw [if_pos ⟨guarded, zero⟩]
    · have := behind zero
      have := two guarded.1
      have := guarded.2
      rw [if_neg fun h => zero h.2, if_neg (by omega), if_neg (by omega), if_neg zero]
  · rw [if_neg fun h => guarded h.1, if_neg guarded]
    simp only [List.getD_eq_getElem?_getD]
    by_cases before : x < done.length
    · rw [if_neg (by omega), if_neg (by omega), if_neg (by omega), if_pos (by omega), imaged,
        if_neg guarded, if_pos before, List.getElem?_append_left before,
        List.getD_eq_getElem?_getD]
    · by_cases within : x < done.length + data.length
      · rw [if_pos ⟨by omega, within⟩, if_pos within, List.getElem?_append_right (by omega)]
      · rw [if_neg (by omega), if_neg within]
        by_cases rest : x < min (done.length + n) l.applicationSize.toNat
        · rw [if_pos ⟨by omega, rest⟩, if_pos rest]
        · -- Past the block and past the application only the slot has changed, with block zero.
          rw [if_neg fun h => rest h.2, if_neg rest]
          by_cases zero : done.length = 0
          · obtain rfl := List.length_eq_zero_iff.1 zero
            rw [if_pos zero, imaged_nil (by omega) jumps, List.nil_append]
          · have := behind zero
            rw [if_neg zero, imaged, if_neg guarded, if_neg before, first, if_neg (by omega),
              relocated_append fun slotted => Nat.le_trans (two slotted) this]

end Layout

namespace Stream

variable {g : Geometry} {l : Layout} {view : Nat → UInt8} {image accepted data : Bytes}
  {u : Updater g}

/-- No fault is in sight, and flash has the complete blocks of what was accepted, the vector in its
slot and all else from the view before. -/
structure Imaged (l : Layout) (view : Nat → UInt8) (s : Stream g) : Prop where
  faithful : s.Faithful
  layout : s.updater.flash.layout = l
  quiet : s.updater.flash.chip.Quiet
  stored : s.updater.flash.stored =
    l.imaged g.eraseSize view (s.accepted.take s.updater.completed)

theorem two_le_eraseSize (fits : l.SlotFits g.eraseSize) (slotted : l.slot.isSome) :
    2 ≤ g.eraseSize := by
  obtain ⟨slot, hs⟩ := Option.isSome_iff_exists.1 slotted
  have := fits slot hs
  omega

theorem Imaged.commit (h : Imaged l view ⟨u, accepted⟩) (small : g.eraseSize < addressSpace)
    (size : l.writableEnd.toNat ≤ g.size) (fits : l.SlotFits g.eraseSize) (jumps : l.Jumps)
    (placed : u.flash.Placed u.completed data)
    (jump : l.slot.isSome → u.completed = 0 → Relocation.IsJump (firstWord data)) :
    ∃ outcome flash, u.flash.commit u.completed data = .ok (.ok outcome, flash) ∧
      flash.layout = l ∧ flash.chip.Quiet ∧
      flash.stored = l.imaged g.eraseSize view (accepted.take u.completed ++ data) := by
  obtain ⟨faithful, layout, quiet, stored⟩ := h
  have hlen := faithful.coherent.length
  simp only at hlen layout quiet stored
  obtain ⟨report, flash, commit, hd⟩ := u.flash.commit_spec placed small (by rw [layout]; exact fits)
  have movable : ∀ slot, u.flash.layout.slot = some slot → u.completed = 0 →
      slot.toSlot (firstWord data) ≠ none := by
    intro slot slotted zero
    rw [layout] at slotted
    obtain ⟨word, moved⟩ := VectorSlot.toSlot_of_isJump (jumps slot slotted)
      (jump (by rw [slotted]; rfl) zero)
    rw [moved]
    exact Option.some_ne_none word
  obtain ⟨⟨outcome, rfl⟩, still⟩ := hd.ok_of_quiet placed small (by rw [layout]; exact size) quiet
    movable
  refine ⟨outcome, flash, commit, hd.layout_eq.trans layout, still, ?_⟩
  -- What the view has of the image so far are its complete blocks.
  have hc : (accepted.take u.completed).length = u.completed := by
    rw [List.length_take, hlen, Updater.completed]
    omega
  have happ := placed.le_application
  rw [layout] at happ
  rw [hd.stored_of_ok placed, layout, stored,
    ← Layout.committed_imaged jumps (by rw [hc]; exact placed.aligned) placed.nonempty
      placed.le_block (by rw [hc]; exact happ) (two_le_eraseSize fits), hc]

theorem jump_of_part (accepts : l.Accepts image) (part : data <+: image) (two : 2 ≤ data.length)
    (slotted : l.slot.isSome) : Relocation.IsJump (firstWord data) := by
  obtain ⟨rest, rfl⟩ := part
  have := accepts.jump slotted
  rwa [firstWord_append two] at this

theorem Imaged.staging (h : Imaged l view ⟨u, accepted⟩) (small : g.eraseSize < addressSpace)
    (b : UInt8) (room : u.cursor < u.flash.layout.applicationSize.toNat)
    (short : (u.cursor + 1) % g.eraseSize ≠ 0) :
    Imaged l view ⟨u.staging b, accepted ++ [b]⟩ := by
  have hlen := h.faithful.coherent.length
  simp only at hlen
  have step := Step.stage u accepted b room short
  refine ⟨step.faithful small h.faithful, h.layout, h.quiet, ?_⟩
  simp only [u.completed_staging b short]
  rw [List.take_append_of_le_length (by rw [hlen, Updater.completed]; omega)]
  exact h.stored

theorem Imaged.completing (h : Imaged l view ⟨u, accepted⟩) (small : g.eraseSize < addressSpace)
    (size : l.writableEnd.toNat ≤ g.size) (fits : l.SlotFits g.eraseSize)
    (accepts : l.Accepts image) (b : UInt8) (part : accepted ++ [b] <+: image)
    (room : u.cursor < u.flash.layout.applicationSize.toNat)
    (full : (u.cursor + 1) % g.eraseSize = 0) :
    ∃ outcome flash,
      u.flash.commit (u.cursor + 1 - g.eraseSize) (u.staging b).staged =
        .ok (.ok outcome, flash) ∧
      Imaged l view ⟨(u.staging b).committing (u.cursor + 1 - g.eraseSize) (u.staging b).staged
        (.ok outcome) flash, accepted ++ [b]⟩ := by
  have ready := h.faithful.coherent.ready
  have hlen : accepted.length = u.cursor := h.faithful.coherent.length
  have hle : (accepted ++ [b]).length = u.cursor + 1 := by
    rw [List.length_append, hlen, List.length_singleton]
  have pos := u.flash.sound.eraseSize_pos
  have hm := mod_succ_of_eq pos full
  have hs := h.faithful.staging_full b full
  have hc := Updater.completed_of_full full
  have placed := u.placed_full b ready room full
  rw [← hc] at hs placed
  -- Only block zero has to have a vector that moves.
  have jump : l.slot.isSome → u.completed = 0 →
      Relocation.IsJump (firstWord (u.staging b).staged) := by
    intro slotted zero
    have := two_le_eraseSize fits slotted
    have := Nat.mod_le u.cursor g.eraseSize
    rw [hc] at zero
    rw [hs, hc, zero, List.drop_zero]
    exact jump_of_part accepts part (by omega) slotted
  obtain ⟨outcome, flash, commit, layout, quiet, stored⟩ :=
    h.commit small size fits accepts.jumps placed jump
  rw [← hc]
  have step := Step.complete u accepted b outcome flash room full (by rw [← hc]; exact commit)
  rw [← hc] at step
  refine ⟨outcome, flash, commit, step.faithful small h.faithful, layout, quiet, ?_⟩
  have hn : Updater.completed ((u.staging b).committing u.completed (u.staging b).staged
      (.ok outcome) flash) = u.cursor + 1 := Updater.completed_of_aligned full
  simp only [hn]
  refine stored.trans ?_
  rw [List.take_of_length_le (Nat.le_of_eq hle), hs,
    List.drop_append_of_le_length (by omega), ← List.append_assoc, List.take_append_drop]

/-- Bytes of the image are taken and their complete blocks are in flash. -/
theorem Imaged.feed (h : Imaged l view ⟨u, accepted⟩) (small : g.eraseSize < addressSpace)
    (size : l.writableEnd.toNat ≤ g.size) (fits : l.SlotFits g.eraseSize)
    (accepts : l.Accepts image) (part : accepted ++ data <+: image) :
    ∃ u', u.feed data = .ok (.ok (), u') ∧ Imaged l view ⟨u', accepted ++ data⟩ := by
  -- By the bytes; each block that fills up is in flash before the next byte is taken.
  induction data generalizing u accepted with
  | nil =>
    rw [List.append_nil]
    exact ⟨u, rfl, h⟩
  | cons b rest ih =>
    rw [← List.singleton_append, ← List.append_assoc] at part ⊢
    have first := (List.prefix_append _ _).trans part
    have layout : u.flash.layout = l := h.layout
    have hlen : accepted.length = u.cursor := h.faithful.coherent.length
    have room : u.cursor < u.flash.layout.applicationSize.toNat := by
      have hp := first.length_le
      have := accepts.fits
      rw [List.length_append, hlen, List.length_singleton] at hp
      rw [layout]
      omega
    by_cases full : (u.cursor + 1) % g.eraseSize = 0
    · obtain ⟨outcome, flash, commit, next⟩ :=
        h.completing small size fits accepts b first room full
      obtain ⟨u', he, later⟩ := ih next part
      have ready : u.Ready := h.faithful.coherent.ready
      have hf : u.feed (b :: rest) = _ := Updater.feed_cons_full ready room full
      simp only [commit] at hf
      exact ⟨u', hf.trans he, later⟩
    · obtain ⟨u', he, later⟩ := ih (h.staging small b room full) part
      exact ⟨u', (Updater.feed_cons_open room full).trans he, later⟩

theorem Imaged.finish (h : Imaged l view ⟨u, image⟩) (small : g.eraseSize < addressSpace)
    (size : l.writableEnd.toNat ≤ g.size) (fits : l.SlotFits g.eraseSize)
    (accepts : l.Accepts image) :
    ∃ progress u', u.finish = .ok (.ok progress, u') ∧ u'.flash.layout = l ∧
      u'.flash.stored = l.imaged g.eraseSize view image := by
  have ready := h.faithful.coherent.ready
  have hlen := h.faithful.coherent.length
  simp only at hlen
  by_cases whole : u.cursor % g.eraseSize = 0
  · refine ⟨_, u, Updater.finish_whole whole, h.layout, ?_⟩
    have hs := h.stored
    simp only [Updater.completed_of_aligned whole, ← hlen, List.take_length] at hs
    exact hs
  · have placed := u.placed_tail ready whole
    have ht : u.staged.take (u.cursor % g.eraseSize) = image.drop u.completed := h.faithful.tail
    have jump : l.slot.isSome → u.completed = 0 →
        Relocation.IsJump (firstWord (u.staged.take (u.cursor % g.eraseSize))) := by
      intro slotted zero
      rw [ht, zero, List.drop_zero]
      exact accepts.jump slotted
    obtain ⟨outcome, flash, commit, hl, quiet, stored⟩ :=
      h.commit small size fits accepts.jumps placed jump
    have hf := Updater.finish_tail ready whole
    simp only [commit] at hf
    refine ⟨_, _, hf, hl, stored.trans ?_⟩
    rw [ht, List.take_append_drop]

theorem Imaged.begun {s : Stream g} (h : Imaged l view s) :
    Imaged l view (s.begun s.accepted.length) := by
  unfold Stream.begun
  split
  · rename_i zero
    have hs := h.stored
    have ha := List.length_eq_zero_iff.1 zero
    rw [ha, List.take_nil] at hs
    refine ⟨h.faithful.coherent.faithful_restarted, h.layout, h.quiet, hs.trans ?_⟩
    rw [Stream.restarted, List.take_nil]
  · exact h

theorem Faithful.feed_torn (h : Faithful ⟨u, accepted⟩) (small : g.eraseSize < addressSpace)
    (accepts : u.flash.layout.Accepts image) {slot : VectorSlot}
    (slotted : u.flash.layout.slot = some slot)
    (torn : ¬slot.address.toNat % g.eraseSize + 2 ≤ g.eraseSize)
    (part : accepted ++ data <+: image) (before : u.cursor < g.eraseSize) :
    (u.cursor + data.length < g.eraseSize ∧ ∃ u', u.feed data = .ok (.ok (), u') ∧
        Faithful ⟨u', accepted ++ data⟩ ∧ u'.flash.layout = u.flash.layout) ∨
      u.feed data = .error .outOfBounds := by
  -- As long as block zero is not complete the bytes before it were only staged.
  induction data generalizing u accepted with
  | nil =>
    rw [List.append_nil]
    exact .inl ⟨before, u, rfl, h, rfl⟩
  | cons b rest ih =>
    rw [← List.singleton_append, ← List.append_assoc] at part ⊢
    have first := (List.prefix_append _ _).trans part
    have hlen : accepted.length = u.cursor := h.coherent.length
    have ready : u.Ready := h.coherent.ready
    have hle : (accepted ++ [b]).length = u.cursor + 1 := by
      rw [List.length_append, hlen, List.length_singleton]
    have room : u.cursor < u.flash.layout.applicationSize.toNat := by
      have hp := first.length_le
      have := accepts.fits
      omega
    by_cases full : (u.cursor + 1) % g.eraseSize = 0
    · -- The first block that becomes complete is block zero.
      have hN := Nat.le_of_dvd (Nat.succ_pos _) (Nat.dvd_of_mod_eq_zero full)
      have zero : u.cursor + 1 - g.eraseSize = 0 := by omega
      have placed := u.placed_full b ready room full
      have hs := h.staging_full b full
      rw [zero] at hs placed
      rw [List.drop_zero] at hs
      have hc := Programmer.commit_torn placed slotted small torn fun two => by
        rw [hs]
        obtain ⟨word, moved⟩ := VectorSlot.toSlot_of_isJump (accepts.jumps slot slotted)
          (jump_of_part accepts first (by omega) (by rw [slotted]; rfl))
        rw [moved]
        exact Option.some_ne_none word
      have hf : u.feed (b :: rest) = _ := Updater.feed_cons_full ready room full
      simp only [zero, hc] at hf
      exact .inr hf
    · have step := Step.stage u accepted b room full
      have hm := mod_succ_of_ne u.flash.sound.eraseSize_pos full
      have next : (u.staging b).cursor < g.eraseSize := by
        have := Nat.mod_lt (u.cursor + 1) u.flash.sound.eraseSize_pos
        rw [Nat.mod_eq_of_lt before] at hm
        change u.cursor + 1 < g.eraseSize
        omega
      have hf : u.feed (b :: rest) = (u.staging b).feed rest := Updater.feed_cons_open room full
      obtain ⟨within, u', he, later, hl⟩ | crash := ih (step.faithful small h) accepts slotted part next
      · refine .inl ⟨?_, u', hf.trans he, later, hl⟩
        rw [List.length_append, List.length_singleton]
        change u.cursor + 1 + rest.length < _ at within
        omega
      · exact .inr (hf.trans crash)

theorem Faithful.finish_torn (h : Faithful ⟨u, image⟩) (small : g.eraseSize < addressSpace)
    (accepts : u.flash.layout.Accepts image) {slot : VectorSlot}
    (slotted : u.flash.layout.slot = some slot)
    (torn : ¬slot.address.toNat % g.eraseSize + 2 ≤ g.eraseSize)
    (before : u.cursor < g.eraseSize) : u.finish = .error .outOfBounds := by
  have ready : u.Ready := h.coherent.ready
  have hlen : image.length = u.cursor := h.coherent.length
  have some_bytes := accepts.nonempty
  have tail : u.cursor % g.eraseSize ≠ 0 := by
    rw [Nat.mod_eq_of_lt before]
    omega
  have zero : u.completed = 0 := by
    rw [Updater.completed, Nat.mod_eq_of_lt before, Nat.sub_self]
  have placed := u.placed_tail ready tail
  have ht : u.staged.take (u.cursor % g.eraseSize) = image.drop u.completed := h.tail
  change u.flash.Placed u.completed _ at placed
  rw [zero] at ht placed
  rw [List.drop_zero] at ht
  have hc := Programmer.commit_torn placed slotted small torn fun _ => by
    rw [ht]
    obtain ⟨word, moved⟩ := VectorSlot.toSlot_of_isJump (accepts.jumps slot slotted)
      (accepts.jump (by rw [slotted]; rfl))
    rw [moved]
    exact Option.some_ne_none word
  have hf := Updater.finish_tail ready tail
  simp only [zero, hc] at hf
  exact hf

end Stream

/-- Requests that bring what is left of an image from an address on, in consecutive chunks. -/
inductive Chunks (image : Bytes) : Nat → List Request → Prop
  | done : Chunks image image.length []
  | chunk (next : Nat) (r : Request) (data : Bytes) (rest : List Request)
      (part : data <+: image.drop next)
      (brings : r.Brings .writeFlash (addressBytes next ++ data) 0)
      (later : Chunks image (next + data.length) rest) : Chunks image next (r :: rest)

theorem sixBytes_chunks : Chunks sixBytes 0
    [.sealed .crc8 1 .writeFlash (addressBytes 0 ++ sixBytes.take 3),
      .sealed .crc16 9 .writeFlash (addressBytes 3 ++ sixBytes.drop 3)] :=
  .chunk 0 _ (sixBytes.take 3) _ (by decide)
    (Request.sealed_brings (by decide) (by decide) (by decide)) <|
  .chunk 3 _ (sixBytes.drop 3) _ (by decide)
    (Request.sealed_brings (by decide) (by decide) (by decide)) .done

def Request.taken (r : Request) : Option Bytes :=
  some (r.framing.enclose r.address [Status.ok.byte, 0])

def Request.ended (r : Request) (erases : UInt8) : Option Bytes :=
  some (r.framing.enclose r.address [Status.ok.byte, 1, erases])

namespace Session

variable {g : Geometry} {s : Session g} {l : Layout} {view : Nat → UInt8} {image data : Bytes}
  {next : Nat} {r : Request}

theorem serves_of_imaged (layout : s.updater.flash.layout = l) (accepts : l.Accepts image)
    (stored : s.updater.flash.stored = l.imaged g.eraseSize view image) : s.Serves image := by
  have some_bytes := accepts.nonempty
  have fits := accepts.fits
  apply serves_of_stored
  · rw [layout]
    exact accepts
  · intro x hx free
    rw [layout] at free
    rw [stored, Layout.imaged, if_neg free, if_pos hx, List.getD_eq_getElem?_getD,
      List.getElem?_eq_getElem hx]
    rfl
  · intro slot slotted
    have behind := s.updater.flash.sound.application_le_slot slot slotted
    have two := Programmer.two_le_slot slotted (by rw [layout]; omega)
    rw [layout] at slotted behind
    obtain ⟨word, moved⟩ := VectorSlot.toSlot_of_isJump (accepts.jumps slot slotted)
      (accepts.jump (by rw [slotted]; rfl))
    have hv : ∀ x, slot.address.toNat ≤ x →
        s.updater.flash.stored x = slot.holding word view x := by
      intro x hx
      rw [stored, Layout.imaged, if_neg fun guarded => absurd guarded.2 (by omega),
        if_neg (by omega), if_neg (by omega), Layout.relocated, slotted]
      simp only [moved]
    exact ⟨word, moved, Programmer.holdsVector_of_holding hv⟩

theorem exchange_chunk (small : g.eraseSize < addressSpace) (size : l.writableEnd.toNat ≤ g.size)
    (fits : l.SlotFits g.eraseSize) (accepts : l.Accepts image) (within : next ≤ image.length)
    (part : data <+: image.drop next)
    (brings : r.Brings .writeFlash (addressBytes next ++ data) 0)
    (h : Stream.Imaged l view (s.pending image next)) :
    ∃ e, s.exchange r = .ok e ∧ e.reply = r.taken ∧
      Stream.Imaged l view (e.state.pending image (next + data.length)) := by
  obtain ⟨whole, within'⟩ := part_of_chunk part within
  have layout := h.layout
  rw [pending_layout] at layout
  have happ := accepts.fits
  have hlt := l.applicationSize.toNat_lt
  have he := extend_pending h.faithful within part (by rw [layout]; exact happ)
  rw [pending_eq] at h
  obtain ⟨u, hf, next_imaged⟩ := h.feed small size fits accepts (by
    rw [whole]
    exact List.take_prefix _ _)
  rw [whole] at next_imaged
  rw [hf] at he
  obtain ⟨e, answer, hu, ha⟩ := exchange_write (show next < 0x10000 by omega) brings he
  refine ⟨e, answer, ha, ?_⟩
  have hb := next_imaged.begun
  rw [List.length_take_of_le within', ← hu] at hb
  exact hb

/-- Chunks of the image and its end are taken, and the image is in flash and served. -/
theorem exchangeAll_chunks (small : g.eraseSize < addressSpace)
    (size : l.writableEnd.toNat ≤ g.size) (fits : l.SlotFits g.eraseSize)
    (accepts : l.Accepts image) {writes : List Request} (chunks : Chunks image next writes)
    {final : Request} (ends : final.Brings .finalizeFlash [] 1) (within : next ≤ image.length)
    (h : Stream.Imaged l view (s.pending image next)) :
    ∃ erases last, s.exchangeAll (writes ++ [final]) =
        .ok (writes.map Request.taken ++ [final.ended erases], last) ∧
      last.updater.flash.layout = l ∧
      last.updater.flash.stored = l.imaged g.eraseSize view image := by
  -- By the chunks; what is kept is that flash has the image up to the next address.
  induction chunks generalizing s with
  | done =>
    rw [pending_length accepts.nonempty] at h
    obtain ⟨progress, u, hf, layout, stored⟩ := h.finish small size fits accepts
    obtain ⟨e, answer, hu, ha⟩ := exchange_finalize ends hf
    refine ⟨u.flash.completedErases.toUInt8, e.state, ?_, ?_, ?_⟩
    · rw [List.nil_append, exchangeAll_cons answer, ha]
      rfl
    · rw [hu]
      exact layout
    · rw [hu]
      exact stored
  | chunk next r data rest part brings later ih =>
    obtain ⟨e, answer, reply, h'⟩ :=
      exchange_chunk small size fits accepts within part brings h
    obtain ⟨erases, last, he, layout, stored⟩ := ih (part_of_chunk part within).2 h'
    refine ⟨erases, last, ?_, layout, stored⟩
    rw [List.cons_append, exchangeAll_cons answer, he, reply]
    rfl

/-- Where no block holds the slot's word in full, chunks of the image or its end crash. -/
theorem exchangeAll_torn (small : g.eraseSize < addressSpace) (accepts : l.Accepts image)
    {slot : VectorSlot} (slotted : l.slot = some slot)
    (torn : ¬slot.address.toNat % g.eraseSize + 2 ≤ g.eraseSize) {writes : List Request}
    (chunks : Chunks image next writes) {final : Request}
    (ends : final.Brings .finalizeFlash [] 1) (within : next ≤ image.length)
    (before : next < g.eraseSize) (faithful : (s.pending image next).Faithful)
    (layout : s.updater.flash.layout = l) :
    s.exchangeAll (writes ++ [final]) = .error .outOfBounds := by
  -- On the chunks, for as long as they stay within block zero.
  induction chunks generalizing s with
  | done =>
    rw [pending_length accepts.nonempty] at faithful
    have hlen := faithful.coherent.length
    simp only at hlen
    have hf := faithful.finish_torn small (by rw [layout]; exact accepts) (by rw [layout]; exact slotted)
      torn (by omega)
    exact exchangeAll_crash (exchange_finalize_crash ends hf)
  | chunk next r data rest part brings later ih =>
    obtain ⟨whole, within'⟩ := part_of_chunk part within
    have happ := accepts.fits
    have hlt := l.applicationSize.toNat_lt
    have hl := (s.pending_layout image next).trans layout
    have hc := pending_cursor faithful within
    have he := extend_pending faithful within part (by rw [layout]; exact happ)
    rw [pending_eq] at faithful
    obtain ⟨behind, u, hf, faithful', hl'⟩ | crash := faithful.feed_torn small
      (by rw [hl]; exact accepts) (by rw [hl]; exact slotted) torn
      (by rw [whole]; exact List.take_prefix _ _) (by omega)
    · rw [hf] at he
      obtain ⟨e, answer, hu, -⟩ := exchange_write (show next < 0x10000 by omega) brings he
      rw [List.cons_append, exchangeAll_cons answer, ih within' (by omega) ?_ ?_]
      · rfl
      · rw [whole] at faithful'
        have hb := faithful'.begun (next + data.length)
        rw [← hu] at hb
        exact hb
      · rw [hu, hl', hl]
    · rw [crash] at he
      exact exchangeAll_crash (exchange_write_crash (show next < 0x10000 by omega) brings he)

/-- Chunks of an image and its end, sent to any session that is reached while no fault is in sight:
if some block holds the slot's word in full, all are taken, every read within the image is answered
with the image, and flash holds the image, its vector in the slot and otherwise what it held. If
none does, the session crashes. -/
theorem exchangeAll_image (small : g.eraseSize < addressSpace) (reachable : s.Reachable)
    (quiet : s.updater.flash.chip.Quiet)
    (size : s.updater.flash.layout.writableEnd.toNat ≤ g.size)
    (accepts : s.updater.flash.layout.Accepts image) {writes : List Request}
    (chunks : Chunks image 0 writes) {final : Request} (ends : final.Brings .finalizeFlash [] 1) :
    (s.updater.flash.layout.SlotFits g.eraseSize →
      ∃ erases last, s.exchangeAll (writes ++ [final]) =
          .ok (writes.map Request.taken ++ [final.ended erases], last) ∧
        last.Serves image ∧
        last.updater.flash.stored =
          s.updater.flash.layout.imaged g.eraseSize s.updater.flash.stored image) ∧
    (¬s.updater.flash.layout.SlotFits g.eraseSize →
      s.exchangeAll (writes ++ [final]) = .error .outOfBounds) := by
  have pos := s.updater.flash.sound.eraseSize_pos
  have faithful : (s.pending image 0).Faithful :=
    (reachable.ready small).coherent.faithful_restarted
  constructor
  · intro fits
    have h : Stream.Imaged s.updater.flash.layout s.updater.flash.stored (s.pending image 0) := by
      -- Before the first chunk nothing of the image is in flash.
      refine ⟨faithful, rfl, quiet, ?_⟩
      rw [pending_eq, List.take_zero, List.take_nil, Layout.imaged_nil pos accepts.jumps]
      rfl
    obtain ⟨erases, last, served, layout, stored⟩ :=
      exchangeAll_chunks small size fits accepts chunks ends (Nat.zero_le _) h
    exact ⟨erases, last, served, serves_of_imaged layout accepts stored, stored⟩
  · intro split
    unfold Layout.SlotFits at split
    obtain ⟨slot, slotted, torn⟩ : ∃ slot, s.updater.flash.layout.slot = some slot ∧
        ¬slot.address.toNat % g.eraseSize + 2 ≤ g.eraseSize := by simpa using split
    exact exchangeAll_torn small accepts slotted torn chunks ends (Nat.zero_le _) pos faithful rfl

/-- Six bytes in two chunks: they are served, and the slot holds the jump of their first word. -/
theorem exchangeAll_image_sixBytes :
    ∃ (s : Session .small) (replies : List (Option Bytes)) (last : Session .small),
      s.Reachable ∧ s.updater.flash = .small [] ∧
      s.exchangeAll [.sealed .crc8 1 .writeFlash (addressBytes 0 ++ sixBytes.take 3),
          .sealed .crc16 9 .writeFlash (addressBytes 3 ++ sixBytes.drop 3),
          .sealed .crc8 1 .finalizeFlash []] = .ok (replies, last) ∧
      last.Serves sixBytes ∧ last.updater.flash.stored 7 = 0xc0 := by
  obtain ⟨s, reachable, hs⟩ := exists_reachable (.small [])
  have flash : s.updater.flash = .small [] := by
    rw [hs]
    rfl
  have ends : (Request.sealed .crc8 1 .finalizeFlash []).Brings .finalizeFlash [] 1 :=
    Request.sealed_brings (by decide) (by decide) (by decide)
  have whole : s.updater.flash.layout.SlotFits Geometry.small.eraseSize := by
    rw [flash]
    exact slotFits_small
  obtain ⟨erases, last, served, serves, stored⟩ := (exchangeAll_image (by decide) reachable
    (by rw [flash]; exact ⟨rfl, rfl⟩) (by rw [flash]; decide)
    (by rw [flash]; exact sixBytes_accepted) sixBytes_chunks ends).1 whole
  refine ⟨s, _, last, reachable, flash, served, serves, ?_⟩
  rw [stored, flash]
  decide

/-- Blocks of three bytes tear a slot at address eight, and a jump alone is enough to crash. -/
theorem exchangeAll_torn_slot :
    ∃ (s : Session ⟨12, 3, 3, by decide, by decide⟩), s.Reachable ∧
      s.updater.flash.chip.Quiet ∧ s.updater.flash.layout.Accepts [0x12, 0xc0] ∧
      s.exchangeAll [.sealed .crc8 1 .writeFlash (addressBytes 0 ++ [0x12, 0xc0]),
        .sealed .crc8 1 .finalizeFlash []] = .error .outOfBounds := by
  let layout : Layout := ⟨6, 12, some ⟨8, Relocation.relativeJump⟩⟩
  let flash : Programmer ⟨12, 3, 3, by decide, by decide⟩ :=
    ⟨Chip.erased _, layout, 0, Layout.verdict_eq_ok_iff.1 (by decide)⟩
  obtain ⟨s, reachable, idle⟩ := exists_reachable flash
  have hs : s.updater.flash = flash := by
    rw [idle]
    rfl
  have accepts : layout.Accepts [0x12, 0xc0] :=
    ⟨by decide, by decide, fun _ slotted => by cases slotted; rfl, fun _ => by decide,
      fun _ => show _ &&& _ = _ by decide⟩
  have chunks : Chunks [0x12, 0xc0] 0
      [.sealed .crc8 1 .writeFlash (addressBytes 0 ++ [0x12, 0xc0])] :=
    .chunk 0 _ [0x12, 0xc0] _ (by decide)
      (Request.sealed_brings (by decide) (by decide) (by decide)) .done
  have ends : (Request.sealed .crc8 1 .finalizeFlash []).Brings .finalizeFlash [] 1 :=
    Request.sealed_brings (by decide) (by decide) (by decide)
  have faithful : (s.pending [0x12, 0xc0] 0).Faithful :=
    (reachable.ready (by decide)).coherent.faithful_restarted
  refine ⟨s, reachable, by rw [hs]; exact ⟨rfl, rfl⟩, by rw [hs]; exact accepts, ?_⟩
  exact exchangeAll_torn (by decide) accepts rfl (by decide) chunks ends (Nat.zero_le _)
    (show 0 < 3 by decide) faithful (by rw [hs])

end Session

end FieldUpdate
