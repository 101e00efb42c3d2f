import FieldUpdate.Proofs.Splitting
import FieldUpdate.Proofs.Update

namespace FieldUpdate

namespace Updater

variable {g : Geometry} {u u' : Updater g}

theorem extendInTurn_ok {address : Nat} {first second : Bytes} {progress : Progress}
    (h : u.extendInTurn address first second = .ok (.ok progress, u')) :
    ∃ progress₁ u₁ progress₂, u.extend address first = .ok (.ok progress₁, u₁) ∧
      u₁.extend (address + first.length) second = .ok (.ok progress₂, u') := by
  obtain ⟨⟨_ | progress₁, u₁⟩, taken, h⟩ := bind_eq_ok.1 h
  · cases h
  · obtain ⟨⟨_ | progress₂, u₂⟩, taken', h⟩ := bind_eq_ok.1 h
    · cases h
    · cases h
      exact ⟨progress₁, u₁, progress₂, taken, taken'⟩

theorem extendInTurn_crash {address : Nat} {first second : Bytes} {crash : Crash}
    (h : u.extendInTurn address first second = .error crash) :
    u.extend address first = .error crash ∨ ∃ progress u₁, u.extend address first =
      .ok (.ok progress, u₁) ∧ u₁.extend (address + first.length) second = .error crash := by
  rcases bind_crash h with crashed | ⟨⟨_ | progress, u₁⟩, taken, h⟩
  · exact .inl crashed
  · cases h
  · refine .inr ⟨progress, u₁, taken, ?_⟩
    rcases bind_crash h with crashed | ⟨⟨_ | _, u₂⟩, -, h⟩
    · exact crashed
    · cases h
    · cases h

theorem extend_nil {address : Nat} (later : address ≠ 0)
    {report : Except StreamError Progress} (h : u.extend address [] = .ok (report, u')) :
    u' = u := by
  rw [extend_eq, if_neg later] at h
  cases proceeded h with
  | outOfSequence elsewhere => rfl
  | outOfRange next past => rfl
  | failed next room e _ fed => cases fed
  | taken next room _ fed =>
    cases fed
    rfl

end Updater

namespace Session

variable {g : Geometry} {s : Session g} {image : Bytes} {next : Nat} {writes : List Request}
  {final : Request} {u u' : Updater g}

theorem drop_of_part {data : Bytes} (part : data <+: image.drop next) :
    image.drop next = data ++ image.drop (next + data.length) := by
  obtain ⟨rest, h⟩ := part
  rw [← List.drop_drop, ← h, List.drop_left]

/-- Chunks of an image and its end leave what the image in one piece and its end leave. -/
theorem exchangeAll_whole (chunks : Chunks image next writes)
    (ends : final.Brings .finalizeFlash [] 1) (some_bytes : 0 < image.length)
    (within : next ≤ image.length)
    (room : image.length ≤ s.updater.flash.layout.applicationSize.toNat)
    {progress progress' : Progress}
    (extend : s.updater.extend next (image.drop next) = .ok (.ok progress, u))
    (finish : u.finish = .ok (.ok progress', u')) :
    ∃ last, s.exchangeAll (writes ++ [final]) =
        .ok (writes.map Request.taken ++ [final.ended u'.flash.completedErases.toUInt8], last) ∧
      last.updater = { u' with flash := u'.flash.takeErases.2 } := by
  -- By the chunks: the first one takes its part, and what is left begins behind it.
  induction chunks generalizing s progress with
  | done =>
    rw [List.drop_length] at extend
    obtain rfl : u = s.updater := Updater.extend_nil (Nat.ne_of_gt some_bytes) extend
    obtain ⟨e, answer, hu, said⟩ := exchange_finalize ends finish
    refine ⟨e.state, ?_, hu⟩
    rw [List.nil_append, exchangeAll_cons answer, said]
    rfl
  | chunk next r data rest part brings later ih =>
    have within' := (part_of_chunk part within).2
    have hlt := s.updater.flash.layout.applicationSize.toNat_lt
    rw [drop_of_part part, Updater.extend_append (by rw [List.length_drop]; omega)] at extend
    obtain ⟨progress₁, u₁, progress₂, first, second⟩ := Updater.extendInTurn_ok extend
    obtain ⟨e, answer, hu, said⟩ := exchange_write (show next < 0x10000 by omega) brings first
    obtain ⟨events, journal⟩ := Updater.extend_journal first
    rw [← hu] at second journal
    obtain ⟨last, run, hl⟩ := ih within' (by rw [journal.layout_eq]; exact room) second
    refine ⟨last, ?_, hl⟩
    rw [List.cons_append, exchangeAll_cons answer, run, said]
    rfl

theorem exchangeAll_whole_crash (chunks : Chunks image next writes)
    (ends : final.Brings .finalizeFlash [] 1) (some_bytes : 0 < image.length)
    (within : next ≤ image.length)
    (room : image.length ≤ s.updater.flash.layout.applicationSize.toNat) {crash : Crash}
    (crashed : s.updater.extend next (image.drop next) = .error crash ∨
      ∃ progress u, s.updater.extend next (image.drop next) = .ok (.ok progress, u) ∧
        u.finish = .error crash) : s.exchangeAll (writes ++ [final]) = .error crash := by
  induction chunks generalizing s with
  | done =>
    rw [List.drop_length] at crashed
    obtain crashed | ⟨progress, u, extend, crashed⟩ := crashed
    · rw [Updater.extend_eq, if_neg (Nat.ne_of_gt some_bytes),
        Updater.proceed_of_short _ (Updater.short_of_room room)] at crashed
      split at crashed
      · cases crashed
      · split at crashed <;> cases crashed
    · obtain rfl : u = s.updater := Updater.extend_nil (Nat.ne_of_gt some_bytes) extend
      exact exchangeAll_crash (exchange_finalize_crash ends crashed)
  | chunk next r data rest part brings later ih =>
    have within' := (part_of_chunk part within).2
    have hlt := s.updater.flash.layout.applicationSize.toNat_lt
    have below : next < 0x10000 := by omega
    rw [drop_of_part part, Updater.extend_append (by rw [List.length_drop]; omega)] at crashed
    -- Once the first chunk is taken, what crashes is among the others.
    have go_on {progress : Progress} {u : Updater g}
        (first : s.updater.extend next data = .ok (.ok progress, u))
        (crashed : u.extend (next + data.length) (image.drop (next + data.length)) = .error crash ∨
          ∃ progress u', u.extend (next + data.length) (image.drop (next + data.length)) =
            .ok (.ok progress, u') ∧ u'.finish = .error crash) :
        s.exchangeAll (r :: rest ++ [final]) = .error crash := by
      obtain ⟨e, answer, hu, -⟩ := exchange_write below brings first
      obtain ⟨events, journal⟩ := Updater.extend_journal first
      rw [← hu] at crashed journal
      rw [List.cons_append, exchangeAll_cons answer,
        ih within' (by rw [journal.layout_eq]; exact room) crashed]
      rfl
    obtain crashed | ⟨progress, u, extend, crashed⟩ := crashed
    · obtain crashed | ⟨progress, u, first, crashed⟩ := Updater.extendInTurn_crash crashed
      · exact exchangeAll_crash (exchange_write_crash below brings crashed)
      · exact go_on first (.inl crashed)
    · obtain ⟨_, u₁, progress₂, first, second⟩ := Updater.extendInTurn_ok extend
      exact go_on first (.inr ⟨progress₂, u, second, crashed⟩)

end Session

end FieldUpdate
