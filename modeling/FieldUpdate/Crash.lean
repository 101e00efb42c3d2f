namespace FieldUpdate

/-- The ways in which a step can have no answer. -/
inductive Crash
  /-- An access outside a buffer. -/
  | outOfBounds
  /-- A sum outside its word. -/
  | overflow
  /-- A remainder by zero. -/
  | zeroDivisor
  /-- A length the caller had promised and did not keep. -/
  | brokenPromise
  deriving DecidableEq

abbrev Checked := Except Crash

/-- Results can be compared if errors and values can. -/
instance decideResultEq {ε α : Type} [DecidableEq ε] [DecidableEq α] : DecidableEq (Except ε α)
  | .ok a, .ok b => decidable_of_iff (a = b) ⟨congrArg Except.ok, Except.ok.inj⟩
  | .error a, .error b => decidable_of_iff (a = b) ⟨congrArg Except.error, Except.error.inj⟩
  | .ok _, .error _ => isFalse nofun
  | .error _, .ok _ => isFalse nofun

theorem bind_eq_ok {α β : Type} {x : Checked α} {f : α → Checked β} {b : β} :
    (x >>= f) = .ok b ↔ ∃ a, x = .ok a ∧ f a = .ok b := by
  cases x with
  | error c =>
    constructor
    · intro h
      cases h
    · rintro ⟨_, h, _⟩
      cases h
  | ok a =>
    constructor
    · intro h
      exact ⟨a, rfl, h⟩
    · rintro ⟨_, h, hf⟩
      cases h
      exact hf

theorem bind_eq_error {α β : Type} {x : Checked α} {f : α → Checked β} {crash : Crash}
    (total : ∀ a, ∃ b, f a = .ok b) : (x >>= f) = .error crash ↔ x = .error crash := by
  cases x with
  | error c =>
    constructor
    · intro h
      cases h
      rfl
    · intro h
      cases h
      rfl
  | ok a =>
    obtain ⟨b, hb⟩ := total a
    constructor
    · intro h
      cases h.symm.trans hb
    · intro h
      cases h

theorem bind_crash {α β : Type} {x : Checked α} {f : α → Checked β} {crash : Crash}
    (h : (x >>= f) = .error crash) : x = .error crash ∨ ∃ a, x = .ok a ∧ f a = .error crash := by
  cases x with
  | error c =>
    cases h
    exact .inl rfl
  | ok a => exact .inr ⟨a, rfl, h⟩

theorem map_eq_error {α β : Type} {x : Checked α} {f : α → β} {crash : Crash} :
    x.map f = .error crash ↔ x = .error crash := by
  cases x with
  | error c =>
    rw [Except.map, Except.error.injEq, Except.error.injEq]
  | ok a =>
    constructor
    · intro h
      cases h
    · intro h
      cases h

theorem exists_ok_of_any {α : Type} {x : Checked α} {p : α → Bool}
    (h : x.toOption.any p = true) : ∃ a, x = .ok a ∧ p a = true := by
  cases x with
  | error c => cases h
  | ok a => exact ⟨a, rfl, h⟩

def remainder (n divisor : Nat) : Checked Nat :=
  if divisor = 0 then .error .zeroDivisor else .ok (n % divisor)

theorem remainder_eq_ok {n divisor : Nat} (pos : 0 < divisor) :
    remainder n divisor = .ok (n % divisor) := if_neg (Nat.ne_of_gt pos)

/-- One past the largest 16-bit address. -/
abbrev addressSpace : Nat := 0x10000

def advance (address n : Nat) : Checked Nat :=
  if address + n < addressSpace then .ok (address + n) else .error .overflow

theorem advance_eq_ok {address n : Nat} (h : address + n < addressSpace) :
    advance address n = .ok (address + n) := if_pos h

end FieldUpdate
