import FieldUpdate.Bytes

namespace FieldUpdate

inductive SelectError
  | noSuchChild
  /-- The line could not be driven. -/
  | pin
  deriving DecidableEq

/-- Select lines, active high. -/
structure Lines where
  count : Nat
  /-- The lines that cannot be driven at present. -/
  broken : List Nat
  /-- Every line driven so far and its new level, the latest first. -/
  driven : List (Nat × Bool)
  deriving DecidableEq

namespace Lines

def drive (l : Lines) (line : Nat) (high : Bool) : Except SelectError Unit × Lines :=
  if line ∈ l.broken then (.error .pin, l)
  else (.ok (), { l with driven := (line, high) :: l.driven })

def lower (l : Lines) : List Nat → Except SelectError Unit × Lines
  | [] => (.ok (), l)
  | line :: rest =>
    match l.drive line false with
    | (.error e, l) => (.error e, l)
    | (.ok (), l) => l.lower rest

def start (count : Nat) (broken : List Nat) : Except SelectError Unit × Lines :=
  lower ⟨count, broken, []⟩ (List.range count)

/-- The level of a line: that of the last time it was driven, and none if nobody drove it. -/
def level (l : Lines) (line : Nat) : Option Bool := l.driven.lookup line

end Lines

/-- Some other way to reach children. How many there are and how a selection goes may depend on all
selections before. -/
structure Selector where
  countAfter : List (UInt8 × Bool) → UInt8
  answerAfter : List (UInt8 × Bool) → UInt8 → Bool → Except SelectError Unit
  /-- The selections so far that found a child, the latest first. -/
  selections : List (UInt8 × Bool) := []

namespace Selector

def count (s : Selector) : UInt8 := s.countAfter s.selections

/-- A selection of a child that is not there leaves no trace. -/
def select (s : Selector) (index : UInt8) (selected : Bool) : Except SelectError Unit × Selector :=
  let report := s.answerAfter s.selections index selected
  match report with
  | .error .noSuchChild => (report, s)
  | .error .pin => (report, { s with selections := (index, selected) :: s.selections })
  | .ok () => (report, { s with selections := (index, selected) :: s.selections })

end Selector

inductive Children
  | none
  | lines (l : Lines)
  | other (s : Selector)

namespace Children

def count : Children → UInt8
  | none => 0
  | lines l => l.count.toUInt8
  | other s => s.count

def select (c : Children) (index : UInt8) (selected : Bool) : Except SelectError Unit × Children :=
  match c with
  | none => (.error .noSuchChild, none)
  | lines l =>
    if index.toNat < l.count then
      let (report, l) := l.drive index.toNat selected
      (report, lines l)
    else (.error .noSuchChild, lines l)
  | other s =>
    let (report, s) := s.select index selected
    (report, other s)

def driven : Children → List (Nat × Bool)
  | lines l => l.driven
  | none => []
  | other _ => []

def setBroken (c : Children) (broken : List Nat) : Children :=
  match c with
  | lines l => lines { l with broken }
  | none => none
  | other s => other s

end Children

end FieldUpdate
