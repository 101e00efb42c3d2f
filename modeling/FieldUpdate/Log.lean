namespace FieldUpdate

inductive Level
  | error
  | warn
  | info
  | debug
  deriving DecidableEq

namespace Level

def rank : Level → Nat
  | error => 0
  | warn => 1
  | info => 2
  | debug => 3

def order (a b : Level) : Ordering := compare a.rank b.rank

def tag : Level → String
  | error => "[ERR] "
  | warn => "[WRN] "
  | info => "[INF] "
  | debug => "[DBG] "

end Level

structure Sink where
  /-- Whether accepted text is kept. -/
  keeps : Bool := true
  /-- Whether the write with this number fails. -/
  refuses : Nat → Bool := fun _ => false
  /-- The number of writes so far. -/
  writes : Nat := 0
  text : String := ""

namespace Sink

def keeping : Sink := {}

def failing : Sink := { refuses := fun _ => true }

def discarding : Sink := { keeps := false }

/-- Writes one piece; false if it was refused. -/
def write (s : Sink) (piece : String) : Bool × Sink :=
  if s.refuses s.writes then (false, { s with writes := s.writes + 1 })
  else
    (true, { s with writes := s.writes + 1, text := if s.keeps then s.text ++ piece else s.text })

def writeAll (s : Sink) : List String → Sink
  | [] => s
  | piece :: rest =>
    match s.write piece with
    | (false, s) => s
    | (true, s) => s.writeAll rest

end Sink

structure Logger where
  sink : Sink
  /-- The most detailed level that is written. -/
  level : Level

namespace Logger

/-- Errors only, and kept nowhere. -/
def disabled : Logger := ⟨Sink.discarding, .error⟩

/-- Starts a line; false if the level is filtered out or the sink refuses the tag. -/
def begin (l : Logger) (level : Level) : Bool × Logger :=
  if level.rank > l.level.rank then (false, l)
  else
    let (taken, sink) := l.sink.write level.tag
    (taken, { l with sink })

def line (l : Logger) (level : Level) (pieces : List String) : Bool × Logger :=
  match l.begin level with
  | (false, l) => (false, l)
  | (true, l) => (true, { l with sink := l.sink.writeAll pieces })

def takeText (l : Logger) : String × Logger :=
  (l.sink.text, { l with sink := { l.sink with text := "" } })

end Logger

end FieldUpdate
