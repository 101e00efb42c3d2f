import FieldUpdate.Proofs.Addressing

namespace FieldUpdate

def stateByte (high : Bool) : UInt8 := if high then 1 else 0

theorem Session.levelOf?_eq_some_iff {state : UInt8} {high : Bool} :
    Session.levelOf? state = some high ↔ state = stateByte high := by
  constructor
  · intro h
    unfold levelOf? at h
    split at h
    · cases h
      rfl
    · cases h
      rfl
    · cases h
  · rintro rfl
    cases high <;> rfl

def selection? : Bytes → Option (UInt8 × Bool)
  | [index, state] => (Session.levelOf? state).map fun high => (index, high)
  | _ => none

theorem selection?_eq_some_iff {payload : Bytes} {index : UInt8} {high : Bool} :
    selection? payload = some (index, high) ↔ payload = [index, stateByte high] := by
  constructor
  · intro h
    unfold selection? at h
    split at h
    · rename_i _ index' state
      obtain ⟨high', level, same⟩ := Option.map_eq_some_iff.1 h
      cases same
      rw [Session.levelOf?_eq_some_iff.1 level]
    · cases h
  · rintro rfl
    rw [selection?, Session.levelOf?_eq_some_iff.2 rfl]
    rfl

def Call.selects? : Call → Option (UInt8 × Bool)
  | run cmd payload =>
    if Command.ofByte? cmd = some .setChildSelect then selection? payload else none
  | broadcast _ => none

namespace Request

variable {r : Request} {index : UInt8} {high : Bool}

/-- The child and the level that a request selects. -/
def selects? (r : Request) : Option (UInt8 × Bool) := r.call?.bind Call.selects?

/-- The request is a select command for a child and a level, and leaves room for a reply. -/
def Selects (r : Request) (index : UInt8) (high : Bool) : Prop :=
  r.Brings .setChildSelect [index, stateByte high] 0

theorem Selects.inj {index' : UInt8} {high' : Bool} (h : r.Selects index high)
    (h' : r.Selects index' high') : index' = index ∧ high' = high := by
  have body := h.body.symm.trans h'.body
  simp only [List.cons.injEq, true_and, and_true] at body
  obtain ⟨rfl, state⟩ := body
  have asked := Session.levelOf?_eq_some_iff.2 state
  exact ⟨rfl, Option.some.inj (asked.symm.trans (Session.levelOf?_eq_some_iff.2 rfl))⟩

theorem selects?_eq_some_iff : r.selects? = some (index, high) ↔ r.Selects index high := by
  unfold selects? Selects
  rw [Option.bind_eq_some_iff]
  constructor
  · rintro ⟨cmd | cmd, called, selects⟩
    · unfold Call.selects? at selects
      simp only at selects
      split at selects
      · rename_i known
        rw [Command.byte_of_ofByte? known, selection?_eq_some_iff.1 selects] at called
        exact call?_eq_run_byte_iff.1 called
      · cases selects
    · cases selects
  · intro brings
    refine ⟨_, call?_eq_run_byte_iff.2 brings, ?_⟩
    rw [Call.selects?, if_pos (Command.ofByte?_byte _), selection?_eq_some_iff.2 rfl]

end Request

namespace Lines

variable {l l' : Lines} {line : Nat}

theorem level_drive (l : Lines) (line other : Nat) (high : Bool) :
    { l with driven := (line, high) :: l.driven }.level other =
      if other = line then some high else l.level other := by
  unfold level
  rw [List.lookup_cons]
  by_cases same : other = line
  · simp [same]
  · rw [beq_false_of_ne same, if_neg same]

theorem level_lower {lines : List Nat} (lowered : l.lower lines = (.ok (), l')) :
    l'.count = l.count ∧ ∀ line, l'.level line = if line ∈ lines then some false else l.level line := by
  induction lines generalizing l with
  | nil =>
    cases lowered
    exact ⟨rfl, fun line => (if_neg List.not_mem_nil).symm⟩
  | cons first rest ih =>
    rw [lower, drive] at lowered
    by_cases broken : first ∈ l.broken
    · rw [if_pos broken] at lowered
      cases lowered
    · rw [if_neg broken] at lowered
      obtain ⟨count, levels⟩ := ih (l := { l with driven := (first, false) :: l.driven }) lowered
      refine ⟨count, fun line => ?_⟩
      rw [levels, level_drive]
      by_cases later : line ∈ rest
      · rw [if_pos later, if_pos (List.mem_cons_of_mem first later)]
      · by_cases same : line = first
        · rw [if_neg later, if_pos same, if_pos (by rw [same]; exact List.mem_cons_self)]
        · rw [if_neg later, if_neg same,
            if_neg fun member => (List.mem_cons.1 member).elim same later]

theorem level_start {count : Nat} {broken : List Nat} (started : start count broken = (.ok (), l)) :
    l.count = count ∧ ∀ line < count, l.level line = some false := by
  obtain ⟨same, levels⟩ := level_lower started
  exact ⟨same, fun line inside => by rw [levels, if_pos (List.mem_range.2 inside)]⟩

end Lines

/-- What a selection makes of the children; one for a child that a board does not have is void. -/
def Children.afterSelection (c : Children) : Option (UInt8 × Bool) → Children
  | .none => c
  | .some (index, high) => if index < c.count then (c.select index high).2 else c

def Children.after (c : Children) (call : Call) : Children := c.afterSelection call.selects?

namespace Session

variable {g : Geometry} {s s' : Session g} {r : Request} {answer : Answer} {payload : Bytes}
  {capacity : Nat}

theorem selectChild_children (s : Session g) (payload : Bytes) :
    (s.selectChild payload).2.children = s.children.afterSelection (selection? payload) := by
  have void (what : Option (UInt8 × Bool)) (childless : s.children.count = 0) :
      s.children.afterSelection what = s.children := by
    cases what with
    | none => rfl
    | some what =>
      refine if_neg ?_
      rw [childless]
      exact UInt8.not_lt_zero
  unfold selectChild
  split
  · rename_i childless
    exact (void _ childless).symm
  · match payload with
    | [] => rfl
    | [_] => rfl
    | [index, state] =>
      rw [selection?]
      simp only
      cases levelOf? state with
      | none => rfl
      | some high =>
        simp only [Option.map_some, Children.afterSelection]
        by_cases inside : index < s.children.count
        · rw [if_neg (UInt8.not_le.2 inside), if_pos inside]
          rcases s.children.select index high with ⟨(_ | _) | _, children⟩ <;> rfl
        · rw [if_pos (UInt8.not_lt.1 inside), if_neg inside]
    | _ :: _ :: _ :: _ => rfl

theorem setAddress_children (s : Session g) (payload : Bytes) :
    (s.setAddress payload).2.children = s.children := by
  unfold setAddress
  repeat' split
  all_goals rfl

theorem startApplication_children (s : Session g) (payload : Bytes) :
    (s.startApplication payload).2.children = s.children := by
  unfold startApplication
  split <;> rfl

theorem perform_children {command : Command}
    (h : s.perform command payload capacity = .ok (answer, s')) :
    s'.children = s.children.afterSelection
      (if command = .setChildSelect then selection? payload else none) := by
  cases command with
  | setAddress => exact part_of_ok (s.setAddress_children payload) h
  | startApplication => exact part_of_ok (s.startApplication_children payload) h
  | writeFlash => exact (sameOutside_writeFlash h).children
  | finalizeFlash => exact (sameOutside_finalizeFlash h).children
  | setChildSelect => exact part_of_ok (s.selectChild_children payload) h
  | _ =>
    cases h
    rfl

theorem run_children {cmd : UInt8} {output : Bytes}
    (h : s.run cmd payload output = .ok (answer, s')) :
    s'.children = s.children.after (.run cmd payload) := by
  rw [run] at h
  rw [Children.after, Call.selects?]
  cases known : Command.ofByte? cmd with
  | none =>
    rw [known] at h
    cases h
    rfl
  | some command =>
    rw [known] at h
    simp only [Option.some.injEq]
    exact perform_children h

theorem start_children (board : Board) (flash : Programmer g) (children : Children)
    (logger : Logger) : (start board flash children logger).children = children := by
  unfold start
  simp only
  split <;> rfl

theorem broadcast_children (s : Session g) (cmd : UInt8) :
    (s.broadcast cmd).children = s.children.after (.broadcast cmd) := by
  unfold broadcast
  split <;> rfl

theorem exchange_children {e : Exchanged (Session g)} (h : s.exchange r = .ok e) :
    e.state.children = s.children.afterSelection r.selects? := by
  rcases bind_eq_ok.1 h with ⟨served, answer, h⟩
  cases h
  have children := Responder.exchange_state run_children broadcast_children answer
  rw [(sameOutside_noteCorrupt s r).children] at children
  rw [(sameOutside_noteHandled _ _ _ _).children, children, Request.selects?]
  cases r.call? with
  | none => rfl
  | some call => rfl

section Lines

variable {l : Lines} {n : Nat} {index : UInt8} {high : Bool}

/-- The count of children is one byte wide, which is enough for it. -/
theorem lt_lineCount_iff (byte : l.count ≤ 255) :
    index < (Children.lines l).count ↔ index.toNat < l.count := by
  rw [UInt8.lt_iff_toNat_lt, Children.count, Nat.toUInt8_eq, UInt8.toNat_ofNat',
    Nat.mod_eq_of_lt (by omega)]

theorem lineCount_ne_zero (byte : l.count ≤ 255) (some_lines : 1 ≤ l.count) :
    (Children.lines l).count ≠ 0 := by
  intro childless
  have below : (0 : UInt8) < (Children.lines l).count := (lt_lineCount_iff byte).2 some_lines
  rw [childless] at below
  exact UInt8.not_lt_zero below

theorem afterSelection_lines (byte : l.count ≤ 255) :
    (Children.lines l).afterSelection (some (index, high)) =
      .lines (if index.toNat < l.count ∧ index.toNat ∉ l.broken
        then { l with driven := (index.toNat, high) :: l.driven } else l) := by
  have below : index < (Children.lines l).count ↔ index.toNat < l.count := lt_lineCount_iff byte
  rw [Children.afterSelection]
  by_cases inside : index.toNat < l.count
  · rw [if_pos (below.2 inside), Children.select]
    simp only [inside, if_true, true_and]
    by_cases broken : index.toNat ∈ l.broken
    · rw [Lines.drive, if_pos broken, if_neg fun intact => intact broken]
    · rw [Lines.drive, if_neg broken, if_pos broken]
  · rw [if_neg (mt below.1 inside), if_neg fun both => inside both.1]

theorem selectChild_of_lines (lines : s.children = .lines l) (byte : l.count ≤ 255)
    (inside : index.toNat < l.count) :
    (s.selectChild [index, stateByte high]).1 =
      if index.toNat ∈ l.broken then Status.failed.answer else Status.ok.answer := by
  have below : index < (Children.lines l).count := (lt_lineCount_iff byte).2 inside
  rw [selectChild, lines, if_neg (lineCount_ne_zero byte (by omega))]
  simp only [levelOf?_eq_some_iff.2 rfl]
  rw [if_neg (UInt8.not_le.2 below), Children.select]
  simp only [inside, if_true]
  by_cases broken : index.toNat ∈ l.broken
  · rw [Lines.drive, if_pos broken, if_pos broken]
  · rw [Lines.drive, if_neg broken, if_neg broken]

theorem exchange_of_selects (selects : r.Selects index high) (lines : s.children = .lines l)
    (byte : l.count ≤ 255) (inside : index.toNat < l.count) :
    ∃ e, s.exchange r = .ok e ∧
      (index.toNat ∉ l.broken → e.Answers r .ok [] ∧
        e.state.children = .lines { l with driven := (index.toNat, high) :: l.driven }) ∧
      (index.toNat ∈ l.broken → e.Answers r .failed [] ∧ e.state.children = .lines l) := by
  have answer : (s.selectChild [index, stateByte high]).1 =
      if index.toNat ∈ l.broken then Status.failed.answer else Status.ok.answer :=
    selectChild_of_lines lines byte inside
  have run : s.perform .setChildSelect [index, stateByte high] r.capacity =
      .ok (s.selectChild [index, stateByte high]) := rfl
  obtain ⟨s', result⟩ : ∃ s', s.selectChild [index, stateByte high] =
      (if index.toNat ∈ l.broken then Status.failed.answer else Status.ok.answer, s') :=
    ⟨_, Prod.ext answer rfl⟩
  rw [result] at run
  have whole : (if index.toNat ∈ l.broken then Status.failed.answer
      else Status.ok.answer).Whole r.capacity := by
    split
    · exact answer_whole (by decide) _
    · exact answer_whole (by decide) _
  obtain ⟨e, answered, answers, -⟩ := exchange_of_perform selects run whole
  have children := exchange_children answered
  rw [Request.selects?_eq_some_iff.2 selects, lines, afterSelection_lines byte] at children
  refine ⟨e, answered, fun intact => ?_, fun broken => ?_⟩
  · rw [if_pos ⟨inside, intact⟩] at children
    rw [if_neg intact] at answers
    exact ⟨answers, children⟩
  · rw [if_neg fun both => both.2 broken] at children
    rw [if_pos broken] at answers
    exact ⟨answers, children⟩

theorem exchange_of_not_selects {e : Exchanged (Session g)} (answer : s.exchange r = .ok e)
    (lines : s.children = .lines l) (byte : l.count ≤ 255)
    (other : ∀ index high, index.toNat < l.count → ¬r.Selects index high) :
    e.state.children = .lines l := by
  rw [exchange_children answer, lines]
  cases what : r.selects? with
  | none => rfl
  | some selection =>
    obtain ⟨index, high⟩ := selection
    have selects := Request.selects?_eq_some_iff.1 what
    rw [afterSelection_lines byte, if_neg fun both => other index high both.1 selects]

theorem exchange_of_asks (asks : r.Brings .getNumChildren [] 1) (lines : s.children = .lines l)
    (some_lines : 1 ≤ l.count) (byte : l.count ≤ 255) :
    ∃ e, s.exchange r = .ok e ∧ e.Answers r .ok [l.count.toUInt8] := by
  have answer : s.childCount [] r.capacity = ⟨⟨.ok, 1⟩, [l.count.toUInt8]⟩ := by
    rw [childCount, lines, if_neg (lineCount_ne_zero byte some_lines)]
    exact if_pos asks.capacity_le
  have run : s.perform .getNumChildren [] r.capacity =
      .ok (⟨⟨.ok, 1⟩, [l.count.toUInt8]⟩, s) := by
    rw [← answer]
    rfl
  obtain ⟨e, answered, answers, -⟩ :=
    exchange_of_perform asks run ⟨nofun, rfl, asks.capacity_le⟩
  exact ⟨e, answered, answers⟩

end Lines

/-- A session over `n` select lines that all could be driven low at first, and the requests it
served since with what each exchange left, the latest first. Lines break and heal as they like, and
whatever else happens leaves the children alone. -/
inductive Chained (n : Nat) : List (Request × Exchanged (Session g)) → Session g → Prop
  | start (board : Board) (flash : Programmer g) (broken : List Nat) (lines : Lines)
      (logger : Logger) (lowered : Lines.start n broken = (.ok (), lines)) :
      Chained n [] (start board flash (.lines lines) logger)
  | exchange (history : List (Request × Exchanged (Session g))) (s : Session g) (r : Request)
      (e : Exchanged (Session g)) (before : Chained n history s) (answer : s.exchange r = .ok e) :
      Chained n ((r, e) :: history) e.state
  | breakage (history : List (Request × Exchanged (Session g))) (s : Session g)
      (broken : List Nat) (before : Chained n history s) :
      Chained n history { s with children := s.children.setBroken broken }
  | otherwise (history : List (Request × Exchanged (Session g))) (s s' : Session g)
      (before : Chained n history s) (same : s'.children = s.children) : Chained n history s'

def Selected (x : Request × Exchanged (Session g)) (index : UInt8) (high : Bool) : Prop :=
  x.1.Selects index high ∧ x.2.Answers x.1 .ok []

/-- What the latest of the exchanges that set a line set it to, or low. -/
def LastSelected (history : List (Request × Exchanged (Session g))) (index : UInt8)
    (high : Bool) : Prop :=
  (∃ later x earlier, history = later ++ x :: earlier ∧ Selected x index high ∧
      ∀ y ∈ later, ∀ level, ¬Selected y index level) ∨
    high = false ∧ ∀ y ∈ history, ∀ level, ¬Selected y index level

section History

variable {history : List (Request × Exchanged (Session g))} {x : Request × Exchanged (Session g)}
  {index : UInt8} {high level : Bool} {n : Nat} {l : Lines}

theorem lastSelected_cons_of_selected (h : Selected x index high) :
    LastSelected (x :: history) index level ↔ level = high := by
  constructor
  · rintro (⟨later, y, earlier, split, selected, others⟩ | ⟨-, others⟩)
    · cases later with
      | nil =>
        obtain ⟨rfl, -⟩ := List.cons.inj split
        exact (h.1.inj selected.1).2
      | cons z later =>
        obtain ⟨rfl, -⟩ := List.cons.inj split
        exact absurd h (others x List.mem_cons_self high)
    · exact absurd h (others x List.mem_cons_self high)
  · rintro rfl
    exact .inl ⟨[], x, history, rfl, h, fun _ member => absurd member List.not_mem_nil⟩

theorem lastSelected_cons_of_not_selected (h : ∀ high, ¬Selected x index high) :
    LastSelected (x :: history) index level ↔ LastSelected history index level := by
  constructor
  · rintro (⟨later, y, earlier, split, selected, others⟩ | ⟨low, others⟩)
    · cases later with
      | nil =>
        obtain ⟨rfl, -⟩ := List.cons.inj split
        exact absurd selected (h level)
      | cons z later =>
        exact .inl ⟨later, y, earlier, (List.cons.inj split).2, selected,
          fun w member => others w (List.mem_cons_of_mem z member)⟩
    · exact .inr ⟨low, fun y member => others y (List.mem_cons_of_mem x member)⟩
  · rintro (⟨later, y, earlier, rfl, selected, others⟩ | ⟨low, others⟩)
    · exact .inl ⟨x :: later, y, earlier, rfl, selected, List.forall_mem_cons.2 ⟨h, others⟩⟩
    · exact .inr ⟨low, List.forall_mem_cons.2 ⟨h, others⟩⟩

/-- The session has `n` lines, each at the level that was last selected. -/
def Following (n : Nat) (history : List (Request × Exchanged (Session g))) (c : Children) : Prop :=
  ∃ l, c = .lines l ∧ l.count = n ∧ ∀ index : UInt8, index.toNat < n → ∀ high,
    l.level index.toNat = some high ↔ LastSelected history index high

theorem following_start {broken : List Nat} (lowered : Lines.start n broken = (.ok (), l)) :
    Following (g := g) n [] (.lines l) := by
  obtain ⟨count, low⟩ := Lines.level_start lowered
  refine ⟨l, rfl, count, fun index inside high => ?_⟩
  rw [low _ inside, Option.some.injEq]
  constructor
  · rintro rfl
    exact .inr ⟨rfl, fun _ member => absurd member List.not_mem_nil⟩
  · rintro (⟨later, y, earlier, split, -⟩ | ⟨low, -⟩)
    · exact absurd split.symm (by simp)
    · exact low.symm

theorem Following.kept {e : Exchanged (Session g)} (h : Following n history s.children)
    (children : e.state.children = s.children)
    (none : ∀ index : UInt8, index.toNat < n → ∀ high, ¬Selected (r, e) index high) :
    Following n ((r, e) :: history) e.state.children := by
  obtain ⟨l, lines, count, levels⟩ := h
  refine ⟨l, children.trans lines, count, fun index inside high => ?_⟩
  rw [levels index inside, lastSelected_cons_of_not_selected (none index inside)]

/-- An exchange sets the line that it selects, if it is answered with success, and no other. -/
theorem Following.exchange {e : Exchanged (Session g)} (h : Following n history s.children)
    (byte : n ≤ 255) (answer : s.exchange r = .ok e) :
    Following n ((r, e) :: history) e.state.children := by
  obtain ⟨l, lines, rfl, levels⟩ := id h
  -- A request that selects no line of the board leaves all of them.
  by_cases selecting : ∃ index high, index.toNat < l.count ∧ r.Selects index high
  · obtain ⟨index, high, inside, selects⟩ := selecting
    obtain ⟨e', answer', intact, broken⟩ := exchange_of_selects selects lines byte inside
    cases answer.symm.trans answer'
    by_cases stuck : index.toNat ∈ l.broken
    · obtain ⟨failed, children⟩ := broken stuck
      refine h.kept (children.trans lines.symm) fun _ _ _ selected => ?_
      cases (failed.inj selected.2).1
    · obtain ⟨ok, children⟩ := intact stuck
      refine ⟨_, children, rfl, fun other below level => ?_⟩
      rw [Lines.level_drive]
      by_cases same : other = index
      · rw [same, if_pos rfl, lastSelected_cons_of_selected ⟨selects, ok⟩, Option.some.injEq]
        exact eq_comm
      · rw [if_neg fun line => same (UInt8.toNat_inj.1 line), levels other below,
          lastSelected_cons_of_not_selected]
        rintro level' ⟨selects', -⟩
        exact same (selects.inj selects').1
  · have other (index : UInt8) (high : Bool) (inside : index.toNat < l.count) :
        ¬r.Selects index high := fun selects => selecting ⟨index, high, inside, selects⟩
    refine h.kept ?_ fun index inside high selected => other index high inside selected.1
    rw [exchange_of_not_selects answer lines byte other, lines]

theorem Chained.following {history : List (Request × Exchanged (Session g))}
    (h : Chained n history s) (byte : n ≤ 255) : Following n history s.children := by
  induction h with
  | start board flash broken lines logger lowered =>
    rw [start_children]
    exact following_start lowered
  | exchange history s r e before answer ih => exact ih.exchange byte answer
  | breakage history s broken before ih =>
    obtain ⟨l, lines, count, levels⟩ := ih
    exact ⟨{ l with broken }, congrArg (Children.setBroken · broken) lines, count, levels⟩
  | otherwise history s s' before same ih =>
    rw [same]
    exact ih

end History

/-- Lines follow the selections that were answered with success. Whatever a session over up to 255
lines served, and whichever of them break or heal, each line has the level that was last selected
with success, or is low. A select command for a line sets that line once and is answered with
success, unless the line is broken: then it is answered with failure and nothing is driven. No other
request drives a line. The number of lines is told to whoever asks. -/
theorem lines_follow_selections {n : Nat} {history : List (Request × Exchanged (Session g))}
    (some_lines : 1 ≤ n) (byte : n ≤ 255) (chained : Chained n history s) :
    ∃ l, s.children = .lines l ∧ l.count = n ∧
      (∀ index : UInt8, index.toNat < n → ∀ high,
        l.level index.toNat = some high ↔ LastSelected history index high) ∧
      (∀ (r : Request) index high, r.Selects index high → index.toNat < n →
        ∃ e, s.exchange r = .ok e ∧
          (index.toNat ∉ l.broken → e.Answers r .ok [] ∧
            e.state.children = .lines { l with driven := (index.toNat, high) :: l.driven }) ∧
          (index.toNat ∈ l.broken → e.Answers r .failed [] ∧ e.state.children = .lines l)) ∧
      (∀ (r : Request) e, s.exchange r = .ok e →
        (∀ index high, index.toNat < n → ¬r.Selects index high) →
          e.state.children = .lines l) ∧
      ∀ r : Request, r.Brings .getNumChildren [] 1 →
        ∃ e, s.exchange r = .ok e ∧ e.Answers r .ok [n.toUInt8] := by
  obtain ⟨l, lines, rfl, levels⟩ := chained.following byte
  exact ⟨l, lines, rfl, levels,
    fun r index high selects inside => exchange_of_selects selects lines byte inside,
    fun r e answer other => exchange_of_not_selects answer lines byte other,
    fun r asks => exchange_of_asks asks lines some_lines byte⟩

/-- One of two lines is selected, the other breaks before it can be. -/
theorem lines_follow_selections_broken :
    ∃ (history : List (Request × Exchanged (Session .small))) (s : Session .small), 1 ≤ 2 ∧
      2 ≤ 255 ∧ Chained 2 history s ∧ s.children.driven = [(1, true), (1, false), (0, false)] ∧
      LastSelected history 1 true ∧ LastSelected history 0 false := by
  let first := Request.sealed .crc8 1 .setChildSelect [1, 1]
  let second := Request.sealed .crc8 1 .setChildSelect [0, 1]
  let lines : Lines := ⟨2, [], [(1, false), (0, false)]⟩
  let s := start .interface (.small []) (.lines lines) .disabled
  obtain ⟨e, selected, later⟩ := exists_ok_of_any (x := s.exchange first)
    (p := fun e =>
      let s : Session .small := { e.state with children := e.state.children.setBroken [0] }
      (s.exchange second).toOption.any fun e' =>
        e'.state.children.driven = [(1, true), (1, false), (0, false)]) (by decide +kernel)
  obtain ⟨e', failed, good⟩ := exists_ok_of_any later
  have driven := of_decide_eq_true good
  have chained : Chained 2 [(second, e'), (first, e)] e'.state :=
    .exchange _ _ _ _ (.breakage _ _ [0] (.exchange _ _ _ _ (.start _ _ [] lines _ rfl) selected))
      failed
  obtain ⟨l, children, -, levels, -⟩ :=
    lines_follow_selections (by decide) (by decide) chained
  have drove : l.driven = [(1, true), (1, false), (0, false)] := by
    rw [← driven, children]
    rfl
  have level (line : Nat) : l.level line =
      List.lookup line [(1, true), (1, false), (0, false)] := by
    rw [Lines.level, drove]
  exact ⟨_, _, by decide, by decide, chained, driven, (levels 1 (by decide) true).1 (level 1),
    (levels 0 (by decide) false).1 (level 0)⟩

end Session

end FieldUpdate
