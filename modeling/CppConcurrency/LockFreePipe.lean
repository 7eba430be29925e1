import CppConcurrency.CellQueues
import CppConcurrency.Machines
import Mathlib.Logic.Function.Basic

/-!
# `LockFreePipe`: one writer, one reader and the pointer `c`

The pipe works on any queue of cells. `w` and `f` belong to the writer, `r` to the
reader, and `c` is shared: every access to it is a step of its own. `write` and `unwrite`
do not touch `c` and are one step each, and so is the part of `read` after `check_read`.
`compare_exchange_weak` may fail although `c` is the expected pointer; a flag of the
step says so.
-/

namespace LockFreePipe

open Machines CellQueues

universe u v w

variable {Q : Type v} {Cell : Type w} {T : Type u}

/-- Where the writer stands. `unwriteReturn none` is a returned false. -/
inductive Writer (T : Type u) where
  | rest
  | writeReturn
  | unwriteReturn (value : Option (Option T))
  | flushExchange
  | flushStore
  | flushReturn (ok : Bool)
  | undefined
  deriving DecidableEq

def Writer.atRest : Writer T → Bool
  | .rest | .writeReturn | .unwriteReturn _ | .flushReturn _ => true
  | _ => false

/-- A flush is between its first access to `c` and its return. -/
def Writer.flushing : Writer T → Bool
  | .flushExchange | .flushStore => true
  | _ => false

/-- Where the reader stands; the flag tells `read` from a bare `check_read`.
`readReturn none` is a returned false. -/
inductive Reader (T : Type u) where
  | rest
  | load (reading : Bool)
  | exchange (reading : Bool)
  | take
  | checkReturn (ok : Bool)
  | readReturn (value : Option (Option T))
  | undefined
  deriving DecidableEq

def Reader.atRest : Reader T → Bool
  | .rest | .checkReturn _ | .readReturn _ => true
  | _ => false

/-- The members of the pipe, both threads, and what happened so far. No step reads the
history: `items` are the values written and not taken back, each with its cell, of
which the first `completed` end with a write that was complete, the first `visible` were
flushed, and the first `taken` lay in cells popped since; `reads` are the values that
`read` returned; `rang` tells whether a flush has returned false since the reader last
loaded `c`. -/
structure State (Q : Type v) (Cell : Type w) (T : Type u) where
  queue : Q
  w : Option Cell
  r : Option Cell
  f : Cell
  c : Option Cell
  writer : Writer T
  reader : Reader T
  items : List (Cell × T)
  completed : ℕ
  visible : ℕ
  taken : ℕ
  reads : List (Option T)
  rang : Bool

inductive Label (T : Type u) where
  | write (value : T) (incomplete : Bool)
  | unwrite
  | flush
  | writerStep (spurious : Bool)
  | checkRead
  | read
  | readerStep (spurious : Bool)
  deriving DecidableEq

section

variable (ops : CellQueue Q Cell T) [DecidableEq Cell]

/-- `write(value, incomplete)`. -/
def write (s : State Q Cell T) (value : T) (incomplete : Bool) : State Q Cell T :=
  match (ops.store s.queue (ops.back s.queue) value).bind ops.push with
  | some q =>
    { s with
      queue := q
      f := if incomplete then s.f else ops.back q
      writer := .writeReturn
      items := s.items ++ [(ops.back s.queue, value)]
      completed := if incomplete then s.completed else s.items.length + 1 }
  | none => { s with writer := .undefined }

/-- `unwrite(value)`. -/
def unwrite (s : State Q Cell T) : State Q Cell T :=
  if s.f = ops.back s.queue then { s with writer := .unwriteReturn none }
  else
    match (ops.unpush s.queue).bind fun q =>
        (ops.load q (ops.back q)).map fun value => (q, value) with
    | some (q, value) =>
      { s with queue := q, writer := .unwriteReturn (some value), items := s.items.dropLast }
    | none => { s with writer := .undefined }

/-- `flush()` up to its first access to `c`. -/
def flush (s : State Q Cell T) : State Q Cell T :=
  { s with writer := if s.w = some s.f then .flushReturn true else .flushExchange }

/-- The two accesses of `flush()`: the compare-exchange on `w`, which a failure
overwrites with `c`, and the plain store after a failure. -/
def advanceWriter (s : State Q Cell T) (spurious : Bool) : Option (State Q Cell T) :=
  match s.writer with
  | .flushExchange =>
    if s.c = s.w ∧ spurious = false then
      some { s with
        c := some s.f
        w := some s.f
        writer := .flushReturn true
        visible := s.completed }
    else some { s with w := s.c, writer := .flushStore }
  | .flushStore =>
    some { s with
      w := some s.f
      c := some s.f
      writer := .flushReturn false
      visible := s.completed
      rang := true }
  | _ => none

/-- `check_read()` up to its first access to `c`, for itself or inside `read()`. -/
def checkRead (s : State Q Cell T) (reading : Bool) : State Q Cell T :=
  { s with
    reader :=
      if some (ops.front s.queue) ≠ s.r ∧ s.r ≠ none then
        if reading then .take else .checkReturn true
      else .load reading }

/-- The load of `c`, the compare-exchange to null with the return of `check_read()`, and
the rest of `read()`. -/
def advanceReader (s : State Q Cell T) (spurious : Bool) : Option (State Q Cell T) :=
  match s.reader with
  | .load reading => some { s with r := s.c, reader := .exchange reading, rang := false }
  | .exchange reading =>
    some { s with
      c := if s.c = some (ops.front s.queue) ∧ spurious = false then none else s.c
      reader :=
        if some (ops.front s.queue) = s.r ∨ s.r = none then
          if reading then .readReturn none else .checkReturn false
        else if reading then .take else .checkReturn true }
  | .take =>
    match (ops.load s.queue (ops.front s.queue)).bind fun value =>
        (ops.pop s.queue).map fun q => (value, q) with
    | some (value, q) =>
      some { s with
        queue := q
        reader := .readReturn (some value)
        taken := if (s.items[s.taken]?).map Prod.fst = some (ops.front s.queue) then s.taken + 1
          else s.taken
        reads := s.reads ++ [value] }
    | none => some { s with reader := .undefined }
  | _ => none

def next (s : State Q Cell T) : Label T → Option (State Q Cell T)
  | .write value incomplete =>
    if s.writer.atRest then some (write ops s value incomplete) else none
  | .unwrite => if s.writer.atRest then some (unwrite ops s) else none
  | .flush => if s.writer.atRest then some (flush s) else none
  | .writerStep spurious => advanceWriter s spurious
  | .checkRead => if s.reader.atRest then some (checkRead ops s false) else none
  | .read => if s.reader.atRest then some (checkRead ops s true) else none
  | .readerStep spurious => advanceReader ops s spurious

/-- The constructor, which pushes the cell that ends the queue. -/
def start : State Q Cell T :=
  let q := ops.push ops.new
  let queue := q.getD ops.new
  { queue := queue
    w := some (ops.back queue)
    r := some (ops.back queue)
    f := ops.back queue
    c := some (ops.back queue)
    writer := if q.isSome then .rest else .undefined
    reader := .rest
    items := []
    completed := 0
    visible := 0
    taken := 0
    reads := []
    rang := false }

/-! What the writer's own functions leave alone. -/

variable (s : State Q Cell T) (value : T) (incomplete : Bool)

omit [DecidableEq Cell] in
@[simp] theorem write_reader : (write ops s value incomplete).reader = s.reader := by
  unfold write; split <;> rfl

omit [DecidableEq Cell] in
@[simp] theorem write_r : (write ops s value incomplete).r = s.r := by
  unfold write; split <;> rfl

omit [DecidableEq Cell] in
@[simp] theorem write_c : (write ops s value incomplete).c = s.c := by
  unfold write; split <;> rfl

omit [DecidableEq Cell] in
@[simp] theorem write_visible : (write ops s value incomplete).visible = s.visible := by
  unfold write; split <;> rfl

omit [DecidableEq Cell] in
@[simp] theorem write_taken : (write ops s value incomplete).taken = s.taken := by
  unfold write; split <;> rfl

omit [DecidableEq Cell] in
@[simp] theorem write_rang : (write ops s value incomplete).rang = s.rang := by
  unfold write; split <;> rfl

omit [DecidableEq Cell] in
theorem write_items {k : ℕ} (hk : k < s.items.length) :
    (write ops s value incomplete).items[k]? = s.items[k]? := by
  unfold write
  split
  · exact List.getElem?_append_left hk
  · rfl

@[simp] theorem unwrite_reader : (unwrite ops s).reader = s.reader := by
  unfold unwrite; split
  · rfl
  · split <;> rfl

@[simp] theorem unwrite_r : (unwrite ops s).r = s.r := by
  unfold unwrite; split
  · rfl
  · split <;> rfl

@[simp] theorem unwrite_c : (unwrite ops s).c = s.c := by
  unfold unwrite; split
  · rfl
  · split <;> rfl

@[simp] theorem unwrite_rang : (unwrite ops s).rang = s.rang := by
  unfold unwrite; split
  · rfl
  · split <;> rfl

@[simp] theorem unwrite_visible : (unwrite ops s).visible = s.visible := by
  unfold unwrite; split
  · rfl
  · split <;> rfl

@[simp] theorem unwrite_taken : (unwrite ops s).taken = s.taken := by
  unfold unwrite; split
  · rfl
  · split <;> rfl

theorem unwrite_items {k : ℕ} (hk : k < (unwrite ops s).items.length) :
    (unwrite ops s).items[k]? = s.items[k]? := by
  unfold unwrite at hk ⊢
  split
  · rfl
  · split
    · rename_i moved _ _ _ undone
      simp only [if_neg moved, undone, List.length_dropLast] at hk
      rw [List.getElem?_dropLast, if_pos hk]
    · rfl

/-- One writer and one reader, each making any sequence of calls. -/
def machine : Machine (State Q Cell T) (Label T) where
  start := start ops
  next := next ops

/-- What a step can be, by its label. -/
inductive Step (s : State Q Cell T) : Label T → State Q Cell T → Prop where
  | write (rest : s.writer.atRest = true) (value : T) (incomplete : Bool) :
      Step s (.write value incomplete) (write ops s value incomplete)
  | unwrite (rest : s.writer.atRest = true) : Step s .unwrite (unwrite ops s)
  | flush (rest : s.writer.atRest = true) : Step s .flush (flush s)
  | writerStep {spurious : Bool} {s' : State Q Cell T} (moved : advanceWriter s spurious = some s') :
      Step s (.writerStep spurious) s'
  | checkRead (rest : s.reader.atRest = true) : Step s .checkRead (checkRead ops s false)
  | read (rest : s.reader.atRest = true) : Step s .read (checkRead ops s true)
  | readerStep {spurious : Bool} {s' : State Q Cell T}
      (moved : advanceReader ops s spurious = some s') : Step s (.readerStep spurious) s'

theorem next_step {s s' : State Q Cell T} {l : Label T} (hs : next ops s l = some s') :
    Step ops s l s' := by
  cases l with
  | writerStep spurious => exact .writerStep hs
  | readerStep spurious => exact .readerStep hs
  | write value incomplete =>
    obtain ⟨rest, ⟨⟩⟩ := Option.ite_none_right_eq_some.mp hs
    exact .write rest value incomplete
  | unwrite =>
    obtain ⟨rest, ⟨⟩⟩ := Option.ite_none_right_eq_some.mp hs
    exact .unwrite rest
  | flush =>
    obtain ⟨rest, ⟨⟩⟩ := Option.ite_none_right_eq_some.mp hs
    exact .flush rest
  | checkRead =>
    obtain ⟨rest, ⟨⟩⟩ := Option.ite_none_right_eq_some.mp hs
    exact .checkRead rest
  | read =>
    obtain ⟨rest, ⟨⟩⟩ := Option.ite_none_right_eq_some.mp hs
    exact .read rest

/-- The accesses of a flush: a compare-exchange that succeeds, one that fails, and the
store after it. -/
theorem advanceWriter_cases {s s' : State Q Cell T} {spurious : Bool}
    (hs : advanceWriter s spurious = some s') :
    (s.writer = .flushExchange ∧ s' = { s with
      c := some s.f, w := some s.f, writer := .flushReturn true, visible := s.completed } ∧
      s.c = s.w) ∨
    (s.writer = .flushExchange ∧ s' = { s with w := s.c, writer := .flushStore }) ∨
    (s.writer = .flushStore ∧ s' = { s with
      w := some s.f, c := some s.f, writer := .flushReturn false, visible := s.completed,
      rang := true }) := by
  unfold advanceWriter at hs
  split at hs
  · rename_i hw
    split at hs
    · rename_i same
      exact Or.inl ⟨hw, (Option.some.inj hs).symm, same.1⟩
    · exact Or.inr (Or.inl ⟨hw, (Option.some.inj hs).symm⟩)
  · rename_i hw
    exact Or.inr (Or.inr ⟨hw, (Option.some.inj hs).symm⟩)
  · cases hs

/-- The reader pops, and leaves what the writer works on alone. -/
theorem advanceReader_keeps {s s' : State Q Cell T} {spurious : Bool}
    (hs : advanceReader ops s spurious = some s') :
    s'.items = s.items ∧ s'.visible = s.visible ∧ s'.completed = s.completed ∧ s'.f = s.f ∧
      s'.writer = s.writer ∧ (s'.queue = s.queue ∨ ops.pop s.queue = some s'.queue) := by
  unfold advanceReader at hs
  split at hs
  · obtain rfl := Option.some.inj hs
    exact ⟨rfl, rfl, rfl, rfl, rfl, Or.inl rfl⟩
  · obtain rfl := Option.some.inj hs
    exact ⟨rfl, rfl, rfl, rfl, rfl, Or.inl rfl⟩
  · split at hs
    · rename_i value q defined
      obtain ⟨value', -, defined⟩ := Option.bind_eq_some_iff.mp defined
      obtain ⟨q', popped, eq⟩ := Option.map_eq_some_iff.mp defined
      obtain ⟨rfl, rfl⟩ := Prod.mk.inj eq
      obtain rfl := Option.some.inj hs
      exact ⟨rfl, rfl, rfl, rfl, rfl, Or.inr popped⟩
    · obtain rfl := Option.some.inj hs
      exact ⟨rfl, rfl, rfl, rfl, rfl, Or.inl rfl⟩
  · cases hs

end

end LockFreePipe
