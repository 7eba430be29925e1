import CppConcurrency.DataChunkQueue
import CppConcurrency.Machines

/-!
# A writer and a reader of one `zmqQueue`

The writer pushes and unpushes while the reader pops. An operation is cut before each
access to the spare pointer or to a chunk, except that a thread goes on reading a `next`
link, which only the writer writes. An element counts from the end of its push to the
beginning of its unpush or pop, and only then may an unpush or a pop begin.
-/

namespace DataChunkQueue.Threads

open Machines ZmqQueue

universe u

/-- Where the writer stands. In `exchanges`, `links` and `joins` it is inside `push`, in
the others inside `unpush`. -/
inductive Writer where
  | rests
  | exchanges
  | links (sc : Pointer)
  | joins (link : Pointer)
  | retracts
  | frees
  | cuts
  deriving DecidableEq

/-- Where the reader stands inside `pop`. -/
inductive Reader where
  | rests
  | crosses
  | detaches (t : Pointer)
  | spares (t : Pointer)
  | drops (sc : Pointer)
  deriving DecidableEq

structure State (T : Type u) where
  queue : ZmqQueue T
  writer : Writer
  reader : Reader
  held : ℕ

/-- The calls, and the next step inside a call. -/
inductive Label where
  | push
  | unpush
  | pop
  | write
  | read
  deriving DecidableEq

section

variable {T : Type u}

def beginPush (N : ℕ) (s : State T) : State T :=
  let q := { s.queue with
    backChunk := s.queue.endChunk, backPos := s.queue.endPos, endPos := s.queue.endPos + 1 }
  if q.endPos = N then { s with queue := q, held := s.held + 1 }
  else { s with queue := q, writer := .exchanges }

def beginUnpush (N : ℕ) (s : State T) : Option (State T) :=
  let q := s.queue
  let s := { s with writer := .retracts, held := s.held - 1 }
  if q.backPos ≠ 0 then some { s with queue := { q with backPos := q.backPos - 1 } }
  else
    (q.chunk q.backChunk).map fun k =>
      { s with queue := { q with backPos := N - 1, backChunk := k.prev } }

def advanceWriter (N : ℕ) (s : State T) : Option (State T) :=
  let q := s.queue
  match s.writer with
  | .rests => none
  | .exchanges =>
    some { s with queue := { q with spareChunk := .null }, writer := .links q.spareChunk }
  | .links sc =>
    let (link, q) := if sc = .null then q.malloc else (sc, q)
    (q.modify (fun k => { k with next := link }) q.endChunk).map fun q =>
      { s with queue := q, writer := .joins link }
  | .joins link =>
    (q.modify (fun k => { k with prev := q.endChunk }) link).bind fun q =>
      (q.chunk q.endChunk).map fun k =>
        { s with
          queue := { q with endChunk := k.next, endPos := 0 }
          writer := .rests
          held := s.held + 1 }
  | .retracts =>
    if q.endPos ≠ 0 then
      some { s with queue := { q with endPos := q.endPos - 1 }, writer := .rests }
    else
      (q.chunk q.endChunk).map fun k =>
        { s with queue := { q with endPos := N - 1, endChunk := k.prev }, writer := .frees }
  | .frees =>
    (q.chunk q.endChunk).bind fun k =>
      (q.free k.next).map fun q => { s with queue := q, writer := .cuts }
  | .cuts =>
    (q.modify (fun k => { k with next := .null }) q.endChunk).map fun q =>
      { s with queue := q, writer := .rests }

def beginPop (N : ℕ) (s : State T) : State T :=
  let q := { s.queue with beginPos := s.queue.beginPos + 1 }
  { s with
    queue := q
    reader := if q.beginPos = N then .crosses else .rests
    held := s.held - 1 }

def advanceReader (s : State T) : Option (State T) :=
  let q := s.queue
  match s.reader with
  | .rests => none
  | .crosses =>
    (q.chunk q.beginChunk).map fun k =>
      { s with queue := { q with beginChunk := k.next }, reader := .detaches q.beginChunk }
  | .detaches t =>
    (q.modify (fun k => { k with prev := .null }) q.beginChunk).map fun q =>
      { s with queue := { q with beginPos := 0 }, reader := .spares t }
  | .spares t => some { s with queue := { q with spareChunk := t }, reader := .drops q.spareChunk }
  | .drops sc => (q.free sc).map fun q => { s with queue := q, reader := .rests }

/-- Each thread runs one call at a time, and takes an element only where one is held. -/
def enabled (s : State T) : Label → Bool
  | .push => s.writer = .rests
  | .unpush => s.writer = .rests && decide (0 < s.held)
  | .pop => s.reader = .rests && decide (0 < s.held)
  | .write => s.writer ≠ .rests
  | .read => s.reader ≠ .rests

/-- What the step does; `none` is undefined behaviour. -/
def perform (N : ℕ) (s : State T) : Label → Option (State T)
  | .push => some (beginPush N s)
  | .unpush => beginUnpush N s
  | .pop => some (beginPop N s)
  | .write => advanceWriter N s
  | .read => advanceReader s

def next (N : ℕ) (s : State T) (l : Label) : Option (State T) :=
  if enabled s l then perform N s l else none

def machine (T : Type u) (N : ℕ) : Machine (State T) Label where
  start := ⟨.new, .rests, .rests, 0⟩
  next := next N

/-! ### Calls that run alone -/

/-- A whole call, while the other thread stands still. -/
def whole (N : ℕ) (s : State T) : Label → Option (State T)
  | .push => (s.queue.push N).map fun q => { s with queue := q, held := s.held + 1 }
  | .unpush => (s.queue.unpush N).map fun q => { s with queue := q, held := s.held - 1 }
  | .pop => (s.queue.pop N).map fun q => { s with queue := q, held := s.held - 1 }
  | .write | .read => none

/-- The steps of a whole call. -/
def stepsOf (N : ℕ) (q : ZmqQueue T) : Label → List Label
  | .push => if q.endPos + 1 = N then [] else [.write, .write, .write]
  | .unpush => if q.endPos = 0 then [.write, .write, .write] else [.write]
  | .pop => if q.beginPos + 1 = N then [.read, .read, .read, .read] else []
  | .write | .read => []

variable {N : ℕ} {s : State T}

theorem exec_push (rests : s.writer = .rests) :
    (machine T N).exec s (.push :: stepsOf N s.queue .push) = whole N s .push := by
  obtain ⟨q, writer, reader, held⟩ := s
  obtain rfl : writer = .rests := rests
  by_cases full : q.endPos + 1 = N
  · simp [Machine.exec, machine, next, enabled, perform, beginPush, ZmqQueue.push, whole, stepsOf, full]
  · by_cases null : q.spareChunk = .null
    all_goals
      simp only [Machine.exec, machine, next, enabled, perform, beginPush, advanceWriter, ZmqQueue.push,
        whole, stepsOf, full, null, decide_true, if_true, if_false, ne_eq, not_false_iff, reduceCtorEq,
        Option.map_eq_bind, Option.bind_assoc, Option.bind_some, Option.bind_fun_some, Function.comp_def]

theorem exec_unpush (rests : s.writer = .rests) (held : 0 < s.held) :
    (machine T N).exec s (.unpush :: stepsOf N s.queue .unpush) = whole N s .unpush := by
  obtain ⟨q, writer, reader, held⟩ := s
  obtain rfl : writer = .rests := rests
  by_cases first : q.backPos = 0 <;> by_cases empty : q.endPos = 0
  all_goals
    simp [Machine.exec, machine, next, enabled, perform, beginUnpush, advanceWriter,
      ZmqQueue.unpush, whole, stepsOf, first, empty, Option.map_eq_bind, Option.bind_assoc, held]

theorem exec_pop (rests : s.reader = .rests) (held : 0 < s.held) :
    (machine T N).exec s (.pop :: stepsOf N s.queue .pop) = whole N s .pop := by
  obtain ⟨q, writer, reader, held⟩ := s
  obtain rfl : reader = .rests := rests
  by_cases last : q.beginPos + 1 = N
  · simp [Machine.exec, machine, next, enabled, perform, beginPop, advanceReader, ZmqQueue.pop,
      whole, stepsOf, last, Option.map_eq_bind, Option.bind_assoc, held]
  · simp [Machine.exec, machine, next, enabled, perform, beginPop, ZmqQueue.pop, whole, stepsOf, last,
      held]

/-- Cut into steps, a call does what it does as a whole. -/
theorem exec_whole {call : Label} (ready : enabled s call = true) {s' : State T}
    (done : whole N s call = some s') :
    (machine T N).exec s (call :: stepsOf N s.queue call) = some s' := by
  cases call with
  | push => rw [exec_push (of_decide_eq_true ready), done]
  | unpush =>
    obtain ⟨rests, held⟩ := Bool.and_eq_true_iff.mp ready
    rw [exec_unpush (of_decide_eq_true rests) (of_decide_eq_true held), done]
  | pop =>
    obtain ⟨rests, held⟩ := Bool.and_eq_true_iff.mp ready
    rw [exec_pop (of_decide_eq_true rests) (of_decide_eq_true held), done]
  | write | read => cases done

theorem stepsOf_inside {call l : Label} {q : ZmqQueue T} (there : l ∈ stepsOf N q call) :
    l = .write ∨ l = .read := by
  cases call with
  | push | unpush | pop =>
    simp only [stepsOf] at there
    split at there
    all_goals simp_all
  | write | read => cases there

end

end DataChunkQueue.Threads
