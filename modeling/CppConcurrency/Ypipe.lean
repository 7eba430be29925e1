import CppConcurrency.Pipes
import CppConcurrency.Yqueue

/-!
# `ypipe_t<T, N>`: the pipe over `yqueue_t`

The pipe runs on the chunks themselves. Each access to a chunk, to the spare pointer or to
`c` is a step of its own, so a read may overlap a write, an unwrite or a flush anywhere.
`w` and `f` belong to the writer and `r` to the reader. The exchanges of `atomic_ptr_t` are
`lock`ed instructions: they are atomic and do not fail spuriously.
-/

namespace Ypipe

open Machines DataChunkQueue Pipes

universe u

/-- Where the writer stands: in `write` on the way through `push()`, in `unwrite` on the way
through `unpush()` and before its last line, or in `flush` before the exchange and before
the store that follows a failure. -/
inductive Writer (T : Type u) where
  | rests
  | pushes (value : T) (incomplete : Bool)
  | unpushes
  | takesBack
  | exchanges
  | sets

/-- Where the reader stands: in `check_read` before the exchange, where the flag tells a
`read` from a bare `check_read`, or in `read` before it copies the front and on the way
through `pop()`. -/
inductive Reader (T : Type u) where
  | rests
  | exchanges (reading : Bool)
  | takes
  | pops (value : T)

def Writer.atRest {T : Type u} : Writer T → Bool
  | .rests => true
  | _ => false

def Reader.atRest {T : Type u} : Reader T → Bool
  | .rests => true
  | _ => false

/-- The members of the pipe, both threads, and what their calls returned so far, which no
step reads. -/
structure State (T : Type u) where
  queue : Yqueue.State T
  w : Cell
  r : Option Cell
  f : Cell
  c : Option Cell
  writer : Writer T
  reader : Reader T
  history : List (Event T)

inductive Label (T : Type u) where
  | write (value : T) (incomplete : Bool)
  | unwrite
  | flush
  | writerStep
  | checkRead
  | read
  | readerStep
  deriving DecidableEq

variable {T : Type u}

def State.front (s : State T) : Cell := s.queue.threads.queue.front

def State.back (s : State T) : Cell := s.queue.threads.queue.back

/-- `*cell`; there is nothing to copy where nothing was stored. -/
def State.load (N : ℕ) (s : State T) (cell : Cell) : Option T :=
  (s.queue.threads.queue.load N cell).join

def State.writerReturns (s : State T) (e : Event T) : State T :=
  { s with writer := .rests, history := s.history ++ [e] }

def State.readerReturns (s : State T) (e : Event T) : State T :=
  { s with reader := .rests, history := s.history ++ [e] }

/-- `write(value, incomplete)` up to its `push()`. -/
def write (N : ℕ) (s : State T) (value : T) (incomplete : Bool) : Option (State T) :=
  (Yqueue.perform N s.queue (.assign value)).map fun q =>
    { s with queue := q, writer := .pushes value incomplete }

/-- `unwrite(value)` up to the second half of `unpush()`. -/
def unwrite (N : ℕ) (s : State T) : Option (State T) :=
  if s.f = s.back then some (s.writerReturns (.unwrite none))
  else
    (Yqueue.perform N s.queue .unpush).map fun q => { s with queue := q, writer := .unpushes }

/-- `flush()` up to its exchange. -/
def flush (s : State T) : State T :=
  if s.w = s.f then s.writerReturns (.flush true) else { s with writer := .exchanges }

/-- The rest of `write` after its `push()`. -/
def writeReturns (s : State T) (value : T) (incomplete : Bool) : State T :=
  State.writerReturns { s with f := if incomplete then s.f else s.back } (.write value incomplete)

def advanceWriter (N : ℕ) (s : State T) : Option (State T) :=
  match s.writer with
  | .rests => none
  | .pushes value incomplete =>
    (Yqueue.perform N s.queue (if s.queue.threads.writer = .rests then .push else .write)).map
      fun q =>
        let s := { s with queue := q }
        if q.threads.writer = .rests then writeReturns s value incomplete else s
  | .unpushes =>
    (Yqueue.perform N s.queue .write).map fun q =>
      { s with queue := q, writer := if q.threads.writer = .rests then .takesBack else .unpushes }
  | .takesBack =>
    (s.load N s.back).map fun value => s.writerReturns (.unwrite (some value))
  | .exchanges =>
    some (if s.c = some s.w then
      State.writerReturns { s with c := some s.f, w := s.f } (.flush true)
    else { s with writer := .sets })
  | .sets => some (State.writerReturns { s with c := some s.f, w := s.f } (.flush false))

/-- `check_read()` up to its exchange, for itself or inside `read()`. -/
def checkRead (s : State T) (reading : Bool) : State T :=
  if some s.front ≠ s.r ∧ s.r ≠ none then
    if reading then { s with reader := .takes } else s.readerReturns (.check true)
  else { s with reader := .exchanges reading }

/-- The rest of `check_read()` after its exchange. -/
def fetch (s : State T) (reading : Bool) : State T :=
  if some s.front = s.r ∨ s.r = none then
    s.readerReturns (if reading then .read none else .check false)
  else if reading then { s with reader := .takes } else s.readerReturns (.check true)

def advanceReader (N : ℕ) (s : State T) : Option (State T) :=
  match s.reader with
  | .rests => none
  | .exchanges reading =>
    some (fetch { s with c := if s.c = some s.front then none else s.c, r := s.c } reading)
  | .takes => (s.load N s.front).map fun value => { s with reader := .pops value }
  | .pops value =>
    (Yqueue.perform N s.queue (if s.queue.threads.reader = .rests then .pop else .read)).map
      fun q =>
        let s := { s with queue := q }
        if q.threads.reader = .rests then s.readerReturns (.read (some value)) else s

/-- Each thread runs one call at a time. -/
def enabled (s : State T) : Label T → Bool
  | .write _ _ | .unwrite | .flush => s.writer.atRest
  | .writerStep => !s.writer.atRest
  | .checkRead | .read => s.reader.atRest
  | .readerStep => !s.reader.atRest

/-- What the step does; `none` is undefined behaviour. -/
def perform (N : ℕ) (s : State T) : Label T → Option (State T)
  | .write value incomplete => write N s value incomplete
  | .unwrite => unwrite N s
  | .flush => some (flush s)
  | .writerStep => advanceWriter N s
  | .checkRead => some (checkRead s false)
  | .read => some (checkRead s true)
  | .readerStep => advanceReader N s

def next (N : ℕ) (s : State T) (l : Label T) : Option (State T) :=
  if enabled s l then perform N s l else none

/-- The steps of the constructor's `push()`, which runs alone. -/
def pushSteps (T : Type u) (N : ℕ) : List (Yqueue.Label T) :=
  if 1 = N then [.push, .write, .write, .write] else [.push]

/-- The constructor, which pushes the cell that ends the queue. -/
def start (T : Type u) (N : ℕ) : State T :=
  let queue := ((Yqueue.machine T N).exec (Yqueue.start T) (pushSteps T N)).getD (Yqueue.start T)
  let back := queue.threads.queue.back
  { queue := queue
    w := back
    r := some back
    f := back
    c := some back
    writer := .rests
    reader := .rests
    history := [] }

/-- One writer and one reader, each making any sequence of calls. -/
def machine (T : Type u) (N : ℕ) : Machine (State T) (Label T) where
  start := start T N
  next := next N

end Ypipe
