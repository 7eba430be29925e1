import CppConcurrency.Ypipe

/-!
# The threads that test `ypipe_t`

`main` of the benchmark runs three pairs of a producer and a consumer over one pipe, each
pair until both threads are joined. The producer writes the numbers from zero on and
flushes one by one or in batches of ten; the consumer reads until it has counted enough.
The first two consumers poll. The third waits on a condition variable when it finds
nothing, and its producer notifies when a flush answers false and once more at the end.

`test_queue` joins both threads and divides by the milliseconds that the pair took. Where
these are zero the division kills the program. How long a pair takes is up to the machine, so
each such step names the time.

The pipe moves step by step underneath. What a call returned is the last entry of the
history of the pipe when the call has ended. `sched_yield` changes nothing.
-/

namespace YqueueThreads

open Machines Pipes

/-- A pair of threads: the `s_queue_item_num` items that the consumer counts, the rounds of
the producer's loop, the items in each of them, and whether the threads use the mutex and
the condition variable. -/
structure Plan where
  items : ℕ
  rounds : ℕ
  perRound : ℕ
  signals : Bool
  positive : 0 < items
  filled : 0 < perRound
  atMost : rounds * perRound ≤ items

/-- `yqueue_producer_thread` and `yqueue_consumer_thread`. -/
def Plan.plain (n : ℕ) (positive : 0 < n) : Plan where
  items := n
  rounds := n
  perRound := 1
  signals := false
  positive := positive
  filled := Nat.one_pos
  atMost := Nat.le_of_eq (Nat.mul_one n)

/-- `yqueue_producer_thread_batch` and `yqueue_consumer_thread_yield`. -/
def Plan.batch (n : ℕ) (positive : 0 < n) : Plan where
  items := n
  rounds := n / 10
  perRound := 10
  signals := false
  positive := positive
  filled := by decide
  atMost := Nat.div_mul_le_self n 10

/-- `yqueue_producer_thread_condition` and `yqueue_consumer_thread_condition`. -/
def Plan.condition (n : ℕ) (positive : 0 < n) : Plan :=
  { Plan.plain n positive with signals := true }

inductive Party where
  | producer
  | consumer
  deriving DecidableEq

/-- Where the producer stands, named after what it does next: in round `i` and at item `k` of
the round, with `count` in its local variable. What comes after the critical section of a
notification is the round to go on with, or the end. -/
inductive Producer where
  | write (i k count : ℕ)
  | writing (i k count : ℕ)
  | add (i k : ℕ)
  | reload (i k : ℕ)
  | flush (i count : ℕ)
  | flushing (i count : ℕ)
  | lock (after : Option (ℕ × ℕ))
  | notify (after : Option (ℕ × ℕ))
  | unlock (after : Option (ℕ × ℕ))
  | done
  deriving DecidableEq

/-- Where the consumer stands. It is blocked inside `wait` until it is notified or wakes
spuriously, and woken until it has the mutex back. -/
inductive Consumer where
  | read
  | reading
  | add (value : ℕ)
  | lock
  | wait
  | blocked
  | woken
  | unlock
  | test
  | done
  deriving DecidableEq

/-- Where `main` stands: it joins the threads of a pair, it has run every pair, or the division
in `test_queue` has killed it. -/
inductive Main where
  | joins
  | done
  | crashed
  deriving DecidableEq

/-- The globals, the three threads, and the pairs that `main` has still to run. What the reads
of this pair and of the earlier ones returned is kept, which no step looks at. -/
structure State where
  pipe : Ypipe.State ℕ
  countPush : ℕ
  countPop : ℕ
  mutex : Option Party
  producer : Producer
  consumer : Consumer
  main : Main
  lastValue : ℕ
  plan : Plan
  later : List Plan
  drawn : List ℕ
  results : List (List ℕ)

/-- A step of `main` names the milliseconds that the pair took, `end - start`. -/
inductive Label where
  | producer
  | consumer
  | spurious
  | main (elapsed : ℤ)
  deriving DecidableEq

/-- What `flush()` returned. -/
def flushed (pipe : Ypipe.State ℕ) : Bool :=
  match pipe.history.getLast? with
  | some (.flush ok) => ok
  | _ => true

/-- What `read()` returned, with the value. -/
def fetched (pipe : Ypipe.State ℕ) : Option ℕ :=
  match pipe.history.getLast? with
  | some (.read result) => result
  | _ => none

/-- The head of the producer's loop. -/
def Plan.loop (plan : Plan) (i count : ℕ) : Producer :=
  if i < plan.rounds then .write i 0 count else if plan.signals then .lock none else .done

/-- What follows the critical section of a notification. -/
def Plan.resume (plan : Plan) : Option (ℕ × ℕ) → Producer
  | some (i, count) => plan.loop i count
  | none => .done

/-- What follows a flush in round `i` that returned. -/
def Plan.flushed (plan : Plan) (i count : ℕ) (ok : Bool) : Producer :=
  if plan.signals && !ok then .lock (some (i + 1, count)) else plan.loop (i + 1) count

/-- `notify_one()`. -/
def Consumer.notified : Consumer → Consumer
  | .blocked => .woken
  | c => c

/-- A flush has come to this state of the pipe. -/
def State.flushes (s : State) (i count : ℕ) (pipe : Ypipe.State ℕ) : State :=
  { s with
    pipe := pipe
    producer := if pipe.writer.atRest then s.plan.flushed i count (YqueueThreads.flushed pipe)
      else .flushing i count }

/-- A read has come to this state of the pipe. -/
def State.reads (s : State) (pipe : Ypipe.State ℕ) : State :=
  if pipe.reader.atRest then match fetched pipe with
    | some value => { s with
      pipe := pipe
      consumer := .add value
      drawn := s.drawn ++ [value] }
    | none => { s with
      pipe := pipe
      consumer := if s.plan.signals then .lock else .test }
  else { s with pipe := pipe }

def advanceProducer (N : ℕ) (s : State) : Option State :=
  match s.producer with
  | .write i k count =>
    (Ypipe.next N s.pipe (.write count (decide (k + 1 < s.plan.perRound)))).map fun pipe =>
      { s with pipe := pipe, producer := .writing i k count }
  | .writing i k count =>
    (Ypipe.next N s.pipe .writerStep).map fun pipe =>
      { s with
        pipe := pipe
        producer := if pipe.writer.atRest then .add i k else .writing i k count }
  | .add i k => some { s with countPush := s.countPush + 1, producer := .reload i k }
  | .reload i k =>
    some { s with
      producer := if k + 1 < s.plan.perRound then .write i (k + 1) s.countPush
        else .flush i s.countPush }
  | .flush i count => (Ypipe.next N s.pipe .flush).map (s.flushes i count)
  | .flushing i count => (Ypipe.next N s.pipe .writerStep).map (s.flushes i count)
  | .lock after =>
    if s.mutex = none then some { s with mutex := some .producer, producer := .notify after }
    else none
  | .notify after => some { s with consumer := s.consumer.notified, producer := .unlock after }
  | .unlock after =>
    some { s with mutex := none, producer := s.plan.resume after }
  | .done => none

def advanceConsumer (N : ℕ) (s : State) : Option State :=
  match s.consumer with
  | .read =>
    (Ypipe.next N s.pipe .read).map fun pipe => { s with pipe := pipe, consumer := .reading }
  | .reading => (Ypipe.next N s.pipe .readerStep).map s.reads
  | .add value =>
    some { s with countPop := s.countPop + 1, lastValue := value, consumer := .test }
  | .lock =>
    if s.mutex = none then some { s with mutex := some .consumer, consumer := .wait } else none
  | .wait => some { s with mutex := none, consumer := .blocked }
  | .blocked => none
  | .woken =>
    if s.mutex = none then some { s with mutex := some .consumer, consumer := .unlock } else none
  | .unlock => some { s with mutex := none, consumer := .test }
  | .test => some { s with consumer := if s.plan.items ≤ s.countPop then .done else .read }
  | .done => none

/-- The next pair, on the pipe and the mutex that are there. -/
def State.begin (s : State) (plan : Plan) (later : List Plan) : State :=
  { s with
    countPush := 0
    countPop := 0
    producer := plan.loop 0 0
    consumer := .read
    lastValue := 0
    plan := plan
    later := later
    drawn := []
    results := s.results ++ [s.drawn] }

/-- `ops` of `test_queue`: an integer division, without a value where no millisecond passed. -/
def ops (countPush : ℕ) (elapsed : ℤ) : Option ℤ :=
  if elapsed = 0 then none else some ((countPush * 1000 : ℤ).tdiv elapsed)

/-- `main` behind a `test_queue` that returned. -/
def State.proceed (s : State) : State :=
  match s.later with
  | [] => { s with main := .done }
  | plan :: later => s.begin plan later

/-- The end of `test_queue`, when both threads are joined. What it prints is left out. -/
def advanceMain (s : State) (elapsed : ℤ) : Option State :=
  if s.producer = .done ∧ s.consumer = .done ∧ s.main = .joins then
    match ops s.countPush elapsed with
    | none => some { s with main := .crashed }
    | some _ => some s.proceed
  else none

def next (N : ℕ) (s : State) : Label → Option State
  | .producer => advanceProducer N s
  | .consumer => advanceConsumer N s
  | .spurious => if s.consumer = .blocked then some { s with consumer := .woken } else none
  | .main elapsed => advanceMain s elapsed

def start (N : ℕ) (plan : Plan) (later : List Plan) : State where
  pipe := Ypipe.start ℕ N
  countPush := 0
  countPop := 0
  mutex := none
  producer := plan.loop 0 0
  consumer := .read
  main := .joins
  lastValue := 0
  plan := plan
  later := later
  drawn := []
  results := []

/-- The pairs one after the other, beginning with a new pipe. -/
def machine (N : ℕ) (plan : Plan) (later : List Plan) : Machine State Label where
  start := start N plan later
  next := next N

/-- The pairs that `main` runs, where the number of items is positive. -/
def ofMain (N n : ℕ) (positive : 0 < n) : Machine State Label :=
  machine N (.plain n positive) [.batch n positive, .condition n positive]

end YqueueThreads
