import CppConcurrency.ThreadSafeQueue
import Mathlib.Data.Fintype.Sum

/-!
# `ThreadPool`: workers, a shared queue, and the order in which members die

The workers and the clients are the threads of the pool's `ThreadSafeQueue`, whose calls
run step by step as they do on their own. The owner constructs the pool and destroys it:
the destructor's body, or the handler of a failed constructor, sets `done`, and then
the members are destroyed in reverse order of their declaration. The destructor of
`joiner` waits for the workers one after the other.
-/

namespace ThreadPool

open Machines

universe u v

/-- The data members. -/
inductive Member where
  | threads
  | joiner
  | done
  | workQueue
  | threadsNum
  deriving DecidableEq

/-- The members in the order of their declaration. -/
def Member.declared : List Member := [.threads, .joiner, .done, .workQueue, .threadsNum]

/-- Where `work_thread` stands. In `task` the worker holds what `try_pop` gave it. -/
inductive Worker (T : Type u) where
  | absent
  | readDone
  | tryPop
  | task (task : Option T)
  | yield
  | exited
  deriving DecidableEq

/-- The worker has left its loop, or never entered it. -/
def Worker.isOut {T : Type u} : Worker T → Bool
  | .absent | .exited => true
  | _ => false

/-- The worker is outside the calls of the queue. -/
def Worker.isOff {T : Type u} : Worker T → Bool
  | .tryPop | .task _ => false
  | _ => true

/-- Where the owner stands: in the loop of the constructor, between construction and
destruction, or in front of the members that are still to be destroyed. In `join` it is
inside the destructor of `joiner`. -/
inductive Owner where
  | spawn (i : ℕ)
  | use
  | destroy (members : List Member)
  | join (i : ℕ) (members : List Member)
  | gone
  deriving DecidableEq

/-- `n` workers and any clients. -/
abbrev Thread (n : ℕ) (C : Type v) := Fin n ⊕ C

/-- The members that the threads look at, the threads, and what happened so far. No step
reads the history: `destroyed` tells whose destruction has begun, and `ran` lists the
tasks that were run to their end. -/
structure State (n : ℕ) (C : Type v) (T : Type u) where
  queue : ThreadSafeQueue.State (Thread n C) T
  done : Bool
  threads : ℕ
  worker : Fin n → Worker T
  owner : Owner
  destroyed : Member → Bool
  ran : List (Fin n × Option T)

/-- `spawn` may fail. `queue` is a step inside a running call of `push` or `try_pop`. -/
inductive Label (n : ℕ) (C : Type v) (T : Type u) where
  | spawn (ok : Bool)
  | owner
  | work (w : Fin n)
  | submit (t : Thread n C) (task : T)
  | queue (l : ThreadSafeQueue.Label (Thread n C) T)

section

variable {n : ℕ} {C : Type v} {T : Type u}

def State.setWorker (s : State n C T) (w : Fin n) (worker : Worker T) : State n C T :=
  { s with worker := Function.update s.worker w worker }

/-- The body of the destructor, or of the constructor's `catch`. -/
def shutdown (s : State n C T) : State n C T :=
  { s with done := true, owner := .destroy Member.declared.reverse }

/-- One turn of the constructor's loop. -/
def spawn (s : State n C T) (ok : Bool) : Option (State n C T) :=
  match s.owner with
  | .spawn i =>
    if h : i < n then
      if ok then
        some { s.setWorker ⟨i, h⟩ .readDone with threads := i + 1, owner := .spawn (i + 1) }
      else some (shutdown s)
    else none
  | _ => none

/-- The end of the constructor, the destructor, and the destructors of the members. -/
def advanceOwner (s : State n C T) : Option (State n C T) :=
  match s.owner with
  | .spawn i => if i < n then none else some { s with owner := .use }
  | .use => some (shutdown s)
  | .destroy [] => some { s with owner := .gone }
  | .destroy (m :: members) =>
    some { s with
      destroyed := Function.update s.destroyed m true
      owner := if m = .joiner then .join 0 members else .destroy members }
  | .join i members =>
    if i < s.threads then
      if h : i < n then
        match s.worker ⟨i, h⟩ with
        | .exited => some { s with owner := .join (i + 1) members }
        | _ => none
      else none
    else some { s with owner := .destroy members }
  | .gone => none

variable [DecidableEq C] [Fintype C]

/-- One step of `work_thread`. Reading `done` as false calls `try_pop`; the task ends
when no `submit` of its own is running. -/
def workThread (s : State n C T) (w : Fin n) : Option (State n C T) :=
  match s.worker w with
  | .readDone =>
    if s.done then some (s.setWorker w .exited)
    else
      (ThreadSafeQueue.next s.queue (.invoke (.inl w) (.pop .tryPopInto))).map fun q =>
        { s.setWorker w .tryPop with queue := q }
  | .tryPop =>
    match s.queue.call (.inl w) with
    | .popReturn true task => some (s.setWorker w (.task task))
    | .popReturn false _ => some (s.setWorker w .yield)
    | _ => none
  | .task task =>
    if (s.queue.call (.inl w)).atRest then
      some { s.setWorker w .readDone with ran := s.ran ++ [(w, task)] }
    else none
  | .yield => some (s.setWorker w .readDone)
  | .absent | .exited => none

/-- Clients submit while the pool is in use, workers from inside a task. -/
def maySubmit (s : State n C T) : Thread n C → Bool
  | .inl w => match s.worker w with
    | .task _ => true
    | _ => false
  | .inr _ => s.owner = .use

/-- `submit(f, args...)`, up to the call of `push`. -/
def submit (s : State n C T) (t : Thread n C) (task : T) : Option (State n C T) :=
  if maySubmit s t then
    (ThreadSafeQueue.next s.queue (.invoke t (.push task))).map fun q => { s with queue := q }
  else none

def next (s : State n C T) : Label n C T → Option (State n C T)
  | .spawn ok => spawn s ok
  | .owner => advanceOwner s
  | .work w => workThread s w
  | .submit t task => submit s t task
  | .queue l =>
    if l.isInvoke then none
    else (ThreadSafeQueue.next s.queue l).map fun q => { s with queue := q }

/-- `n` is what `hardware_concurrency()` returns. -/
def machine (n : ℕ) (C : Type v) [DecidableEq C] [Fintype C] (T : Type u) :
    Machine (State n C T) (Label n C T) where
  start :=
    { queue := (ThreadSafeQueue.machine (Thread n C) T).start
      done := false
      threads := 0
      worker := fun _ => .absent
      owner := .spawn 0
      destroyed := fun _ => false
      ran := [] }
  next := next

/-! ### What a step can be -/

variable {s s' : State n C T}

inductive SpawnStep (s : State n C T) : State n C T → Prop where
  | started {i : ℕ} (ho : s.owner = .spawn i) (hi : i < n) :
      SpawnStep s
        { s.setWorker ⟨i, hi⟩ .readDone with threads := i + 1, owner := .spawn (i + 1) }
  | failed {i : ℕ} (ho : s.owner = .spawn i) : SpawnStep s (shutdown s)

inductive OwnerStep (s : State n C T) : State n C T → Prop where
  | constructed {i : ℕ} (ho : s.owner = .spawn i) : OwnerStep s { s with owner := .use }
  | shutdown (ho : s.owner = .use) : OwnerStep s (shutdown s)
  | destroyed (ho : s.owner = .destroy []) : OwnerStep s { s with owner := .gone }
  | destroys {m : Member} {members : List Member} (ho : s.owner = .destroy (m :: members)) :
      OwnerStep s { s with
        destroyed := Function.update s.destroyed m true
        owner := if m = .joiner then .join 0 members else .destroy members }
  | joins {i : ℕ} {members : List Member} (ho : s.owner = .join i members) :
      OwnerStep s { s with owner := .join (i + 1) members }
  | joined {i : ℕ} {members : List Member} (ho : s.owner = .join i members) :
      OwnerStep s { s with owner := .destroy members }

inductive WorkStep (s : State n C T) (w : Fin n) : State n C T → Prop where
  | leaves (hw : s.worker w = .readDone) : WorkStep s w (s.setWorker w .exited)
  | calls {q : ThreadSafeQueue.State (Thread n C) T} (hw : s.worker w = .readDone)
      (goesOn : s.done = false)
      (called : ThreadSafeQueue.next s.queue (.invoke (.inl w) (.pop .tryPopInto)) = some q) :
      WorkStep s w { s.setWorker w .tryPop with queue := q }
  | obtains {task : Option T} (hw : s.worker w = .tryPop)
      (returned : s.queue.call (.inl w) = .popReturn true task) :
      WorkStep s w (s.setWorker w (.task task))
  | misses {task : Option T} (hw : s.worker w = .tryPop)
      (returned : s.queue.call (.inl w) = .popReturn false task) :
      WorkStep s w (s.setWorker w .yield)
  | finishes {task : Option T} (hw : s.worker w = .task task)
      (rest : (s.queue.call (.inl w)).atRest = true) :
      WorkStep s w { s.setWorker w .readDone with ran := s.ran ++ [(w, task)] }
  | yields (hw : s.worker w = .yield) : WorkStep s w (s.setWorker w .readDone)

omit [DecidableEq C] [Fintype C] in
theorem spawn_step {ok : Bool} (hs : spawn s ok = some s') : SpawnStep s s' := by
  cases ho : s.owner with
  | spawn i =>
    simp only [spawn, ho] at hs
    split at hs
    · split at hs
      · exact Option.some.inj hs ▸ .started ho ‹_›
      · exact Option.some.inj hs ▸ .failed ho
    · cases hs
  | _ =>
    simp only [spawn, ho] at hs
    cases hs

omit [DecidableEq C] [Fintype C] in
theorem advanceOwner_step (hs : advanceOwner s = some s') : OwnerStep s s' := by
  cases ho : s.owner with
  | spawn i =>
    simp only [advanceOwner, ho] at hs
    obtain ⟨-, ⟨⟩⟩ := Option.ite_none_left_eq_some.mp hs
    exact .constructed ho
  | use =>
    simp only [advanceOwner, ho] at hs
    exact Option.some.inj hs ▸ .shutdown ho
  | destroy members =>
    cases members with
    | nil =>
      simp only [advanceOwner, ho] at hs
      exact Option.some.inj hs ▸ .destroyed ho
    | cons m members =>
      simp only [advanceOwner, ho] at hs
      exact Option.some.inj hs ▸ .destroys ho
  | join i members =>
    simp only [advanceOwner, ho] at hs
    split at hs
    · split at hs
      · split at hs
        · exact Option.some.inj hs ▸ .joins ho
        · cases hs
      · cases hs
    · exact Option.some.inj hs ▸ .joined ho
  | gone =>
    simp only [advanceOwner, ho] at hs
    cases hs

theorem workThread_step {w : Fin n} (hs : workThread s w = some s') : WorkStep s w s' := by
  cases hw : s.worker w with
  | readDone =>
    simp only [workThread, hw] at hs
    split at hs
    · exact Option.some.inj hs ▸ .leaves hw
    · obtain ⟨q, called, rfl⟩ := Option.map_eq_some_iff.mp hs
      exact .calls hw (Bool.eq_false_iff.mpr ‹_›) called
  | tryPop =>
    simp only [workThread, hw] at hs
    split at hs
    · exact Option.some.inj hs ▸ .obtains hw ‹_›
    · exact Option.some.inj hs ▸ .misses hw ‹_›
    · cases hs
  | task task =>
    simp only [workThread, hw] at hs
    obtain ⟨rest, ⟨⟩⟩ := Option.ite_none_right_eq_some.mp hs
    exact .finishes hw rest
  | yield =>
    simp only [workThread, hw] at hs
    exact Option.some.inj hs ▸ .yields hw
  | absent | exited =>
    simp only [workThread, hw] at hs
    cases hs

end

end ThreadPool
