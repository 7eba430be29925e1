import CppConcurrency.DataChunkQueueThreads

/-!
# `yqueue_t<T, N>`: the chunked queue behind `ypipe_t`

The class has the members of `zmqQueue`, and its functions are those of `zmqQueue` except
for one line: `push` returns early as long as `end_pos` has not reached `N`. The writer
pushes, unpushes and assigns through `back()` while the reader pops, each operation cut
before every access to the spare pointer or to a chunk.
-/

namespace Yqueue

open Machines DataChunkQueue
open DataChunkQueue.Threads (Writer Reader)

universe u

/-- Both threads on one queue, and what happened so far. No step reads the history:
`front` elements were popped, `cell n` is what `back()` designated after the push of
element `n`, and `value n` is what was assigned to it since. -/
structure State (T : Type u) where
  threads : Threads.State T
  front : ℕ
  cell : ℕ → Cell
  value : ℕ → Option T

/-- The calls, and the next step inside a call. -/
inductive Label (T : Type u) where
  | push
  | unpush
  | pop
  | assign (value : T)
  | write
  | read
  deriving DecidableEq

variable {T : Type u}

/-- Element `tail` is the next one to be pushed. -/
def State.tail (s : State T) : ℕ := s.front + s.threads.held

/-- `push()` up to its exchange of the spare pointer. -/
def beginPush (N : ℕ) (s : Threads.State T) : Threads.State T :=
  let q := { s.queue with
    backChunk := s.queue.endChunk, backPos := s.queue.endPos, endPos := s.queue.endPos + 1 }
  if q.endPos ≠ N then { s with queue := q, held := s.held + 1 }
  else { s with queue := q, writer := .exchanges }

/-- `unpush()` up to its second half. -/
def beginUnpush (N : ℕ) (s : Threads.State T) : Option (Threads.State T) := Threads.beginUnpush N s

/-- `pop()` up to its first access to a chunk. -/
def beginPop (N : ℕ) (s : Threads.State T) : Threads.State T := Threads.beginPop N s

def advanceWriter (N : ℕ) (s : Threads.State T) : Option (Threads.State T) :=
  Threads.advanceWriter N s

def advanceReader (s : Threads.State T) : Option (Threads.State T) := Threads.advanceReader s

/-- `back() = value`. -/
def assign (N : ℕ) (s : Threads.State T) (value : T) : Option (Threads.State T) :=
  (s.queue.store N s.queue.back value).map fun q => { s with queue := q }

/-- What the caller of a `yqueue_t` has to guarantee. -/
def enabled (s : State T) : Label T → Bool
  | .push => s.threads.writer = .rests
  | .unpush => s.threads.writer = .rests && decide (0 < s.threads.held)
  | .pop => s.threads.reader = .rests && decide (0 < s.threads.held)
  | .assign _ => s.threads.writer = .rests && decide (0 < s.threads.held)
  | .write => s.threads.writer ≠ .rests
  | .read => s.threads.reader ≠ .rests

/-- What the step does; `none` is undefined behaviour. -/
def perform (N : ℕ) (s : State T) : Label T → Option (State T)
  | .push =>
    some { s with
      threads := beginPush N s.threads
      cell := Function.update s.cell s.tail (beginPush N s.threads).queue.back
      value := Function.update s.value s.tail none }
  | .unpush => (beginUnpush N s.threads).map fun t => { s with threads := t }
  | .pop => some { s with threads := beginPop N s.threads, front := s.front + 1 }
  | .assign value =>
    (assign N s.threads value).map fun t =>
      { s with threads := t, value := Function.update s.value (s.tail - 1) (some value) }
  | .write => (advanceWriter N s.threads).map fun t => { s with threads := t }
  | .read => (advanceReader s.threads).map fun t => { s with threads := t }

def next (N : ℕ) (s : State T) (l : Label T) : Option (State T) :=
  if enabled s l then perform N s l else none

def start (T : Type u) : State T where
  threads := ⟨.new, .rests, .rests, 0⟩
  front := 0
  cell := fun _ => ⟨.null, 0⟩
  value := fun _ => none

def machine (T : Type u) (N : ℕ) : Machine (State T) (Label T) where
  start := start T
  next := next N

/-! ### What a step leaves alone -/

/-- The stages of `push()`. -/
def pushing : Writer → Bool
  | .exchanges | .links _ | .joins _ => true
  | _ => false

/-- The stages of `unpush()`. -/
def unpushing : Writer → Bool
  | .retracts | .frees | .cuts => true
  | _ => false

variable {N : ℕ} {s s' : State T}

theorem push_effect (hs : perform N s .push = some s') :
    s'.front = s.front ∧ s'.threads.reader = s.threads.reader ∧
      (∀ n, n < s.tail → s'.cell n = s.cell n) ∧ (∀ n, n < s.tail → s'.value n = s.value n) ∧
      (s'.threads.writer = s.threads.writer ∧ s'.threads.held = s.threads.held + 1 ∨
        pushing s'.threads.writer = true ∧ s'.threads.held = s.threads.held) := by
  obtain rfl := Option.some.inj hs
  refine ⟨rfl, ?_, fun n old => Function.update_of_ne (Nat.ne_of_lt old) _ _,
    fun n old => Function.update_of_ne (Nat.ne_of_lt old) _ _, ?_⟩
  all_goals by_cases room : s.threads.queue.endPos + 1 = N
  · simp [beginPush, room]
  · simp [beginPush, room]
  · exact Or.inr (by simp [beginPush, room, pushing])
  · exact Or.inl (by simp [beginPush, room])

theorem unpush_effect (hs : perform N s .unpush = some s') :
    s'.front = s.front ∧ s'.threads.reader = s.threads.reader ∧ s'.cell = s.cell ∧
      s'.value = s.value ∧ unpushing s'.threads.writer = true ∧
      s'.threads.held = s.threads.held - 1 := by
  obtain ⟨t, begun, rfl⟩ := Option.map_eq_some_iff.mp hs
  unfold beginUnpush Threads.beginUnpush at begun
  dsimp only at begun
  split at begun
  · obtain rfl := Option.some.inj begun
    exact ⟨rfl, rfl, rfl, rfl, rfl, rfl⟩
  · obtain ⟨k, -, rfl⟩ := Option.map_eq_some_iff.mp begun
    exact ⟨rfl, rfl, rfl, rfl, rfl, rfl⟩

theorem assign_effect {value : T} (hs : perform N s (.assign value) = some s') :
    s'.front = s.front ∧ s'.threads.reader = s.threads.reader ∧ s'.cell = s.cell ∧
      s'.value = Function.update s.value (s.tail - 1) (some value) ∧
      s'.threads.writer = s.threads.writer ∧ s'.threads.held = s.threads.held := by
  obtain ⟨t, stored, rfl⟩ := Option.map_eq_some_iff.mp hs
  obtain ⟨q, -, rfl⟩ := Option.map_eq_some_iff.mp stored
  exact ⟨rfl, rfl, rfl, rfl, rfl, rfl⟩

theorem pop_effect (hs : perform N s .pop = some s') :
    s'.front = s.front + 1 ∧ s'.threads.writer = s.threads.writer ∧ s'.cell = s.cell ∧
      s'.value = s.value ∧ s'.threads.held = s.threads.held - 1 := by
  obtain rfl := Option.some.inj hs
  exact ⟨rfl, rfl, rfl, rfl, rfl⟩

/-- A push counts its element when it ends. -/
theorem write_effect (hs : perform N s .write = some s') :
    s'.front = s.front ∧ s'.threads.reader = s.threads.reader ∧ s'.cell = s.cell ∧
      s'.value = s.value ∧
      (pushing s.threads.writer = true →
        s'.threads.writer = .rests ∧ s'.threads.held = s.threads.held + 1 ∨
          pushing s'.threads.writer = true ∧ s'.threads.held = s.threads.held) ∧
      (unpushing s.threads.writer = true → s'.threads.held = s.threads.held ∧
        (s'.threads.writer = .rests ∨ unpushing s'.threads.writer = true)) := by
  obtain ⟨t, moved, rfl⟩ := Option.map_eq_some_iff.mp hs
  suffices effect : t.reader = s.threads.reader ∧
      (pushing s.threads.writer = true →
        t.writer = .rests ∧ t.held = s.threads.held + 1 ∨
          pushing t.writer = true ∧ t.held = s.threads.held) ∧
      (unpushing s.threads.writer = true → t.held = s.threads.held ∧
        (t.writer = .rests ∨ unpushing t.writer = true)) from
    ⟨rfl, effect.1, rfl, rfl, effect.2⟩
  unfold advanceWriter Threads.advanceWriter at moved
  cases now : s.threads.writer with
  | rests => simp [now] at moved
  | exchanges =>
    simp only [now, Option.some.injEq] at moved
    obtain rfl := moved
    exact ⟨rfl, fun _ => Or.inr ⟨rfl, rfl⟩, fun wrong => by cases wrong⟩
  | links sc =>
    simp only [now] at moved
    obtain ⟨q, -, rfl⟩ := Option.map_eq_some_iff.mp moved
    exact ⟨rfl, fun _ => Or.inr ⟨rfl, rfl⟩, fun wrong => by cases wrong⟩
  | joins link =>
    simp only [now] at moved
    obtain ⟨q, -, moved⟩ := Option.bind_eq_some_iff.mp moved
    obtain ⟨k, -, rfl⟩ := Option.map_eq_some_iff.mp moved
    exact ⟨rfl, fun _ => Or.inl ⟨rfl, rfl⟩, fun wrong => by cases wrong⟩
  | retracts =>
    simp only [now] at moved
    split at moved
    · obtain rfl := Option.some.inj moved
      exact ⟨rfl, fun wrong => (by cases wrong), fun _ => ⟨rfl, Or.inl rfl⟩⟩
    · obtain ⟨k, -, rfl⟩ := Option.map_eq_some_iff.mp moved
      exact ⟨rfl, fun wrong => (by cases wrong), fun _ => ⟨rfl, Or.inr rfl⟩⟩
  | frees =>
    simp only [now] at moved
    obtain ⟨k, -, moved⟩ := Option.bind_eq_some_iff.mp moved
    obtain ⟨q, -, rfl⟩ := Option.map_eq_some_iff.mp moved
    exact ⟨rfl, fun wrong => (by cases wrong), fun _ => ⟨rfl, Or.inr rfl⟩⟩
  | cuts =>
    simp only [now] at moved
    obtain ⟨q, -, rfl⟩ := Option.map_eq_some_iff.mp moved
    exact ⟨rfl, fun wrong => (by cases wrong), fun _ => ⟨rfl, Or.inl rfl⟩⟩

theorem read_effect (hs : perform N s .read = some s') :
    s'.front = s.front ∧ s'.threads.writer = s.threads.writer ∧ s'.cell = s.cell ∧
      s'.value = s.value ∧ s'.threads.held = s.threads.held := by
  obtain ⟨t, moved, rfl⟩ := Option.map_eq_some_iff.mp hs
  suffices effect : t.writer = s.threads.writer ∧ t.held = s.threads.held from
    ⟨rfl, effect.1, rfl, rfl, effect.2⟩
  unfold advanceReader Threads.advanceReader at moved
  cases now : s.threads.reader with
  | rests => simp [now] at moved
  | crosses =>
    simp only [now] at moved
    obtain ⟨k, -, rfl⟩ := Option.map_eq_some_iff.mp moved
    exact ⟨rfl, rfl⟩
  | detaches t =>
    simp only [now] at moved
    obtain ⟨q, -, rfl⟩ := Option.map_eq_some_iff.mp moved
    exact ⟨rfl, rfl⟩
  | spares t =>
    simp only [now, Option.some.injEq] at moved
    obtain rfl := moved
    exact ⟨rfl, rfl⟩
  | drops sc =>
    simp only [now] at moved
    obtain ⟨q, -, rfl⟩ := Option.map_eq_some_iff.mp moved
    exact ⟨rfl, rfl⟩

end Yqueue
