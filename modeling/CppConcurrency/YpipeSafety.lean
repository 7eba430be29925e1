import CppConcurrency.YpipeRefinement

/-!
# What the users of `ypipe_t` may rely on

The calls linearize to a pipe, so what is read is what was written, and a reader that was
told there is nothing to read is rung by the flush that changes this. Underneath, the pipe
keeps to the contract of `yqueue_t`, and its threads never work on one cell.
-/

namespace Ypipe

open Machines DataChunkQueue Pipes SequentialObjects

universe u

variable {T : Type u} {N : ℕ} {s : State T} {p : Pipe T}

/-- The constructor's `push()` leaves one element. -/
theorem pushed_start (positive : 1 ≤ N) :
    ∃ q, (Yqueue.machine T N).exec (Yqueue.start T) (pushSteps T N) = some q ∧
      q.threads.writer = .rests ∧ q.threads.reader = .rests ∧ q.front = 0 ∧ q.threads.held = 1 := by
  by_cases one : 1 = N
  · subst one
    exact ⟨_, rfl, rfl, rfl, rfl, rfl⟩
  · rw [pushSteps, if_neg one]
    have begun : Yqueue.beginPush N (Yqueue.start T).threads = {
        queue := { (ZmqQueue.new : ZmqQueue T) with backChunk := .to 0, backPos := 0, endPos := 1 }
        writer := .rests
        reader := .rests
        held := 1 } := if_pos one
    refine ⟨_, rfl, ?_, ?_, rfl, ?_⟩ <;> simp only [begun]

theorem start_inv (positive : 1 ≤ N) : Inv N (start T N) Pipe.new := by
  obtain ⟨q, pushed, writer, reader, front, held⟩ := pushed_start (T := T) positive
  have reach : (Yqueue.machine T N).Reach q := Machine.reach_of_exec _ pushed
  have tail : q.tail = 1 := by rw [Yqueue.State.tail, front, held]
  have back : q.threads.queue.back = q.cell 0 := by
    obtain ⟨_, _, _, inv⟩ := Yqueue.reach_inv positive reach
    have := inv.back_eq writer (by omega)
    rwa [tail] at this
  have queue : ((Yqueue.machine T N).exec (Yqueue.start T) (pushSteps T N)).getD (Yqueue.start T) = q := by
    rw [pushed, Option.getD_some]
  rw [start, queue]
  exact {
    queue := reach
    lawful := ⟨Nat.le_refl _, Nat.le_refl _, Nat.le_refl _, fun _ => rfl⟩
    w := back
    f := back
    c := congrArg some back
    r := Or.inr ⟨0, congrArg some back, Nat.le_of_eq front, Nat.le_refl _⟩
    writer := .rests writer tail
    reader := .rests reader front
    values := fun n x _ item => by cases item }

/-- Every step that a thread can take is defined, and answers like the pipe. -/
theorem Inv.perform (positive : 1 ≤ N) (h : Inv N s p) {l : Label T} (called : enabled s l = true) :
    ∃ s', perform N s l = some s' ∧ Simulates N s s' p := by
  cases l with
  | write value incomplete => exact write_step positive h called value incomplete
  | unwrite => exact unwrite_step positive h called
  | flush => exact ⟨_, rfl, flush_step positive h called⟩
  | checkRead => exact ⟨_, rfl, checkRead_step positive h called false⟩
  | read => exact ⟨_, rfl, checkRead_step positive h called true⟩
  | writerStep =>
    cases now : s.writer with
    | rests => simp [enabled, now, Writer.atRest] at called
    | pushes value incomplete => exact pushes_step positive h now
    | unpushes => exact unpushes_step positive h now
    | takesBack => exact takesBack_step positive h now
    | exchanges => exact exchanges_step h now
    | sets => exact sets_step h now
  | readerStep =>
    cases now : s.reader with
    | rests => simp [enabled, now, Reader.atRest] at called
    | exchanges reading => exact exchange_step positive h now
    | takes => exact takes_step positive h now
    | pops value => exact pops_step positive h now

theorem reach_inv (positive : 1 ≤ N) (reached : (machine T N).Reach s) :
    ∃ p, (pipe T).History s.history p ∧ Inv N s p := by
  refine linearizes (O := pipe T) State.history (R := Inv N) rfl (start_inv positive) ?_ reached
  intro s l t p h hs
  obtain ⟨called, step⟩ := Option.ite_none_right_eq_some.mp hs
  obtain ⟨t', step', simulates⟩ := h.perform positive called
  obtain rfl := Option.some.inj (step.symm.trans step')
  exact simulates

/-- A reader finds nothing and is rung, and then an item is taken back. -/
def exchange : List (Label ℕ) :=
  [.read, .readerStep, .write 5 false, .writerStep, .writerStep, .writerStep, .writerStep, .flush,
    .writerStep, .writerStep, .read, .readerStep, .readerStep, .readerStep, .write 7 true, .writerStep,
    .unwrite, .writerStep, .writerStep]

def exchangeRun : (machine ℕ 2).Run := .ofSchedule _ .flush exchange (by decide +kernel)

/-- In the order of their returns, the calls answer what a pipe would. -/
theorem calls_linearize (positive : 1 ≤ N) (reached : (machine T N).Reach s) :
    ∃ p, (pipe T).History s.history p := by
  obtain ⟨p, history, -⟩ := reach_inv positive reached
  exact ⟨p, history⟩

theorem calls_linearize_exchange : ∃ p, (pipe ℕ).History
    [.read none, .write 5 false, .flush false, .read (some 5), .write 7 true, .unwrite (some 7)] p := by
  have returned : (exchangeRun.state exchange.length).history = [.read none, .write 5 false,
      .flush false, .read (some 5), .write 7 true, .unwrite (some 7)] := by decide +kernel
  exact returned ▸ calls_linearize (by decide) (exchangeRun.reach (Nat.le_refl _))

/-- The reads return what was written and not taken back, in order and without a gap. -/
theorem reads_are_written (positive : 1 ≤ N) (reached : (machine T N).Reach s) :
    reads s.history <+: written s.history := by
  obtain ⟨p, history, -⟩ := reach_inv positive reached
  obtain ⟨items, read⟩ := history_reads history
  rw [read, ← items]
  exact List.take_prefix _ _

theorem reads_are_written_exchange :
    reads (exchangeRun.state exchange.length).history <+:
      written (exchangeRun.state exchange.length).history :=
  reads_are_written (by decide) (exchangeRun.reach (Nat.le_refl _))

/-- A reader that found nothing has nothing to read until a flush answers false, and the
next flush that hands something over does. -/
theorem sleeper_is_rung (positive : 1 ≤ N) (reached : (machine T N).Reach s)
    {before after : List (Event T)} {e : Event T} (split : s.history = before ++ e :: after)
    (failed : e.failed = true) (silent : ∀ e ∈ after, e ≠ .flush false) :
    ∃ p, (pipe T).History s.history p ∧ p.taken = p.visible ∧
      ∀ ok p', p.visible ≠ p.completed → p.Answers (.flush ok) p' → ok = false := by
  obtain ⟨p, history, -⟩ := reach_inv positive reached
  obtain ⟨asleep, nothing⟩ := history_sleeps history split failed silent
  refine ⟨p, history, nothing, fun ok p' other answers => ?_⟩
  obtain ⟨rings, -⟩ := Prod.mk.inj ((if_neg other).symm.trans answers)
  rw [← rings, asleep]
  rfl

/-- Before the flush of `exchange`. -/
theorem sleeper_is_rung_exchange :
    ∃ p, (pipe ℕ).History (exchangeRun.state 7).history p ∧ p.taken = p.visible ∧
      ∀ ok p', p.visible ≠ p.completed → p.Answers (.flush ok) p' → ok = false := by
  have returned : (exchangeRun.state 7).history = [] ++ .read none :: [.write 5 false] := by
    decide +kernel
  exact sleeper_is_rung (by decide) (exchangeRun.reach (by decide)) returned rfl (by simp)

/-- The pipe on its chunks: the queue is only used as its class allows, no step is
undefined, the reader's copy of an element does not touch the cell that the writer works
on, and where both threads rest the destructor frees every chunk once. -/
structure Safe (N : ℕ) (s : State T) : Prop where
  contract : (Yqueue.machine T N).Reach s.queue
  defined : ∀ l, enabled s l = true → (perform N s l).isSome = true
  apart : s.reader = .takes → s.queue.threads.writer = .rests → s.front ≠ s.back
  destroyed : s.writer = .rests → s.reader = .rests → ∃ fuel freed q',
    s.queue.threads.queue.destroy fuel = some (freed, q') ∧ freed.Nodup ∧
      (∀ c, .to c ∈ freed ↔ (s.queue.threads.queue.heap c).isSome = true) ∧ ∀ c, q'.heap c = none

theorem Inv.apart (positive : 1 ≤ N) (h : Inv N s p) (takes : s.reader = .takes)
    (stage : s.queue.threads.writer = .rests) : s.front ≠ s.back := by
  have visible := h.lawful.visible_le
  have completed := h.completed_lt
  have at_ := h.reader
  rw [takes] at at_
  cases at_ with
  | takes stage' front fetched =>
    obtain ⟨n, -, low, high⟩ := fetched
    have last : p.completed < s.queue.tail - 1 ∨ p.completed = s.queue.tail - 1 := by omega
    rw [h.front_eq positive stage', h.back_eq positive stage, Ne,
      h.cell_inj positive (Nat.le_refl _) (by omega) (by omega) (by omega)]
    omega

theorem memory_is_safe (positive : 1 ≤ N) (reached : (machine T N).Reach s) : Safe N s := by
  obtain ⟨p, -, h⟩ := reach_inv positive reached
  refine ⟨h.queue, fun l called => ?_, h.apart positive, fun writer reader => ?_⟩
  · obtain ⟨s', step, -⟩ := h.perform positive called
    rw [step]
    rfl
  · have writing := h.writer
    have reading := h.reader
    rw [writer] at writing
    rw [reader] at reading
    obtain ⟨_, _, _, inv⟩ := Yqueue.reach_inv positive h.queue
    cases writing with
    | rests stage =>
      cases reading with
      | rests stage' => exact inv.destroyed stage stage'

theorem memory_is_safe_exchange : Safe 2 (exchangeRun.state exchange.length) :=
  memory_is_safe (by decide) (exchangeRun.reach (Nat.le_refl _))

end Ypipe
