import CppConcurrency.Potentials
import CppConcurrency.YpipeSafety

/-!
# `ypipe_t`: no call waits

A call takes at most five steps on the writer's side and eight on the reader's, most of
them where it crosses into another chunk. No step of the one side waits for the other or
sends it back: the exchange of `flush` is not repeated when it fails.
-/

namespace Ypipe

open Machines DataChunkQueue Pipes

universe u

variable {T : Type u} {N : ℕ} {s s' : State T} {l : Label T}

/-- The steps that are left inside `push()` or `unpush()` of the queue. -/
def writing : Threads.Writer → ℕ
  | .rests => 0
  | .exchanges | .retracts => 3
  | .links _ | .frees => 2
  | .joins _ | .cuts => 1

/-- The steps that are left inside `pop()` of the queue. -/
def reading : Threads.Reader → ℕ
  | .rests => 0
  | .crosses => 4
  | .detaches _ => 3
  | .spares _ => 2
  | .drops _ => 1

/-- The steps that are left to the writer's call, by how far the queue's part of it is. -/
def Writer.work (stage : Threads.Writer) : Writer T → ℕ
  | .rests => 0
  | .pushes _ _ => if stage = .rests then 4 else writing stage
  | .unpushes => writing stage + 1
  | .takesBack | .sets => 1
  | .exchanges => 2

/-- The steps that are left to the reader's call. -/
def Reader.work (stage : Threads.Reader) : Reader T → ℕ
  | .rests => 0
  | .exchanges reading => if reading then 7 else 1
  | .takes => 6
  | .pops _ => if stage = .rests then 5 else reading stage

def writerWork (s : State T) : ℕ := s.writer.work s.queue.threads.writer

def readerWork (s : State T) : ℕ := s.reader.work s.queue.threads.reader

def Label.writes : Label T → Bool
  | .write _ _ | .unwrite | .flush | .writerStep => true
  | .checkRead | .read | .readerStep => false

/-- The step begins a call. -/
def Label.calls : Label T → Bool
  | .writerStep | .readerStep => false
  | _ => true

theorem writing_le (stage : Threads.Writer) : writing stage ≤ 3 := by
  cases stage <;> simp [writing]

theorem reading_le (stage : Threads.Reader) : reading stage ≤ 4 := by
  cases stage <;> simp [reading]

/-! ### Steps of the queue -/

section Queue

variable {q q' : Yqueue.State T}

theorem write_writing (hs : Yqueue.perform N q .write = some q') :
    writing q'.threads.writer + 1 ≤ writing q.threads.writer := by
  obtain ⟨t, moved, rfl⟩ := Option.map_eq_some_iff.mp hs
  change writing t.writer + 1 ≤ _
  unfold Yqueue.advanceWriter Threads.advanceWriter at moved
  cases now : q.threads.writer with
  | rests => simp [now] at moved
  | exchanges =>
    simp only [now, Option.some.injEq] at moved
    obtain rfl := moved
    exact Nat.le_refl 3
  | links sc =>
    simp only [now] at moved
    obtain ⟨q, -, rfl⟩ := Option.map_eq_some_iff.mp moved
    exact Nat.le_refl 2
  | joins link =>
    simp only [now] at moved
    obtain ⟨q, -, moved⟩ := Option.bind_eq_some_iff.mp moved
    obtain ⟨k, -, rfl⟩ := Option.map_eq_some_iff.mp moved
    exact Nat.le_refl 1
  | retracts =>
    simp only [now] at moved
    split at moved
    · obtain rfl := Option.some.inj moved
      exact (by decide : 1 ≤ 3)
    · obtain ⟨k, -, rfl⟩ := Option.map_eq_some_iff.mp moved
      exact Nat.le_refl 3
  | frees =>
    simp only [now] at moved
    obtain ⟨k, -, moved⟩ := Option.bind_eq_some_iff.mp moved
    obtain ⟨q, -, rfl⟩ := Option.map_eq_some_iff.mp moved
    exact Nat.le_refl 2
  | cuts =>
    simp only [now] at moved
    obtain ⟨q, -, rfl⟩ := Option.map_eq_some_iff.mp moved
    exact Nat.le_refl 1

theorem read_reading (hs : Yqueue.perform N q .read = some q') :
    reading q'.threads.reader + 1 ≤ reading q.threads.reader := by
  obtain ⟨t, moved, rfl⟩ := Option.map_eq_some_iff.mp hs
  change reading t.reader + 1 ≤ _
  unfold Yqueue.advanceReader Threads.advanceReader at moved
  cases now : q.threads.reader with
  | rests => simp [now] at moved
  | crosses =>
    simp only [now] at moved
    obtain ⟨k, -, rfl⟩ := Option.map_eq_some_iff.mp moved
    exact Nat.le_refl 4
  | detaches t =>
    simp only [now] at moved
    obtain ⟨q, -, rfl⟩ := Option.map_eq_some_iff.mp moved
    exact Nat.le_refl 3
  | spares t =>
    simp only [now, Option.some.injEq] at moved
    obtain rfl := moved
    exact Nat.le_refl 2
  | drops sc =>
    simp only [now] at moved
    obtain ⟨q, -, rfl⟩ := Option.map_eq_some_iff.mp moved
    exact Nat.le_refl 1

end Queue

/-! ### Steps of the pipe -/

/-- A step of the writer brings its call closer to the end. -/
theorem advanceWriter_work (hs : advanceWriter N s = some s') :
    writerWork s' + 1 ≤ writerWork s ∧ readerWork s' = readerWork s := by
  have lower {s' : State T} {k : ℕ} (after : writerWork s' ≤ k) (before : k + 1 = writerWork s)
      (reader : s'.reader = s.reader)
      (stage : s'.queue.threads.reader = s.queue.threads.reader) :
      writerWork s' + 1 ≤ writerWork s ∧ readerWork s' = readerWork s := by
    refine ⟨by omega, ?_⟩
    rw [readerWork, reader, stage, readerWork]
  cases now : s.writer with
  | rests =>
    simp only [advanceWriter, now] at hs
    cases hs
  | pushes value incomplete =>
    simp only [advanceWriter, now] at hs
    obtain ⟨q, moved, rfl⟩ := Option.map_eq_some_iff.mp hs
    have after {k : ℕ} (less : writing q.threads.writer ≤ k) : writerWork
        (if q.threads.writer = .rests then
          writeReturns { s with queue := q, writer := .pushes value incomplete } value incomplete
          else { s with queue := q, writer := .pushes value incomplete }) ≤ k := by
      by_cases ended : q.threads.writer = .rests
      · rw [if_pos ended]
        exact Nat.zero_le k
      · rw [if_neg ended]
        simp only [writerWork, Writer.work, if_neg ended]
        exact less
    by_cases first : s.queue.threads.writer = .rests
    · rw [if_pos first] at moved
      obtain ⟨-, stage, -⟩ := Yqueue.push_effect moved
      refine lower (k := 3) (after (writing_le _)) ?_ (by split <;> rfl) (by split <;> exact stage)
      simp only [writerWork, now, Writer.work, if_pos first]
    · rw [if_neg first] at moved
      obtain ⟨-, stage, -⟩ := Yqueue.write_effect moved
      have less := write_writing moved
      have left : writing q.threads.writer ≤ writing s.queue.threads.writer - 1 := by omega
      refine lower (after left) ?_ (by split <;> rfl) (by split <;> exact stage)
      simp only [writerWork, now, Writer.work, if_neg first]
      omega
  | unpushes =>
    simp only [advanceWriter, now] at hs
    obtain ⟨q, moved, rfl⟩ := Option.map_eq_some_iff.mp hs
    obtain ⟨-, stage, -⟩ := Yqueue.write_effect moved
    have less := write_writing moved
    refine lower (k := writing s.queue.threads.writer) ?_ (by rw [writerWork, now]; rfl) rfl stage
    by_cases ended : q.threads.writer = .rests
    · simp only [writerWork, ended, if_true]
      exact Nat.le_trans (Nat.le_add_left 1 _) less
    · simp only [writerWork, ended, if_false]
      exact less
  | takesBack =>
    simp only [advanceWriter, now] at hs
    obtain ⟨value, -, rfl⟩ := Option.map_eq_some_iff.mp hs
    exact lower (k := 0) (Nat.le_refl 0) (by rw [writerWork, now]; rfl) rfl rfl
  | exchanges =>
    simp only [advanceWriter, now, Option.some.injEq] at hs
    obtain rfl := hs
    have before : 1 + 1 = writerWork s := by rw [writerWork, now]; rfl
    split
    · exact lower (Nat.zero_le 1) before rfl rfl
    · exact lower (Nat.le_refl 1) before rfl rfl
  | sets =>
    simp only [advanceWriter, now, Option.some.injEq] at hs
    obtain rfl := hs
    exact lower (k := 0) (Nat.le_refl 0) (by rw [writerWork, now]; rfl) rfl rfl

/-- A step of the reader brings its call closer to the end. -/
theorem advanceReader_work (hs : advanceReader N s = some s') :
    readerWork s' + 1 ≤ readerWork s ∧ writerWork s' = writerWork s := by
  have lower {s' : State T} {k : ℕ} (after : readerWork s' ≤ k) (before : k + 1 = readerWork s)
      (writer : s'.writer = s.writer)
      (stage : s'.queue.threads.writer = s.queue.threads.writer) :
      readerWork s' + 1 ≤ readerWork s ∧ writerWork s' = writerWork s := by
    refine ⟨by omega, ?_⟩
    rw [writerWork, writer, stage, writerWork]
  cases now : s.reader with
  | rests =>
    simp only [advanceReader, now] at hs
    cases hs
  | exchanges reading =>
    simp only [advanceReader, now, Option.some.injEq] at hs
    obtain rfl := hs
    generalize (if s.c = some s.front then none else s.c) = c
    cases reading with
    | true =>
      have before : 6 + 1 = readerWork s := by rw [readerWork, now]; rfl
      simp only [fetch]
      split
      · exact lower (Nat.zero_le 6) before rfl rfl
      · exact lower (Nat.le_refl 6) before rfl rfl
    | false =>
      have before : 0 + 1 = readerWork s := by rw [readerWork, now]; rfl
      simp only [fetch]
      split
      · exact lower (Nat.le_refl 0) before rfl rfl
      · exact lower (Nat.le_refl 0) before rfl rfl
  | takes =>
    simp only [advanceReader, now] at hs
    obtain ⟨value, -, rfl⟩ := Option.map_eq_some_iff.mp hs
    refine lower (k := 5) ?_ (by rw [readerWork, now]; rfl) rfl rfl
    simp only [readerWork, Reader.work]
    split
    · exact Nat.le_refl 5
    · exact Nat.le_succ_of_le (reading_le _)
  | pops value =>
    simp only [advanceReader, now] at hs
    obtain ⟨q, moved, rfl⟩ := Option.map_eq_some_iff.mp hs
    have after {k : ℕ} (less : reading q.threads.reader ≤ k) : readerWork
        (if q.threads.reader = .rests then
          State.readerReturns { s with queue := q, reader := .pops value } (.read (some value))
          else { s with queue := q, reader := .pops value }) ≤ k := by
      by_cases ended : q.threads.reader = .rests
      · rw [if_pos ended]
        exact Nat.zero_le k
      · rw [if_neg ended]
        simp only [readerWork, Reader.work, if_neg ended]
        exact less
    by_cases first : s.queue.threads.reader = .rests
    · rw [if_pos first] at moved
      obtain ⟨-, stage, -⟩ := Yqueue.pop_effect moved
      refine lower (k := 4) (after (reading_le _)) ?_ (by split <;> rfl) (by split <;> exact stage)
      simp only [readerWork, now, Reader.work, if_pos first]
    · rw [if_neg first] at moved
      obtain ⟨-, stage, -⟩ := Yqueue.read_effect moved
      have less := read_reading moved
      have left : reading q.threads.reader ≤ reading s.queue.threads.reader - 1 := by omega
      refine lower (after left) ?_ (by split <;> rfl) (by split <;> exact stage)
      simp only [readerWork, now, Reader.work, if_neg first]
      omega

/-- A call of the writer costs five steps and a call of the reader eight, and neither costs
the other side anything. -/
theorem next_work (hs : next N s l = some s') :
    writerWork s' + l.writes.toNat ≤ writerWork s + 5 * (l.writes && l.calls).toNat ∧
      readerWork s' + (!l.writes).toNat ≤ readerWork s + 8 * (!l.writes && l.calls).toNat := by
  obtain ⟨called, hs⟩ := Option.ite_none_right_eq_some.mp hs
  cases l with
  | writerStep =>
    obtain ⟨less, same⟩ := advanceWriter_work hs
    exact ⟨less, Nat.le_of_eq same⟩
  | readerStep =>
    obtain ⟨less, same⟩ := advanceReader_work hs
    exact ⟨Nat.le_of_eq same, less⟩
  | write value incomplete =>
    obtain ⟨q, stored, rfl⟩ := Option.map_eq_some_iff.mp hs
    obtain ⟨-, stage, -⟩ := Yqueue.assign_effect stored
    refine ⟨?_, Nat.le_of_eq (congrArg s.reader.work stage)⟩
    have bound : Writer.work q.threads.writer (.pushes value incomplete) ≤ 4 := by
      simp only [Writer.work]
      split
      · exact Nat.le_refl 4
      · exact Nat.le_succ_of_le (writing_le _)
    change Writer.work q.threads.writer (.pushes value incomplete) + 1 ≤ writerWork s + 5
    omega
  | unwrite =>
    simp only [perform, unwrite] at hs
    split at hs
    · obtain rfl := Option.some.inj hs
      exact ⟨Nat.le_trans (by decide : 0 + 1 ≤ 5) (Nat.le_add_left 5 _), Nat.le_refl _⟩
    · obtain ⟨q, moved, rfl⟩ := Option.map_eq_some_iff.mp hs
      obtain ⟨-, stage, -⟩ := Yqueue.unpush_effect moved
      refine ⟨?_, Nat.le_of_eq (congrArg s.reader.work stage)⟩
      have bound := writing_le q.threads.writer
      change writing q.threads.writer + 1 + 1 ≤ writerWork s + 5
      omega
  | flush =>
    obtain rfl := Option.some.inj hs
    simp only [flush]
    split
    · exact ⟨Nat.le_trans (by decide : 0 + 1 ≤ 5) (Nat.le_add_left 5 _), Nat.le_refl _⟩
    · exact ⟨Nat.le_trans (by decide : 2 + 1 ≤ 5) (Nat.le_add_left 5 _), Nat.le_refl _⟩
  | checkRead =>
    obtain rfl := Option.some.inj hs
    simp only [checkRead]
    split
    · exact ⟨Nat.le_refl _, Nat.le_trans (by decide : 0 + 1 ≤ 8) (Nat.le_add_left 8 _)⟩
    · exact ⟨Nat.le_refl _, Nat.le_trans (by decide : 1 + 1 ≤ 8) (Nat.le_add_left 8 _)⟩
  | read =>
    obtain rfl := Option.some.inj hs
    simp only [checkRead]
    split
    · exact ⟨Nat.le_refl _, Nat.le_trans (by decide : 6 + 1 ≤ 8) (Nat.le_add_left 8 _)⟩
    · exact ⟨Nat.le_refl _, Nat.le_trans (by decide : 7 + 1 ≤ 8) (Nat.le_add_left 8 _)⟩

theorem writerWork_le (s : State T) : writerWork s ≤ 4 := by
  have bound := writing_le s.queue.threads.writer
  unfold writerWork Writer.work
  split
  · exact Nat.zero_le 4
  · split
    · exact Nat.le_refl 4
    · omega
  · omega
  · decide
  · decide
  · decide

theorem readerWork_le (s : State T) : readerWork s ≤ 7 := by
  have bound := reading_le s.queue.threads.reader
  unfold readerWork Reader.work
  split
  · exact Nat.zero_le 7
  · split <;> decide
  · decide
  · split
    · decide
    · omega

/-- From any moment of any run, each side takes a bounded number of steps for each of its
calls, whatever the other side does, and as long as a call has not returned its next step
can be taken. -/
theorem calls_are_wait_free (positive : 1 ≤ N) (run : (machine T N).Run) {i j : ℕ} (hij : i ≤ j)
    (hj : j ≤ run.length) :
    run.count (fun _ l => l.writes) i j ≤
      4 + 5 * run.count (fun _ l => l.writes && l.calls) i j ∧
    run.count (fun _ l => !l.writes) i j ≤
      7 + 8 * run.count (fun _ l => !l.writes && l.calls) i j ∧
    ((run.state j).writer.atRest = false →
      ((machine T N).next (run.state j) .writerStep).isSome = true) ∧
    ((run.state j).reader.atRest = false →
      ((machine T N).next (run.state j) .readerStep).isSome = true) := by
  obtain ⟨p, -, h⟩ := reach_inv positive (run.reach hj)
  have goesOn {l : Label T} (called : enabled (run.state j) l = true) :
      ((machine T N).next (run.state j) l).isSome = true := by
    obtain ⟨s', step, -⟩ := h.perform positive called
    rw [show (machine T N).next (run.state j) l = some s' from (if_pos called).trans step]
    rfl
  refine ⟨?_, ?_, fun busy => goesOn ?_, fun busy => goesOn ?_⟩
  · have paid := run.total_le writerWork (fun _ l => l.writes.toNat)
      (fun _ l => 5 * (l.writes && l.calls).toNat) (fun s l s' _ hs => (next_work hs).1) hij hj
    rw [Machine.Run.total_mul] at paid
    have left := writerWork_le (run.state i)
    exact Nat.le_trans (Nat.le_add_left _ _) (Nat.le_trans paid (Nat.add_le_add_right left _))
  · have paid := run.total_le readerWork (fun _ l => (!l.writes).toNat)
      (fun _ l => 8 * (!l.writes && l.calls).toNat) (fun s l s' _ hs => (next_work hs).2) hij hj
    rw [Machine.Run.total_mul] at paid
    have left := readerWork_le (run.state i)
    exact Nat.le_trans (Nat.le_add_left _ _) (Nat.le_trans paid (Nat.add_le_add_right left _))
  · simp only [enabled, busy, Bool.not_false]
  · simp only [enabled, busy, Bool.not_false]

theorem calls_are_wait_free_exchange :
    exchangeRun.count (fun _ l => l.writes) 0 19 ≤ 4 + 5 * 4 ∧
      exchangeRun.count (fun _ l => !l.writes) 0 19 ≤ 7 + 8 * 2 := by
  obtain ⟨writer, reader, -⟩ :=
    calls_are_wait_free (by decide) exchangeRun (Nat.zero_le 19) (Nat.le_refl 19)
  have calls : exchangeRun.count (fun _ l => l.writes && l.calls) 0 19 = 4 := by decide +kernel
  have calls' : exchangeRun.count (fun _ l => !l.writes && l.calls) 0 19 = 2 := by decide +kernel
  rw [calls] at writer
  rw [calls'] at reader
  exact ⟨writer, reader⟩

end Ypipe
