import CppConcurrency.DataChunkQueueSafety
import CppConcurrency.YqueueSteps

/-!
# `yqueue_t` keeps its elements and its chunks

Whatever a writer and a reader do within the contract of the class, the front is the cell
of the oldest element and the back that of the newest, an element's cell is its own as long
as it is held, and the chunks are each in one place. So the queue that `zmqQueue` was made
from keeps in every run what `zmqQueue` keeps only while no push returns early.
-/

namespace Yqueue

open Machines DataChunkQueue
open DataChunkQueue.Threads (ListOf IsAt)

universe u

variable {T : Type u} {N : ℕ} {s : State T} {place : ℕ → ℕ} {first last m n : ℕ}

theorem Inv.cell_eq (h : Inv N s place first last) (low : s.front ≤ n) (high : n < s.tail) :
    s.cell n = cellAt N place n :=
  h.cells n low (Nat.lt_of_lt_of_le high h.writer.tail_le)

theorem Inv.cell_inj (h : Inv N s place first last) (low : s.front ≤ m) (high : m < s.tail)
    (low' : s.front ≤ n) (high' : n < s.tail) (same : s.cell m = s.cell n) : m = n := by
  rw [h.cell_eq low high, h.cell_eq low' high'] at same
  obtain ⟨chunk, pos⟩ := Cell.mk.inj same
  obtain ⟨-, inList, inList'⟩ := h.listed low (Nat.lt_of_lt_of_le high h.writer.tail_le)
  obtain ⟨-, inList₁, inList₁'⟩ := h.listed low' (Nat.lt_of_lt_of_le high' h.writer.tail_le)
  have div := h.chunks.inj _ _ inList inList' inList₁ inList₁' (Pointer.to.inj chunk)
  rw [← Nat.div_add_mod m N, ← Nat.div_add_mod n N, div, pos]

/-- The cell of an element holds what was assigned to it. -/
theorem Inv.load (h : Inv N s place first last) (low : s.front ≤ n) (high : n < s.tail) :
    ∃ v, s.threads.queue.load N (s.cell n) = some v ∧ ∀ x, s.value n = some x → v = some x := by
  have before := Nat.lt_of_lt_of_le high h.writer.tail_le
  obtain ⟨positive, inList, inList'⟩ := h.listed low before
  obtain ⟨k, hk⟩ := h.chunks.inList inList inList'
  refine ⟨content s.threads.queue (place (n / N)) (n % N), ?_, fun x => h.values n x low before⟩
  rw [h.cell_eq low high]
  exact load_eq (Nat.mod_lt n positive) (hk ▸ rfl)

theorem Inv.front_eq (h : Inv N s place first last) (rests : s.threads.reader = .rests)
    (some : s.front < s.tail) : s.threads.queue.front = s.cell s.front := by
  rw [h.cell_eq (Nat.le_refl _) some]
  have reading := h.reader
  rw [rests] at reading
  obtain ⟨inside, number⟩ :
      s.threads.queue.beginPos < N ∧ first * N + s.threads.queue.beginPos = s.front := by
    generalize s.front = front at reading
    cases reading with
    | rests inside => exact ⟨inside, rfl⟩
  rw [← number, cellAt_mk inside, ← h.chunks.begins]
  rfl

theorem Inv.back_eq (h : Inv N s place first last) (rests : s.threads.writer = .rests)
    (some : s.front < s.tail) : s.threads.queue.back = s.cell (s.tail - 1) := by
  have held : 0 < s.threads.held := by
    rw [State.tail] at some
    omega
  have writing := h.writer
  rw [rests] at writing
  cases writing with
  | rests _ back => rw [back held, h.cell_eq (by omega) (by omega)]

/-- What the users of the queue rely on. The last part is about the destructor, which runs
when both threads are at rest. -/
structure Kept (N : ℕ) (s : State T) : Prop where
  distinct : ∀ m n, s.front ≤ m → m < s.tail → s.front ≤ n → n < s.tail → s.cell m = s.cell n → m = n
  loads : ∀ n, s.front ≤ n → n < s.tail → ∃ v, s.threads.queue.load N (s.cell n) = some v ∧
    ∀ x, s.value n = some x → v = some x
  front : s.threads.reader = .rests → s.front < s.tail → s.threads.queue.front = s.cell s.front
  back : s.threads.writer = .rests → s.front < s.tail → s.threads.queue.back = s.cell (s.tail - 1)
  defined : ∀ l, enabled s l = true → (perform N s l).isSome = true
  places : ∃ chunks, ListOf s.threads.queue chunks ∧
    ∀ c, c < s.threads.queue.fresh → ∃! p, IsAt s.threads chunks c p
  destroyed : s.threads.writer = .rests → s.threads.reader = .rests → ∃ fuel freed q',
    s.threads.queue.destroy fuel = some (freed, q') ∧ freed.Nodup ∧
      (∀ c, .to c ∈ freed ↔ (s.threads.queue.heap c).isSome = true) ∧ ∀ c, q'.heap c = none

/-- At rest, the destructor frees the chunks of the list and the spare one, each once. -/
theorem Inv.destroyed (h : Inv N s place first last) (atRest : s.threads.writer = .rests)
    (atRest' : s.threads.reader = .rests) : ∃ fuel freed q',
      s.threads.queue.destroy fuel = some (freed, q') ∧ freed.Nodup ∧
        (∀ c, .to c ∈ freed ↔ (s.threads.queue.heap c).isSome = true) ∧ ∀ c, q'.heap c = none := by
  have writer : s.threads.slot .writer = .null := by
    simp [Threads.State.slot, Threads.State.writerSlot, atRest]
  have reader : s.threads.slot .reader = .null := by
    simp [Threads.State.slot, Threads.State.readerSlot, atRest']
  obtain ⟨q', destroyed, empty⟩ := h.chunks.destroy rfl writer reader
  refine ⟨_, _, q', destroyed, ?_, fun c => ?_, empty⟩
  · refine List.nodup_append.mpr ⟨h.chunks.nodup.map fun _ _ => Pointer.to.inj,
      List.nodup_singleton _, ?_⟩
    rintro p hp r hr rfl
    obtain ⟨c, hc, rfl⟩ := List.mem_map.mp hp
    obtain ⟨i, low, high, rfl⟩ := Threads.mem_listed.mp hc
    exact h.chunks.off .spare i low high (List.mem_singleton.mp hr).symm
  · rw [h.chunks.owned c, ← Threads.mem_listed, List.mem_append, List.mem_singleton,
      List.mem_map_of_injective fun _ _ => Pointer.to.inj]
    refine or_congr_right ⟨fun spare => ⟨.spare, spare.symm⟩, ?_⟩
    rintro ⟨x, hx⟩
    cases x with
    | spare => exact hx.symm
    | writer => cases writer.symm.trans hx
    | reader => cases reader.symm.trans hx

theorem Inv.kept (h : Inv N s place first last) : Kept N s where
  distinct _ _ := h.cell_inj
  loads _ := h.load
  front := h.front_eq
  back := h.back_eq
  defined l called := by
    obtain ⟨s', -, -, -, step, -⟩ := h.perform called
    rw [step]
    rfl
  places := ⟨Threads.listed place first last, h.chunks.listOf, fun c _ => h.chunks.isAt c⟩
  destroyed := h.destroyed

/-- In every run that keeps to the contract of the class. -/
theorem elements_are_kept (positive : 1 ≤ N) (reached : (machine T N).Reach s) : Kept N s := by
  obtain ⟨place, first, last, h⟩ := reach_inv positive reached
  exact h.kept

/-- Chunks of one element: the reader hands its chunk back while the writer takes it again. -/
def relay : List (Label ℕ) :=
  [.push, .write, .write, .write, .assign 1, .push, .write, .write, .write, .assign 2, .pop, .read,
    .read, .push, .read, .write, .read, .write]

def relayRun : (machine ℕ 1).Run := .ofSchedule _ .push relay (by decide +kernel)

theorem elements_are_kept_relay : Kept 1 (relayRun.state relay.length) :=
  elements_are_kept (by decide) (relayRun.reach (Nat.le_refl _))

end Yqueue
