import CppConcurrency.DataChunkQueueBounds
import CppConcurrency.DataChunkQueueChunks
import CppConcurrency.Yqueue

/-!
# The elements of a `yqueue_t` lie in consecutive cells

Counted from the first chunk on, element `n` lies in cell `n % N` of the chunk in place
`n / N`. The end is the cell of the next element to be pushed, one cell further while a
push or an unpush is halfway, and the back is the cell before it. So the positions say
everything, and no push leaves a gap.
-/

namespace Yqueue

open Machines DataChunkQueue
open DataChunkQueue.Threads (Writer Reader Slot Chunks ReaderAt le_of_cell_le)

universe u

variable {T : Type u} {N : ℕ} {q q' : ZmqQueue T} {place : ℕ → ℕ} {first last held tail stop n : ℕ}

/-- The cell of element `n`. -/
def cellAt (N : ℕ) (place : ℕ → ℕ) (n : ℕ) : Cell := ⟨.to (place (n / N)), n % N⟩

theorem cellAt_mk {i p : ℕ} (inside : p < N) : cellAt N place (i * N + p) = ⟨.to (place i), p⟩ := by
  have positive : 0 < N := by omega
  rw [cellAt, Nat.mul_comm, Nat.mul_add_div positive, Nat.div_eq_of_lt inside, Nat.mul_add_mod,
    Nat.mod_eq_of_lt inside, Nat.add_zero]

theorem split_number (positive : 0 < N) (n : ℕ) : ∃ i p, p < N ∧ n = i * N + p :=
  ⟨n / N, n % N, Nat.mod_lt n positive, (Nat.div_add_mod' n N).symm⟩

theorem cellAt_congr {place' : ℕ → ℕ} (same : place' (n / N) = place (n / N)) :
    cellAt N place' n = cellAt N place n := by
  rw [cellAt, same, cellAt]

/-- Element `n` lies in the chunk in place `n / N`, and is before the end. -/
theorem div_le_last (inside : q.endPos ≤ N) (before : n < last * N + q.endPos) : n / N ≤ last := by
  have positive : 0 < N := by
    by_contra none
    obtain rfl : N = 0 := by omega
    simp only [Nat.mul_zero] at before
    omega
  have : n < (last + 1) * N := by
    rw [Nat.succ_mul]
    omega
  exact Nat.le_of_lt_succ ((Nat.div_lt_iff_lt_mul positive).mpr this)

/-! ### Where the writer stands -/

/-- The end is cell number `stop`, in the last chunk. -/
structure EndsAt (N : ℕ) (q : ZmqQueue T) (last stop : ℕ) : Prop where
  inside : q.endPos < N
  at_stop : last * N + q.endPos = stop

/-- The back is the newest element, if there is one. -/
def BackAt (N : ℕ) (q : ZmqQueue T) (place : ℕ → ℕ) (held tail : ℕ) : Prop :=
  0 < held → q.back = cellAt N place (tail - 1)

/-- The new element has filled the last chunk. -/
structure Filling (N : ℕ) (q : ZmqQueue T) (place : ℕ → ℕ) (last tail : ℕ) : Prop where
  full : q.endPos = N
  at_stop : last * N + q.endPos = tail + 1
  back : q.back = cellAt N place tail

inductive WriterAt (N : ℕ) (q : ZmqQueue T) (place : ℕ → ℕ) (last held tail : ℕ) : Writer → Prop where
  | rests (ends : EndsAt N q last tail) (back : BackAt N q place held tail) :
      WriterAt N q place last held tail .rests
  | exchanges (filling : Filling N q place last tail) :
      WriterAt N q place last held tail .exchanges
  | links (sc : Pointer) (filling : Filling N q place last tail) :
      WriterAt N q place last held tail (.links sc)
  | joins {d : ℕ} {k : Chunk T} (filling : Filling N q place last tail)
      (hk : q.heap (place last) = some k) (linked : k.next = .to d) :
      WriterAt N q place last held tail (.joins (.to d))
  | retracts (ends : EndsAt N q last (tail + 1)) (back : BackAt N q place held tail) :
      WriterAt N q place last held tail .retracts
  | frees {d : ℕ} {k : Chunk T} (ends : EndsAt N q last tail) (back : BackAt N q place held tail)
      (hk : q.heap (place last) = some k) (linked : k.next = .to d) :
      WriterAt N q place last held tail .frees
  | cuts (ends : EndsAt N q last tail) (back : BackAt N q place held tail) :
      WriterAt N q place last held tail .cuts

theorem WriterAt.inside {w : Writer} (h : WriterAt N q place last held tail w) : q.endPos ≤ N := by
  cases h with
  | rests ends | retracts ends | frees ends | cuts ends => exact Nat.le_of_lt ends.inside
  | exchanges filling | links _ filling | joins filling => exact Nat.le_of_eq filling.full

theorem WriterAt.tail_le {w : Writer} (h : WriterAt N q place last held tail w) :
    tail ≤ last * N + q.endPos := by
  cases h with
  | rests ends | frees ends | cuts ends => exact Nat.le_of_eq ends.at_stop.symm
  | retracts ends =>
    have := ends.at_stop
    omega
  | exchanges filling | links _ filling | joins filling =>
    have := filling.at_stop
    omega

/-- The last chunk has room beyond the elements. -/
theorem WriterAt.ahead {w : Writer} (h : WriterAt N q place last held tail w) :
    ∃ p, p < N ∧ tail ≤ last * N + p := by
  cases h with
  | rests ends | frees ends | cuts ends => exact ⟨_, ends.inside, Nat.le_of_eq ends.at_stop.symm⟩
  | retracts ends => exact ⟨_, ends.inside, by have := ends.at_stop; omega⟩
  | exchanges filling | links _ filling | joins filling =>
    have := filling.at_stop
    have := filling.full
    by_cases none : N = 0
    · simp only [none, Nat.mul_zero] at *
      omega
    · exact ⟨N - 1, by omega, by omega⟩

/-- What the reader does is none of the writer's business, except that it may write to the
last chunk. -/
theorem WriterAt.frame {held' : ℕ} {w : Writer} (h : WriterAt N q place last held tail w)
    (endPos : q'.endPos = q.endPos) (back : q'.back = q.back)
    (links : ∀ k, q.heap (place last) = some k →
      ∃ k', q'.heap (place last) = some k' ∧ k'.next = k.next)
    (fewer : held' ≤ held) : WriterAt N q' place last held' tail w := by
  have ends : ∀ {stop}, EndsAt N q last stop → EndsAt N q' last stop :=
    fun h => ⟨endPos ▸ h.inside, endPos ▸ h.at_stop⟩
  have backAt : BackAt N q place held tail → BackAt N q' place held' tail :=
    fun h some => back.trans (h (Nat.lt_of_lt_of_le some fewer))
  have filling : Filling N q place last tail → Filling N q' place last tail :=
    fun h => ⟨endPos.trans h.full, endPos ▸ h.at_stop, back.trans h.back⟩
  cases h with
  | rests e b => exact .rests (ends e) (backAt b)
  | exchanges f => exact .exchanges (filling f)
  | links sc f => exact .links sc (filling f)
  | joins f hk linked =>
    obtain ⟨k', hk', same⟩ := links _ hk
    exact .joins (filling f) hk' (same.trans linked)
  | retracts e b => exact .retracts (ends e) (backAt b)
  | frees e b hk linked =>
    obtain ⟨k', hk', same⟩ := links _ hk
    exact .frees (ends e) (backAt b) hk' (same.trans linked)
  | cuts e b => exact .cuts (ends e) (backAt b)

theorem WriterAt.slot_frame {w : Writer} {r r' : Reader} {held' : ℕ}
    (h : WriterAt N q place last held tail w) (ends : q.endChunk = .to (place last))
    (ends' : q'.endChunk = .to (place last))
    (links : ∀ k, q.heap (place last) = some k →
      ∃ k', q'.heap (place last) = some k' ∧ k'.next = k.next) :
    Threads.State.writerSlot ⟨q', w, r', held'⟩ = Threads.State.writerSlot ⟨q, w, r, held⟩ := by
  cases h with
  | frees _ _ hk linked =>
    obtain ⟨k', hk', same⟩ := links _ hk
    simp [Threads.State.writerSlot, ends, ends', ZmqQueue.chunk, hk, hk', same]
  | rests | exchanges | links | joins | retracts | cuts => rfl

/-! ### The invariant of both threads -/

/-- The chunks in the list keep their values. -/
def SameValues (q q' : ZmqQueue T) (place : ℕ → ℕ) (first last : ℕ) : Prop :=
  ∀ i p, first ≤ i → i ≤ last → content q' (place i) p = content q (place i) p

theorem SameValues.of_heap (same : q'.heap = q.heap) : SameValues q q' place first last := by
  intro i p _ _
  rw [content, same, content]

theorem SameValues.trans {q₁ : ZmqQueue T} (before : SameValues q q₁ place first last)
    (after : SameValues q₁ q' place first last) : SameValues q q' place first last :=
  fun i p low high => (after i p low high).trans (before i p low high)

/-- A write to a link, or a chunk outside the list given back or taken. -/
theorem SameValues.update {c : ℕ} {k : Option (Chunk T)}
    (heap : q'.heap = Function.update q.heap c k)
    (kept : ∀ i, first ≤ i → i ≤ last → place i = c →
      k.map Chunk.values = (q.heap c).map Chunk.values) : SameValues q q' place first last := by
  intro i p low high
  rw [content, content, heap]
  by_cases here : place i = c
  · have same := kept i low high here
    rw [here, Function.update_self]
    cases hq : q.heap c with
    | none =>
      rw [hq] at same
      rw [Option.map_eq_none_iff.mp same]
    | some k' =>
      rw [hq] at same
      obtain ⟨k'', rfl, values⟩ := Option.map_eq_some_iff.mp same
      simp [values]
  · rw [Function.update_of_ne here]

structure Inv (N : ℕ) (s : State T) (place : ℕ → ℕ) (first last : ℕ) : Prop where
  chunks : Chunks s.threads.queue s.threads.slot place first last
  writer : WriterAt N s.threads.queue place last s.threads.held s.tail s.threads.writer
  reader : ReaderAt N s.threads.queue first s.threads.reader s.front
  cells : ∀ n, s.front ≤ n → n < last * N + s.threads.queue.endPos → s.cell n = cellAt N place n
  values : ∀ n v, s.front ≤ n → n < last * N + s.threads.queue.endPos → s.value n = some v →
    content s.threads.queue (place (n / N)) (n % N) = some v

/-- Element `n` is in a chunk of the list. -/
theorem Inv.listed {s : State T} (h : Inv N s place first last) (low : s.front ≤ n)
    (high : n < last * N + s.threads.queue.endPos) : 0 < N ∧ first ≤ n / N ∧ n / N ≤ last := by
  have inside := h.writer.inside
  have positive : 0 < N := by
    by_contra none
    obtain rfl : N = 0 := by omega
    simp only [Nat.mul_zero] at high
    omega
  have start := h.reader.le_front
  refine ⟨positive, (Nat.le_div_iff_mul_le positive).mpr (by omega), ?_⟩
  exact div_le_last inside high

end Yqueue
