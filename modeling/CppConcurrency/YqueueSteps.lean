import CppConcurrency.YqueueCells

/-!
# The steps of a `yqueue_t` keep its elements

Each step of either thread is defined, keeps the chunks in one place each, and moves the
end, the back and the front to where the elements say. What a step writes to a chunk is a
link, or the value of the newest element.
-/

namespace Yqueue

open Machines DataChunkQueue
open DataChunkQueue.Threads (Writer Reader Slot Chunks ReaderAt le_of_cell_le)

universe u

variable {T : Type u} {N : ℕ} {s s' : State T} {place : ℕ → ℕ} {first last n : ℕ}

theorem start_inv (positive : 1 ≤ N) : Inv N (start T) (fun _ => 0) 0 0 where
  chunks := (Threads.start_inv positive).chunks
  writer := .rests ⟨positive, Nat.zero_mul N⟩ fun some => absurd some (Nat.lt_irrefl 0)
  reader := by
    have rests : ReaderAt N (ZmqQueue.new : ZmqQueue T) 0 .rests (0 * N + 0) := .rests positive
    rwa [Nat.zero_mul] at rests
  cells n _ high := by
    rw [Nat.zero_mul] at high
    exact absurd high (Nat.not_lt_zero n)
  values n _ _ high := by
    rw [Nat.zero_mul] at high
    exact absurd high (Nat.not_lt_zero n)

/-- A step of one thread that changes no cell and no value of an element. -/
theorem Inv.moved (h : Inv N s place first last) {t : Threads.State T} {place' : ℕ → ℕ}
    {first' last' : ℕ} (chunks : Chunks t.queue t.slot place' first' last')
    (writer : WriterAt N t.queue place' last' t.held (s.front + t.held) t.writer)
    (reader : ReaderAt N t.queue first' t.reader s.front)
    (stop : last' * N + t.queue.endPos ≤ last * N + s.threads.queue.endPos)
    (places : ∀ i, i ≤ last → place' i = place i)
    (same : SameValues s.threads.queue t.queue place first last) :
    Inv N { s with threads := t } place' first' last' := by
  refine ⟨chunks, writer, reader, fun n low high => ?_, fun n v low high value => ?_⟩
  · have before := Nat.lt_of_lt_of_le high stop
    obtain ⟨-, -, inList⟩ := h.listed low before
    rw [cellAt_congr (places _ inList)]
    exact h.cells n low before
  · have before := Nat.lt_of_lt_of_le high stop
    obtain ⟨-, inList, inList'⟩ := h.listed low before
    dsimp only
    rw [places _ inList', same _ _ inList inList']
    exact h.values n v low before value

/-! ### The writer -/

/-- A push designates the cell at the end, and ends there while the chunk has room. -/
theorem Inv.push (h : Inv N s place first last) (rests : s.threads.writer = .rests) :
    ∃ s', perform N s .push = some s' ∧ Inv N s' place first last := by
  obtain ⟨⟨q, writer, reader, held⟩, front, cell, value⟩ := s
  obtain rfl : writer = .rests := rests
  obtain ⟨chunks, writing, reading, cells, values⟩ := h
  dsimp only at *
  cases writing with
  | rests ends back =>
    have inside := ends.inside
    have stop : last * N + q.endPos = front + held := ends.at_stop
    have new : (⟨q.endChunk, q.endPos⟩ : Cell) = cellAt N place (front + held) := by
      rw [chunks.ends, ← stop, cellAt_mk inside]
    have cells' : ∀ n, front ≤ n → n < last * N + (q.endPos + 1) →
        Function.update cell (front + held) ⟨q.endChunk, q.endPos⟩ n = cellAt N place n := by
      intro n low high
      by_cases newest : n = front + held
      · rw [newest, Function.update_self, new]
      · rw [Function.update_of_ne newest]
        exact cells n low (by omega)
    have values' : ∀ n v, front ≤ n → n < last * N + (q.endPos + 1) →
        Function.update value (front + held) none n = some v →
        content q (place (n / N)) (n % N) = some v := by
      intro n v low high stored
      by_cases newest : n = front + held
      · rw [newest, Function.update_self] at stored
        cases stored
      · rw [Function.update_of_ne newest] at stored
        exact values n v low (by omega) stored
    by_cases full : q.endPos + 1 = N
    · refine ⟨_, rfl, ?_⟩
      have begun : beginPush N ⟨q, .rests, reader, held⟩ = {
          queue := { q with backChunk := q.endChunk, backPos := q.endPos, endPos := q.endPos + 1 }
          writer := .exchanges
          reader := reader
          held := held } := if_neg (not_not.mpr full)
      rw [begun]
      exact {
        chunks := Chunks.of_slots { chunks with } fun x => by cases x <;> rfl
        writer := .exchanges ⟨full, congrArg (· + 1) stop, new⟩
        reader := reading.frame rfl
        cells := cells'
        values := values' }
    · refine ⟨_, rfl, ?_⟩
      have begun : beginPush N ⟨q, .rests, reader, held⟩ = {
          queue := { q with backChunk := q.endChunk, backPos := q.endPos, endPos := q.endPos + 1 }
          writer := .rests
          reader := reader
          held := held + 1 } := if_pos full
      rw [begun]
      exact {
        chunks := Chunks.of_slots { chunks with } fun x => by cases x <;> rfl
        writer := .rests ⟨Nat.lt_of_le_of_ne inside full, congrArg (· + 1) stop⟩ fun _ => new
        reader := reading.frame rfl
        cells := cells'
        values := values' }

/-- The exchange of the spare pointer against null. -/
theorem Inv.exchanges (h : Inv N s place first last) (now : s.threads.writer = .exchanges) :
    ∃ s', perform N s .write = some s' ∧ Inv N s' place first last := by
  obtain ⟨⟨q, writer, reader, held⟩, front, cell, value⟩ := s
  obtain rfl : writer = .exchanges := now
  have writing := h.writer
  cases writing with
  | exchanges filling =>
    refine ⟨_, rfl, h.moved ?_ (.links _ { filling with }) (h.reader.frame rfl) (Nat.le_refl _)
      (fun _ _ => rfl) (.of_heap rfl)⟩
    exact (h.chunks.swap (Equiv.swap .spare .writer) .null).of_slots fun x => by cases x <;> rfl

/-- The last chunk is linked to the chunk in hand, or to a new one. -/
theorem Inv.links (h : Inv N s place first last) {sc : Pointer}
    (now : s.threads.writer = .links sc) :
    ∃ s', perform N s .write = some s' ∧ Inv N s' place first last := by
  obtain ⟨⟨q, writer, reader, held⟩, front, cell, value⟩ := s
  obtain rfl : writer = .links sc := now
  have chunks : Chunks q (Threads.State.slot ⟨q, .links sc, reader, held⟩) place first last := h.chunks
  have ends := chunks.ends
  have writing : WriterAt N q place last held (front + held) (.links sc) := h.writer
  cases writing with
  | links _ filling =>
    cases sc with
    | wild => exact absurd rfl (chunks.tame .writer)
    | null =>
      have grown := chunks.malloc (x := .writer) rfl .raw
      obtain ⟨k, hk⟩ := grown.inList grown.order (Nat.le_refl last)
      have made : SameValues q { q with
          heap := Function.update q.heap q.fresh (some .raw), fresh := q.fresh + 1 } place first last :=
        .update rfl fun i low high same => by
          obtain ⟨ki, hi⟩ := chunks.inList low high
          have := chunks.fresh (place i) (by rw [hi]; rfl)
          exact absurd same (Nat.ne_of_lt this)
      refine ⟨{ threads := ⟨{ q with
        heap := Function.update (Function.update q.heap q.fresh (some .raw)) (place last)
          (some { k with next := .to q.fresh })
        fresh := q.fresh + 1 }, .joins (.to q.fresh), reader, held⟩, front, cell, value }, ?_,
        h.moved ?_ (.joins { filling with } (Function.update_self ..) rfl)
          (h.reader.frame rfl) (Nat.le_refl _) (fun _ _ => rfl) ?_⟩
      · simp [perform, advanceWriter, Threads.advanceWriter, ZmqQueue.malloc, ZmqQueue.modify, ends, hk]
      · exact (grown.write_next hk _).of_slots fun x => by cases x <;> rfl
      · refine made.trans (.update rfl ?_)
        rintro i - - same
        exact (congrArg (Option.map Chunk.values) hk).symm
    | «to» d =>
      obtain ⟨k, hk⟩ := chunks.inList chunks.order (Nat.le_refl last)
      refine ⟨{ threads := ⟨{ q with
        heap := Function.update q.heap (place last) (some { k with next := .to d }) },
          .joins (.to d), reader, held⟩, front, cell, value }, ?_,
        h.moved ?_ (.joins { filling with } (Function.update_self ..) rfl)
          (h.reader.frame rfl) (Nat.le_refl _) (fun _ _ => rfl) (.update rfl ?_)⟩
      · simp [perform, advanceWriter, Threads.advanceWriter, ZmqQueue.modify, ends, hk]
      · exact (chunks.write_next hk (.to d)).of_slots fun x => by cases x <;> rfl
      · rintro i - - same
        exact (congrArg (Option.map Chunk.values) hk).symm

/-- The new last chunk is linked back, and the end moves to its first cell. -/
theorem Inv.joins (h : Inv N s place first last) {link : Pointer}
    (now : s.threads.writer = .joins link) :
    ∃ s' place', perform N s .write = some s' ∧ Inv N s' place' first (last + 1) := by
  obtain ⟨⟨q, writer, reader, held⟩, front, cell, value⟩ := s
  obtain rfl : writer = .joins link := now
  have chunks : Chunks q (Threads.State.slot ⟨q, .joins link, reader, held⟩) place first last := h.chunks
  have ends := chunks.ends
  have writing : WriterAt N q place last held (front + held) (.joins link) := h.writer
  cases writing with
  | @joins d k filling hk linked =>
    obtain ⟨kd, hd⟩ := chunks.inSlot (x := .writer) (c := d) rfl
    have off : ∀ i, first ≤ i → i ≤ last → place i ≠ d :=
      fun i low high same => chunks.off .writer i low high (congrArg Pointer.to same.symm)
    have apart : place last ≠ d := off last chunks.order (Nat.le_refl _)
    have back := chunks.write_prev hd (fun i low high => off i (Nat.le_of_lt low) high)
      (.to (place last))
    have stop : last * N + q.endPos = front + held + 1 := filling.at_stop
    have full : q.endPos = N := filling.full
    have next : (last + 1) * N = last * N + N := Nat.succ_mul last N
    have positive : 0 < N := by
      by_contra none
      obtain rfl : N = 0 := by omega
      simp only [Nat.mul_zero] at stop
      omega
    have places : ∀ i, i ≤ last → Function.update place (last + 1) d i = place i :=
      fun i hi => Function.update_of_ne (by omega) _ _
    refine ⟨{ threads := ⟨{ q with
      heap := Function.update q.heap d (some { kd with prev := .to (place last) })
      endChunk := .to d
      endPos := 0 }, .rests, reader, held + 1⟩, front, cell, value },
      Function.update place (last + 1) d, ?_, h.moved ?_ ?_ (h.reader.frame rfl) ?_ places ?_⟩
    · simp [perform, advanceWriter, Threads.advanceWriter, ZmqQueue.modify, ZmqQueue.chunk, ends, hk,
        hd, apart, linked]
    · have grown := back.grow (x := .writer) rfl
        ⟨k, (Function.update_of_ne apart _ _).trans hk, linked⟩ ⟨_, Function.update_self .., rfl⟩
      exact Chunks.of_slots { grown with } fun x => by cases x <;> rfl
    · refine .rests ⟨positive, by dsimp only; omega⟩ fun _ => ?_
      have newest : (front + held) / N ≤ last := div_le_last (Nat.le_of_eq full) (by omega)
      exact filling.back.trans (cellAt_congr (places _ newest)).symm
    · dsimp only
      omega
    · refine .update rfl fun i low high same => absurd same (off i low high)

/-- The back goes one cell back, into the chunk before where that is its first cell. -/
theorem Inv.unpush (h : Inv N s place first last) (rests : s.threads.writer = .rests)
    (some : 0 < s.threads.held) :
    ∃ s', perform N s .unpush = .some s' ∧ Inv N s' place first last := by
  obtain ⟨⟨q, writer, reader, held⟩, front, cell, value⟩ := s
  obtain rfl : writer = .rests := rests
  obtain ⟨held, rfl⟩ : ∃ n, held = n + 1 := ⟨held - 1, (Nat.succ_pred_eq_of_pos some).symm⟩
  have writing : WriterAt N q place last (held + 1) (front + (held + 1)) .rests := h.writer
  have chunks : Chunks q (Threads.State.slot ⟨q, .rests, reader, held + 1⟩) place first last := h.chunks
  have start : first * N ≤ front := h.reader.le_front
  cases writing with
  | rests ends back =>
    have stop : last * N + q.endPos = front + held + 1 := ends.at_stop
    have back : q.back = cellAt N place (front + held) := back some
    obtain ⟨positive, low, high⟩ := h.listed (n := front + held) (Nat.le_add_right ..) (by
      dsimp only; omega)
    -- what the back's new cell has to be decides the two cases
    have retracting : ∀ (chunk : Pointer) (pos : ℕ),
        (0 < held → (⟨chunk, pos⟩ : Cell) = cellAt N place (front + held - 1)) →
        Inv N ⟨⟨{ q with backChunk := chunk, backPos := pos }, .retracts, reader, held⟩, front, cell,
          value⟩ place first last := fun chunk pos before =>
      h.moved (Chunks.of_slots { chunks with } fun x => by cases x <;> rfl)
        (.retracts ⟨ends.inside, stop⟩ before) (h.reader.frame rfl) (Nat.le_refl _) (fun _ _ => rfl)
        (.of_heap rfl)
    obtain ⟨i, p, inside, number⟩ := split_number positive (front + held)
    rw [number, cellAt_mk inside] at back
    obtain ⟨backChunk, backPos⟩ : q.backChunk = .to (place i) ∧ q.backPos = p := by
      simpa only [ZmqQueue.back, Cell.mk.injEq] using back
    by_cases zero : p = 0
    · have inList : first ≤ i := le_of_cell_le (by omega : first * N ≤ i * N + p) inside
      have inList' : i ≤ last := le_of_cell_le (by omega : i * N ≤ last * N + q.endPos) ends.inside
      obtain ⟨k, hk⟩ := chunks.inList inList inList'
      refine ⟨_, ?_, retracting k.prev (N - 1) fun some => ?_⟩
      · simp [perform, beginUnpush, Threads.beginUnpush, backPos, zero, backChunk, ZmqQueue.chunk, hk]
      · have later : first + 1 ≤ i := by
          have beyond : (first + 1) * N ≤ i * N + (N - 1) := by
            rw [Nat.succ_mul]
            omega
          exact le_of_cell_le beyond (by omega)
        obtain ⟨j, rfl⟩ : ∃ j, i = j + 1 := ⟨i - 1, by omega⟩
        obtain ⟨k', hk', prev⟩ := chunks.backs j (by omega) inList'
        obtain rfl := Option.some.inj (hk.symm.trans hk')
        have previous : front + held - 1 = j * N + (N - 1) := by
          rw [Nat.succ_mul] at number
          omega
        rw [prev, previous, cellAt_mk (Nat.sub_lt positive Nat.one_pos)]
    · refine ⟨_, ?_, retracting q.backChunk (q.backPos - 1) fun some => ?_⟩
      · simp [perform, beginUnpush, Threads.beginUnpush, backPos, zero]
      · have previous : front + held - 1 = i * N + (p - 1) := by omega
        rw [backChunk, backPos, previous, cellAt_mk (by omega)]

/-- The end goes one cell back; a chunk that it leaves is still linked. -/
theorem Inv.retracts (h : Inv N s place first last) (now : s.threads.writer = .retracts) :
    ∃ s' last', perform N s .write = some s' ∧ Inv N s' place first last' := by
  obtain ⟨⟨q, writer, reader, held⟩, front, cell, value⟩ := s
  obtain rfl : writer = .retracts := now
  have writing : WriterAt N q place last held (front + held) .retracts := h.writer
  have chunks : Chunks q (Threads.State.slot ⟨q, .retracts, reader, held⟩) place first last := h.chunks
  have start : first * N ≤ front := h.reader.le_front
  have atEnd := chunks.ends
  cases writing with
  | retracts ends back =>
    have inside : q.endPos < N := ends.inside
    have stop : last * N + q.endPos = front + held + 1 := ends.at_stop
    by_cases zero : q.endPos = 0
    · have room : first < last := by
        by_contra none
        have := Nat.mul_le_mul_right N (Nat.le_of_not_lt none)
        omega
      obtain ⟨last, rfl⟩ : ∃ n, last = n + 1 := ⟨last - 1, by omega⟩
      have ahead : (last + 1) * N = last * N + N := Nat.succ_mul last N
      obtain ⟨k, hk, link⟩ := chunks.links last (Nat.le_of_lt_succ room) (Nat.lt_succ_self _)
      obtain ⟨k', hk', prev⟩ := chunks.backs last (Nat.le_of_lt_succ room) (Nat.lt_succ_self _)
      have shrunk := chunks.shrinkBack (Nat.le_of_lt_succ room) (x := .writer) rfl
      refine ⟨⟨⟨{ q with endPos := N - 1, endChunk := .to (place last) }, .frees, reader, held⟩, front,
        cell, value⟩, last, ?_, h.moved (Chunks.of_slots { shrunk with } fun x => ?_)
          (.frees ⟨by dsimp only; omega, by dsimp only; omega⟩ back hk link) (h.reader.frame rfl) ?_
          (fun _ _ => rfl) (.of_heap rfl)⟩
      · simp [perform, advanceWriter, Threads.advanceWriter, zero, atEnd, ZmqQueue.chunk, hk', prev]
      · have hk : q.heap (place last) = some k := hk
        cases x with
        | spare | reader => rfl
        | writer => simp [Threads.State.slot, Threads.State.writerSlot, ZmqQueue.chunk, hk, link]
      · dsimp only
        omega
    · refine ⟨⟨⟨{ q with endPos := q.endPos - 1 }, .rests, reader, held⟩, front, cell, value⟩, last, ?_,
        h.moved (Chunks.of_slots { chunks with } fun x => by cases x <;> rfl)
          (.rests ⟨by dsimp only; omega, by dsimp only; omega⟩ back) (h.reader.frame rfl) ?_
          (fun _ _ => rfl) (.of_heap rfl)⟩
      · simp [perform, advanceWriter, Threads.advanceWriter, zero]
      · dsimp only
        omega

/-- The chunk behind the end is freed. -/
theorem Inv.frees (h : Inv N s place first last) (now : s.threads.writer = .frees) :
    ∃ s', perform N s .write = some s' ∧ Inv N s' place first last := by
  obtain ⟨⟨q, writer, reader, held⟩, front, cell, value⟩ := s
  obtain rfl : writer = .frees := now
  have writing : WriterAt N q place last held (front + held) .frees := h.writer
  have chunks : Chunks q (Threads.State.slot ⟨q, .frees, reader, held⟩) place first last := h.chunks
  have atEnd := chunks.ends
  cases writing with
  | @frees d k ends back hk linked =>
    have inHand : Threads.State.slot ⟨q, .frees, reader, held⟩ .writer = .to d := by
      simp [Threads.State.slot, Threads.State.writerSlot, atEnd, ZmqQueue.chunk, hk, linked]
    obtain ⟨kd, hd⟩ := chunks.inSlot inHand
    refine ⟨⟨⟨{ q with heap := Function.update q.heap d none }, .cuts, reader, held⟩, front, cell,
      value⟩, ?_, h.moved ((chunks.free inHand).of_slots fun x => by cases x <;> rfl)
        (.cuts { ends with } back) (h.reader.frame rfl) (Nat.le_refl _) (fun _ _ => rfl)
        (.update rfl fun i low high same => ?_)⟩
    · simp [perform, advanceWriter, Threads.advanceWriter, atEnd, ZmqQueue.chunk, hk, linked,
        ZmqQueue.free, hd]
    · exact absurd (congrArg Pointer.to same.symm) (inHand ▸ chunks.off .writer i low high)

theorem Inv.cuts (h : Inv N s place first last) (now : s.threads.writer = .cuts) :
    ∃ s', perform N s .write = some s' ∧ Inv N s' place first last := by
  obtain ⟨⟨q, writer, reader, held⟩, front, cell, value⟩ := s
  obtain rfl : writer = .cuts := now
  have writing : WriterAt N q place last held (front + held) .cuts := h.writer
  have chunks : Chunks q (Threads.State.slot ⟨q, .cuts, reader, held⟩) place first last := h.chunks
  have atEnd := chunks.ends
  cases writing with
  | cuts ends back =>
    obtain ⟨k, hk⟩ := chunks.inList chunks.order (Nat.le_refl last)
    refine ⟨⟨⟨{ q with heap := Function.update q.heap (place last) (some { k with next := .null }) },
      .rests, reader, held⟩, front, cell, value⟩, ?_,
        h.moved ((chunks.write_next hk .null).of_slots fun x => by cases x <;> rfl)
          (.rests { ends with } back) (h.reader.frame rfl) (Nat.le_refl _) (fun _ _ => rfl)
          (.update rfl fun i _ _ _ => ?_)⟩
    · simp [perform, advanceWriter, Threads.advanceWriter, atEnd, ZmqQueue.modify, hk]
    · exact (congrArg (Option.map Chunk.values) hk).symm

/-- An assignment through `back()` gives the newest element its value. -/
theorem Inv.assign (h : Inv N s place first last) (rests : s.threads.writer = .rests)
    (some : 0 < s.threads.held) (v : T) :
    ∃ s', perform N s (.assign v) = .some s' ∧ Inv N s' place first last := by
  obtain ⟨⟨q, writer, reader, held⟩, front, cell, value⟩ := s
  obtain rfl : writer = .rests := rests
  obtain ⟨held, rfl⟩ : ∃ n, held = n + 1 := ⟨held - 1, (Nat.succ_pred_eq_of_pos some).symm⟩
  have writing : WriterAt N q place last (held + 1) (front + (held + 1)) .rests := h.writer
  have chunks : Chunks q (Threads.State.slot ⟨q, .rests, reader, held + 1⟩) place first last := h.chunks
  cases writing with
  | rests ends back =>
    have stop : last * N + q.endPos = front + held + 1 := ends.at_stop
    have back : q.back = cellAt N place (front + held) := back some
    obtain ⟨positive, low, high⟩ := h.listed (n := front + held) (Nat.le_add_right ..) (by
      dsimp only; omega)
    have inside := Nat.mod_lt (front + held) positive
    obtain ⟨k, hk⟩ := chunks.inList low high
    refine ⟨⟨⟨{ q with heap := Function.update q.heap (place ((front + held) / N)) (.some { k with
      values := Function.update k.values ((front + held) % N) (.some v) }) }, .rests, reader, held + 1⟩,
      front, cell, Function.update value (front + held) (.some v)⟩, ?_, ?_⟩
    · simp only [perform, Yqueue.assign, back, cellAt, store_eq inside hk, Option.map_some, State.tail]
      rfl
    · let k' : Chunk T := { k with values := Function.update k.values ((front + held) % N) (.some v) }
      have written := chunks.write hk (fun _ _ _ _ => rfl : ∀ i, first ≤ i →
        i < last → place i = place ((front + held) / N) → k'.next = k.next) fun _ _ _ _ => rfl
      refine ⟨Chunks.of_slots { written with } fun x => by cases x <;> rfl,
        .rests { ends with } fun _ => back, h.reader.frame rfl, h.cells, fun n u low' high' stored => ?_⟩
      dsimp only at stored ⊢
      obtain ⟨-, inList, inList'⟩ := h.listed low' high'
      by_cases newest : n = front + held
      · subst newest
        rw [Function.update_self] at stored
        simpa [content] using stored
      · rw [Function.update_of_ne newest] at stored
        have old := h.values n u low' high' stored
        -- another element has another chunk or another position in the same one
        by_cases here : n / N = (front + held) / N
        · have apart : n % N ≠ (front + held) % N := by
            intro same
            exact newest (by rw [← Nat.div_add_mod n N, here, same, Nat.div_add_mod])
          rw [here] at old ⊢
          simp only [content, Function.update_self, Option.bind_some, Function.update_of_ne apart]
          simpa [content, hk] using old
        · have apart : place (n / N) ≠ place ((front + held) / N) :=
            fun same => here (chunks.inj _ _ inList inList' low high same)
          simp only [content, Function.update_of_ne apart]
          exact old

theorem Inv.write (h : Inv N s place first last) (busy : s.threads.writer ≠ .rests) :
    ∃ s' place' last', perform N s .write = some s' ∧ Inv N s' place' first last' := by
  cases now : s.threads.writer with
  | rests => exact absurd now busy
  | exchanges =>
    obtain ⟨s', step, h'⟩ := h.exchanges now
    exact ⟨s', place, last, step, h'⟩
  | links sc =>
    obtain ⟨s', step, h'⟩ := h.links now
    exact ⟨s', place, last, step, h'⟩
  | joins link =>
    obtain ⟨s', place', step, h'⟩ := h.joins now
    exact ⟨s', place', last + 1, step, h'⟩
  | retracts =>
    obtain ⟨s', last', step, h'⟩ := h.retracts now
    exact ⟨s', place, last', step, h'⟩
  | frees =>
    obtain ⟨s', step, h'⟩ := h.frees now
    exact ⟨s', place, last, step, h'⟩
  | cuts =>
    obtain ⟨s', step, h'⟩ := h.cuts now
    exact ⟨s', place, last, step, h'⟩

/-! ### The reader -/

theorem Inv.pop (h : Inv N s place first last) (rests : s.threads.reader = .rests)
    (some : 0 < s.threads.held) :
    ∃ s', perform N s .pop = .some s' ∧ Inv N s' place first last := by
  obtain ⟨⟨q, writer, reader, held⟩, front, cell, value⟩ := s
  obtain rfl : reader = .rests := rests
  obtain ⟨held, rfl⟩ : ∃ n, held = n + 1 := ⟨held - 1, (Nat.succ_pred_eq_of_pos some).symm⟩
  have chunks : Chunks q (Threads.State.slot ⟨q, writer, .rests, held + 1⟩) place first last := h.chunks
  have reading : ReaderAt N q first .rests front := h.reader
  have tail : front + (held + 1) = front + 1 + held := by omega
  have taken : ∀ pos, WriterAt N { q with beginPos := pos } place last held (front + 1 + held) writer :=
    fun pos => tail ▸ h.writer.frame rfl rfl (fun k hk => ⟨k, hk, rfl⟩) (Nat.le_succ held)
  have popped : ∀ (pos : ℕ) (r : Reader), ReaderAt N { q with beginPos := pos } first r (front + 1) →
      (∀ x, Threads.State.slot ⟨{ q with beginPos := pos }, writer, r, held⟩ x =
        Threads.State.slot ⟨q, writer, .rests, held + 1⟩ x) →
      Inv N ⟨⟨{ q with beginPos := pos }, writer, r, held⟩, front + 1, cell, value⟩ place first last :=
    fun pos r reading slots => {
      chunks := Chunks.of_slots { chunks with } slots
      writer := taken pos
      reader := reading
      cells := fun n low high => h.cells n (Nat.le_of_succ_le low) high
      values := fun n v low high => h.values n v (Nat.le_of_succ_le low) high }
  obtain ⟨inside, number⟩ : q.beginPos < N ∧ first * N + q.beginPos = front := by
    cases reading with
    | rests inside => exact ⟨inside, rfl⟩
  refine ⟨_, rfl, ?_⟩
  by_cases used : q.beginPos + 1 = N
  · have begun : beginPop N ⟨q, writer, .rests, held + 1⟩ =
        ⟨{ q with beginPos := N }, writer, .crosses, held⟩ := by
      simp [beginPop, Threads.beginPop, used]
    have next : first * N + N = front + 1 := by omega
    rw [begun]
    exact popped N .crosses (next ▸ .crosses rfl) fun x => by cases x <;> rfl
  · have begun : beginPop N ⟨q, writer, .rests, held + 1⟩ =
        ⟨{ q with beginPos := q.beginPos + 1 }, writer, .rests, held⟩ := by
      simp [beginPop, Threads.beginPop, used]
    have next : first * N + (q.beginPos + 1) = front + 1 := by omega
    rw [begun]
    exact popped _ .rests (next ▸ .rests (Nat.lt_of_le_of_ne inside used)) fun x => by cases x <;> rfl

/-- The list has a second chunk, and the reader takes the first one out of it. -/
theorem Inv.crosses (h : Inv N s place first last) (now : s.threads.reader = .crosses) :
    ∃ s', perform N s .read = some s' ∧ Inv N s' place (first + 1) last := by
  obtain ⟨⟨q, writer, reader, held⟩, front, cell, value⟩ := s
  obtain rfl : reader = .crosses := now
  have chunks : Chunks q (Threads.State.slot ⟨q, writer, .crosses, held⟩) place first last := h.chunks
  have reading : ReaderAt N q first .crosses front := h.reader
  obtain ⟨p, inside, ahead⟩ := h.writer.ahead
  have ahead : front + held ≤ last * N + p := ahead
  have next : (first + 1) * N = front := by
    rw [Nat.succ_mul]
    cases reading with
    | crosses => rfl
  have room : first + 1 ≤ last := le_of_cell_le (by omega) inside
  obtain ⟨k, hk, link⟩ := chunks.links first (Nat.le_refl _) room
  have shrunk := chunks.shrinkFront (x := .reader) room rfl
  refine ⟨⟨⟨{ q with beginChunk := .to (place (first + 1)) }, writer, .detaches (.to (place first)), held⟩,
    front, cell, value⟩, ?_, h.moved (Chunks.of_slots { shrunk with } fun x => by cases x <;> rfl)
      (h.writer.frame rfl rfl (fun k hk => ⟨k, hk, rfl⟩) (Nat.le_refl _)) (next ▸ .detaches _)
      (Nat.le_refl _) (fun _ _ => rfl) (.of_heap rfl)⟩
  simp [perform, advanceReader, Threads.advanceReader, chunks.begins, ZmqQueue.chunk, hk, link]

theorem Inv.detaches (h : Inv N s place first last) {t : Pointer}
    (now : s.threads.reader = .detaches t) :
    ∃ s', perform N s .read = some s' ∧ Inv N s' place first last := by
  obtain ⟨⟨q, writer, reader, held⟩, front, cell, value⟩ := s
  obtain rfl : reader = .detaches t := now
  have chunks : Chunks q (Threads.State.slot ⟨q, writer, .detaches t, held⟩) place first last := h.chunks
  have reading : ReaderAt N q first (.detaches t) front := h.reader
  have writing : WriterAt N q place last held (front + held) writer := h.writer
  obtain ⟨k, hk⟩ := chunks.inList (Nat.le_refl first) chunks.order
  have off : ∀ i, first < i → i ≤ last → place i ≠ place first := fun i low high same => by
    have := chunks.inj i first (Nat.le_of_lt low) high (Nat.le_refl _) chunks.order same
    omega
  have links : ∀ kl, q.heap (place last) = some kl → ∃ k',
      Function.update q.heap (place first) (some { k with prev := .null }) (place last) = some k' ∧
        k'.next = kl.next := by
    intro kl hl
    by_cases here : place last = place first
    · rw [here] at hl ⊢
      obtain rfl := Option.some.inj (hk.symm.trans hl)
      exact ⟨_, Function.update_self .., rfl⟩
    · exact ⟨kl, (Function.update_of_ne here _ _).trans hl, rfl⟩
  have number : front = first * N := by
    cases reading with
    | detaches => rfl
  have written := chunks.write_prev hk off .null
  refine ⟨⟨⟨{ q with
    heap := Function.update q.heap (place first) (some { k with prev := .null })
    beginPos := 0 }, writer, .spares t, held⟩, front, cell, value⟩, ?_,
      h.moved (Chunks.of_slots { written with } fun x => ?_)
        (writing.frame rfl rfl links (Nat.le_refl _)) (number ▸ .spares t rfl) (Nat.le_refl _)
        (fun _ _ => rfl) (.update rfl fun i _ _ _ => ?_)⟩
  · simp [perform, advanceReader, Threads.advanceReader, chunks.begins, ZmqQueue.modify, hk]
  · cases x with
    | spare | reader => rfl
    | writer => exact writing.slot_frame chunks.ends chunks.ends links
  · exact (congrArg (Option.map Chunk.values) hk).symm

/-- The exchange of the spare pointer against the chunk that is used up. -/
theorem Inv.spares (h : Inv N s place first last) {t : Pointer} (now : s.threads.reader = .spares t) :
    ∃ s', perform N s .read = some s' ∧ Inv N s' place first last := by
  obtain ⟨⟨q, writer, reader, held⟩, front, cell, value⟩ := s
  obtain rfl : reader = .spares t := now
  have chunks : Chunks q (Threads.State.slot ⟨q, writer, .spares t, held⟩) place first last := h.chunks
  have reading : ReaderAt N q first (.spares t) front := h.reader
  refine ⟨_, rfl, h.moved ?_ (h.writer.frame rfl rfl (fun k hk => ⟨k, hk, rfl⟩) (Nat.le_refl _)) ?_
    (Nat.le_refl _) (fun _ _ => rfl) (.of_heap rfl)⟩
  · exact (chunks.swap (Equiv.swap .spare .reader) t).of_slots fun x => by cases x <;> rfl
  · cases reading with
    | spares _ reset => exact .drops _ reset

/-- The spare chunk that was there is freed. -/
theorem Inv.drops (h : Inv N s place first last) {sc : Pointer} (now : s.threads.reader = .drops sc) :
    ∃ s', perform N s .read = some s' ∧ Inv N s' place first last := by
  obtain ⟨⟨q, writer, reader, held⟩, front, cell, value⟩ := s
  obtain rfl : reader = .drops sc := now
  have chunks : Chunks q (Threads.State.slot ⟨q, writer, .drops sc, held⟩) place first last := h.chunks
  have reading : ReaderAt N q first (.drops sc) front := h.reader
  have writing : WriterAt N q place last held (front + held) writer := h.writer
  obtain ⟨p, inside, -⟩ := writing.ahead
  have resting : ReaderAt N q first .rests front := by
    cases reading with
    | drops _ reset =>
      have pos : first * N + q.beginPos = first * N := by omega
      exact pos ▸ .rests (by omega)
  cases sc with
  | wild => exact absurd rfl (chunks.tame .reader)
  | null =>
    refine ⟨⟨⟨q, writer, .rests, held⟩, front, cell, value⟩, rfl,
      h.moved (chunks.of_slots fun x => ?_) writing resting (Nat.le_refl _) (fun _ _ => rfl)
        (.of_heap rfl)⟩
    cases x <;> rfl
  | «to» d =>
    have inHand : Threads.State.slot ⟨q, writer, .drops (.to d), held⟩ .reader = .to d := rfl
    obtain ⟨kd, hd⟩ := chunks.inSlot inHand
    have off : ∀ i, first ≤ i → i ≤ last → place i ≠ d :=
      fun i low high same => chunks.off .reader i low high (congrArg Pointer.to same.symm)
    have links : ∀ k, q.heap (place last) = some k →
        ∃ k', Function.update q.heap d none (place last) = some k' ∧ k'.next = k.next := by
      intro k hk
      have apart := off last chunks.order (Nat.le_refl _)
      exact ⟨k, (Function.update_of_ne apart _ _).trans hk, rfl⟩
    refine ⟨⟨⟨{ q with heap := Function.update q.heap d none }, writer, .rests, held⟩, front, cell, value⟩,
      ?_, h.moved ((chunks.free inHand).of_slots fun x => ?_)
        (writing.frame rfl rfl links (Nat.le_refl _)) (resting.frame rfl) (Nat.le_refl _)
        (fun _ _ => rfl) (.update rfl fun i low high same => absurd same (off i low high))⟩
    · simp [perform, advanceReader, Threads.advanceReader, ZmqQueue.free, hd]
    · cases x with
      | spare | reader => rfl
      | writer => exact writing.slot_frame chunks.ends chunks.ends links

theorem Inv.read (h : Inv N s place first last) (busy : s.threads.reader ≠ .rests) :
    ∃ s' first', perform N s .read = some s' ∧ Inv N s' place first' last := by
  cases now : s.threads.reader with
  | rests => exact absurd now busy
  | crosses =>
    obtain ⟨s', step, h'⟩ := h.crosses now
    exact ⟨s', first + 1, step, h'⟩
  | detaches t =>
    obtain ⟨s', step, h'⟩ := h.detaches now
    exact ⟨s', first, step, h'⟩
  | spares t =>
    obtain ⟨s', step, h'⟩ := h.spares now
    exact ⟨s', first, step, h'⟩
  | drops sc =>
    obtain ⟨s', step, h'⟩ := h.drops now
    exact ⟨s', first, step, h'⟩

/-! ### Runs -/

/-- No call that the contract allows goes wrong, and the elements stay what they are. -/
theorem Inv.perform (h : Inv N s place first last) {l : Label T} (called : enabled s l = true) :
    ∃ s' place' first' last', perform N s l = some s' ∧ Inv N s' place' first' last' := by
  cases l with
  | push =>
    obtain ⟨s', step, h'⟩ := h.push (of_decide_eq_true called)
    exact ⟨s', place, first, last, step, h'⟩
  | unpush =>
    obtain ⟨rests, held⟩ := Bool.and_eq_true_iff.mp called
    obtain ⟨s', step, h'⟩ := h.unpush (of_decide_eq_true rests) (of_decide_eq_true held)
    exact ⟨s', place, first, last, step, h'⟩
  | pop =>
    obtain ⟨rests, held⟩ := Bool.and_eq_true_iff.mp called
    obtain ⟨s', step, h'⟩ := h.pop (of_decide_eq_true rests) (of_decide_eq_true held)
    exact ⟨s', place, first, last, step, h'⟩
  | assign value =>
    obtain ⟨rests, held⟩ := Bool.and_eq_true_iff.mp called
    obtain ⟨s', step, h'⟩ := h.assign (of_decide_eq_true rests) (of_decide_eq_true held) value
    exact ⟨s', place, first, last, step, h'⟩
  | write =>
    obtain ⟨s', place', last', step, h'⟩ := h.write (of_decide_eq_true called)
    exact ⟨s', place', first, last', step, h'⟩
  | read =>
    obtain ⟨s', first', step, h'⟩ := h.read (of_decide_eq_true called)
    exact ⟨s', place, first', last, step, h'⟩

theorem reach_inv (positive : 1 ≤ N) (reached : (machine T N).Reach s) :
    ∃ place first last, Inv N s place first last := by
  refine reached.invariant (P := fun s => ∃ place first last, Inv N s place first last) _
    ⟨_, _, _, start_inv positive⟩ ?_
  rintro s l s' ⟨place, first, last, h⟩ - hs
  obtain ⟨called, step⟩ := Option.ite_none_right_eq_some.mp hs
  obtain ⟨t, place', first', last', step', h'⟩ := h.perform called
  obtain rfl := Option.some.inj (step.symm.trans step')
  exact ⟨place', first', last', h'⟩

end Yqueue
