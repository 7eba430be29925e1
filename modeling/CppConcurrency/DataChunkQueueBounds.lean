import CppConcurrency.DataChunkQueueOwnership

/-!
# The positions of a `zmqQueue` stay inside the chunks

The cells are counted from the first chunk on: cell `p` of the chunk in place `i` has the
number `i * N + p`. The front plus the elements held never passes the end, and while an
element is held the back lies between the two. So neither thread ever leaves the list.
-/

namespace DataChunkQueue.Threads

open Machines ZmqQueue

universe u

variable {T : Type u} {N : ℕ} {q q' : ZmqQueue T} {place : ℕ → ℕ} {first last front held : ℕ}

theorem le_of_cell_le {a i p : ℕ} (le : a * N ≤ i * N + p) (inside : p < N) : a ≤ i := by
  by_contra after
  have far : (i + 1) * N ≤ a * N := Nat.mul_le_mul_right N (by omega)
  rw [Nat.succ_mul] at far
  omega

/-- The back, while an element is held, is a cell of the list before the cell `stop`. -/
def BackAt (N : ℕ) (q : ZmqQueue T) (place : ℕ → ℕ) (last front held stop : ℕ) : Prop :=
  0 < held → ∃ i, i ≤ last ∧ q.backChunk = .to (place i) ∧ q.backPos < N ∧
    front + held ≤ i * N + q.backPos + 1 ∧ i * N + q.backPos < stop

structure Resting (N : ℕ) (q : ZmqQueue T) (place : ℕ → ℕ) (last front held : ℕ) : Prop where
  inside : q.endPos < N
  ahead : front + held ≤ last * N + q.endPos
  back : BackAt N q place last front held (last * N + q.endPos)

/-- Inside a push the back is the new cell, and the end has not moved to the next chunk. -/
structure Pushing (N : ℕ) (q : ZmqQueue T) (place : ℕ → ℕ) (last front held : ℕ) : Prop where
  inside : q.endPos < N
  stepped : q.endPos = q.backPos + 1
  back : q.backChunk = .to (place last)
  ahead : front + held ≤ last * N + q.backPos

/-- Inside an unpush the back has gone one cell back, and the end follows. -/
structure Retracting (N : ℕ) (q : ZmqQueue T) (place : ℕ → ℕ) (last front held : ℕ) : Prop where
  inside : q.endPos < N
  ahead : front + held + 1 ≤ last * N + q.endPos
  back : BackAt N q place last front held (last * N + q.endPos - 1)

inductive WriterAt (N : ℕ) (q : ZmqQueue T) (place : ℕ → ℕ) (last front held : ℕ) : Writer → Prop where
  | rests (h : Resting N q place last front held) : WriterAt N q place last front held .rests
  | exchanges (h : Pushing N q place last front held) :
      WriterAt N q place last front held .exchanges
  | links (sc : Pointer) (h : Pushing N q place last front held) :
      WriterAt N q place last front held (.links sc)
  | joins {d : ℕ} {k : Chunk T} (h : Pushing N q place last front held)
      (hk : q.heap (place last) = some k) (linked : k.next = .to d) :
      WriterAt N q place last front held (.joins (.to d))
  | retracts (h : Retracting N q place last front held) :
      WriterAt N q place last front held .retracts
  | frees {d : ℕ} {k : Chunk T} (h : Resting N q place last front held)
      (hk : q.heap (place last) = some k) (linked : k.next = .to d) :
      WriterAt N q place last front held .frees
  | cuts (h : Resting N q place last front held) : WriterAt N q place last front held .cuts

/-- Where the reader stands, and the number of the cell at the front. -/
inductive ReaderAt (N : ℕ) (q : ZmqQueue T) (first : ℕ) : Reader → ℕ → Prop where
  | rests (inside : q.beginPos < N) : ReaderAt N q first .rests (first * N + q.beginPos)
  | crosses (used : q.beginPos = N) : ReaderAt N q first .crosses (first * N + N)
  | detaches (t : Pointer) : ReaderAt N q first (.detaches t) (first * N)
  | spares (t : Pointer) (reset : q.beginPos = 0) : ReaderAt N q first (.spares t) (first * N)
  | drops (sc : Pointer) (reset : q.beginPos = 0) : ReaderAt N q first (.drops sc) (first * N)

structure Inv (N : ℕ) (s : State T) (place : ℕ → ℕ) (first last front : ℕ) : Prop where
  chunks : Chunks s.queue s.slot place first last
  writer : WriterAt N s.queue place last front s.held s.writer
  reader : ReaderAt N s.queue first s.reader front

/-! ### What the steps of one thread leave alone -/

theorem BackAt.frame {front' held' stop : ℕ} (h : BackAt N q place last front held stop)
    (chunk : q'.backChunk = q.backChunk) (pos : q'.backPos = q.backPos)
    (sum : front' + held' = front + held) (fewer : held' ≤ held) :
    BackAt N q' place last front' held' stop := by
  intro some
  obtain ⟨i, hi, back, inside, low, high⟩ := h (Nat.lt_of_lt_of_le some fewer)
  exact ⟨i, hi, chunk.trans back, pos ▸ inside, by omega, by omega⟩

theorem WriterAt.frame {w : Writer} {front' held' : ℕ} (h : WriterAt N q place last front held w)
    (endPos : q'.endPos = q.endPos) (chunk : q'.backChunk = q.backChunk)
    (pos : q'.backPos = q.backPos)
    (links : ∀ k, q.heap (place last) = some k →
      ∃ k', q'.heap (place last) = some k' ∧ k'.next = k.next)
    (sum : front' + held' = front + held) (fewer : held' ≤ held) :
    WriterAt N q' place last front' held' w := by
  have resting : Resting N q place last front held → Resting N q' place last front' held' :=
    fun h => ⟨endPos ▸ h.inside, by rw [sum, endPos]; exact h.ahead,
      endPos ▸ h.back.frame chunk pos sum fewer⟩
  have pushing : Pushing N q place last front held → Pushing N q' place last front' held' :=
    fun h => ⟨endPos ▸ h.inside, by rw [endPos, pos]; exact h.stepped, chunk.trans h.back,
      by rw [sum, pos]; exact h.ahead⟩
  cases h with
  | rests h => exact .rests (resting h)
  | exchanges h => exact .exchanges (pushing h)
  | links sc h => exact .links sc (pushing h)
  | joins h hk linked =>
    obtain ⟨k', hk', same⟩ := links _ hk
    exact .joins (pushing h) hk' (same.trans linked)
  | retracts h =>
    exact .retracts ⟨endPos ▸ h.inside, by rw [sum, endPos]; exact h.ahead,
      endPos ▸ h.back.frame chunk pos sum fewer⟩
  | frees h hk linked =>
    obtain ⟨k', hk', same⟩ := links _ hk
    exact .frees (resting h) hk' (same.trans linked)
  | cuts h => exact .cuts (resting h)

theorem ReaderAt.frame {r : Reader} (h : ReaderAt N q first r front)
    (pos : q'.beginPos = q.beginPos) : ReaderAt N q' first r front := by
  cases h with
  | rests inside => exact pos ▸ .rests (pos.symm ▸ inside)
  | crosses used => exact .crosses (pos.trans used)
  | detaches t => exact .detaches t
  | spares t reset => exact .spares t (pos.trans reset)
  | drops sc reset => exact .drops sc (pos.trans reset)

theorem ReaderAt.le_front {r : Reader} (h : ReaderAt N q first r front) : first * N ≤ front := by
  cases h with
  | rests | crosses => exact Nat.le_add_right ..
  | detaches | spares | drops => exact Nat.le_refl _

/-- The end is ahead of the front in every phase of the writer. -/
theorem WriterAt.ahead {w : Writer} (h : WriterAt N q place last front held w) :
    ∃ p, p < N ∧ front + held ≤ last * N + p := by
  cases h with
  | rests h | cuts h | frees h => exact ⟨_, h.inside, h.ahead⟩
  | exchanges h | links _ h | joins h =>
    have := h.stepped
    have := h.inside
    exact ⟨_, by omega, h.ahead⟩
  | retracts h =>
    have := h.ahead
    exact ⟨_, h.inside, by omega⟩

/-! ### The writer -/

variable {s s' : State T}

theorem start_inv (positive : 1 ≤ N) :
    Inv N (machine T N).start (fun _ => 0) 0 0 (0 * N + 0) where
  chunks := {
    order := Nat.le_refl 0
    begins := rfl
    ends := rfl
    inj := fun i j _ hi _ hj _ => by omega
    links := fun i _ hi => by omega
    backs := fun i _ hi => by omega
    owned := fun c => by
      have slots : ∀ x, (machine T N).start.slot x ≠ .to c := by
        intro x
        cases x <;> exact fun wrong => by cases wrong
      by_cases here : c = 0
      · subst here
        exact iff_of_true rfl (Or.inl ⟨0, Nat.le_refl 0, Nat.le_refl 0, rfl⟩)
      · apply iff_of_false
        · change ¬ (Function.update (fun _ => none) 0 (some (Chunk.raw (T := T))) c).isSome = true
          rw [Function.update_of_ne here]
          exact Bool.false_ne_true
        · rintro (⟨_, -, -, rfl⟩ | ⟨x, hx⟩)
          · exact here rfl
          · exact slots x hx
    apart := fun x y c hx => by cases x <;> cases hx
    off := fun x i _ _ => by cases x <;> exact fun wrong => by cases wrong
    tame := fun x => by cases x <;> exact fun wrong => by cases wrong
    fresh := fun c hc => by
      change (Function.update (fun _ => none) 0 (some (Chunk.raw (T := T))) c).isSome = true at hc
      by_contra above
      have : ¬ c < 1 := above
      rw [Function.update_of_ne (by omega)] at hc
      cases hc }
  writer := .rests ⟨positive, by simp [machine], fun some => absurd some (Nat.lt_irrefl 0)⟩
  reader := .rests positive

/-- A push that does not return early designates the cell at the end. -/
theorem Inv.beginPush (h : Inv N s place first last front) (rests : s.writer = .rests)
    (opens : s.queue.endPos + 1 ≠ N) : Inv N (beginPush N s) place first last front := by
  obtain ⟨q, writer, reader, held⟩ := s
  obtain rfl : writer = .rests := rests
  cases h.writer with
  | rests resting =>
    have room : q.endPos + 1 < N := Nat.lt_of_le_of_ne resting.inside opens
    have begun : Threads.beginPush N ⟨q, .rests, reader, held⟩ = {
        queue := { q with backChunk := q.endChunk, backPos := q.endPos, endPos := q.endPos + 1 }
        writer := .exchanges
        reader := reader
        held := held } := if_neg opens
    rw [begun]
    exact {
      chunks := Chunks.of_slots { h.chunks with } fun x => by cases x <;> rfl
      writer := .exchanges ⟨room, rfl, h.chunks.ends, resting.ahead⟩
      reader := h.reader.frame rfl }

/-- The back goes one cell back, into the chunk before where that is its first cell. -/
theorem Inv.beginUnpush (h : Inv N s place first last front) (rests : s.writer = .rests)
    (some : 0 < s.held) :
    ∃ s', beginUnpush N s = .some s' ∧ Inv N s' place first last front := by
  obtain ⟨q, writer, reader, held⟩ := s
  obtain rfl : writer = .rests := rests
  obtain ⟨chunks, writer, reading⟩ := h
  dsimp only at *
  cases writer with
  | rests resting =>
    obtain ⟨i, hi, back, inside, low, high⟩ := resting.back some
    have ahead := resting.ahead
    -- what is left of the back's cell number decides where the back goes
    have retracting : ∀ (chunk : Pointer) (pos : ℕ), (0 < held - 1 → ∃ i, i ≤ last ∧
        chunk = .to (place i) ∧ pos < N ∧ front + (held - 1) ≤ i * N + pos + 1 ∧
        i * N + pos < last * N + q.endPos - 1) →
        Inv N ⟨{ q with backChunk := chunk, backPos := pos }, .retracts, reader, held - 1⟩ place first
          last front :=
      fun chunk pos back => {
        chunks := Chunks.of_slots { chunks with } fun x => by cases x <;> rfl
        writer := .retracts ⟨resting.inside, by dsimp only; omega, back⟩
        reader := reading.frame rfl }
    by_cases zero : q.backPos = 0
    · have start := reading.le_front
      have low' : first ≤ i := le_of_cell_le (by omega : first * N ≤ i * N + q.backPos) inside
      obtain ⟨k, hk⟩ := chunks.inList low' hi
      refine ⟨_, ?_, retracting k.prev (N - 1) fun some => ?_⟩
      · simp [Threads.beginUnpush, zero, back, ZmqQueue.chunk, hk]
      · have later : (first + 1) * N ≤ i * N + (N - 1) := by
          rw [Nat.succ_mul]
          omega
        have after : first + 1 ≤ i := le_of_cell_le later (by omega)
        obtain ⟨j, rfl⟩ : ∃ j, i = j + 1 := ⟨i - 1, by omega⟩
        obtain ⟨k', hk', prev⟩ := chunks.backs j (by omega) hi
        obtain rfl := Option.some.inj (hk.symm.trans hk')
        rw [Nat.succ_mul] at low high
        exact ⟨j, by omega, prev, by omega, by omega, by omega⟩
    · refine ⟨_, if_pos zero, retracting q.backChunk (q.backPos - 1) fun some => ?_⟩
      exact ⟨i, hi, back, by omega, by omega, by omega⟩

/-- The exchange of the spare pointer against null. -/
theorem Inv.exchanges (h : Inv N s place first last front) (now : s.writer = .exchanges) :
    ∃ s', advanceWriter N s = some s' ∧ Inv N s' place first last front := by
  obtain ⟨q, writer, reader, held⟩ := s
  obtain rfl : writer = .exchanges := now
  obtain ⟨chunks, writer, reading⟩ := h
  dsimp only at *
  cases writer with
  | exchanges pushing =>
    refine ⟨_, rfl, ?_, ?_, ?_⟩
    · exact (chunks.swap (Equiv.swap .spare .writer) .null).of_slots
        fun x => by cases x <;> rfl
    · exact .links _ { pushing with }
    · exact reading.frame rfl

/-- The end is linked to the chunk in hand, or to a new one. -/
theorem Inv.links (h : Inv N s place first last front) {sc : Pointer} (now : s.writer = .links sc) :
    ∃ s', advanceWriter N s = some s' ∧ Inv N s' place first last front := by
  obtain ⟨q, writer, reader, held⟩ := s
  obtain rfl : writer = .links sc := now
  obtain ⟨chunks, writer, reading⟩ := h
  dsimp only at *
  have ends := chunks.ends
  cases writer with
  | links _ pushing =>
    cases sc with
    | wild => exact absurd rfl (chunks.tame .writer)
    | null =>
      have grown := chunks.malloc (x := .writer) rfl .raw
      obtain ⟨k, hk⟩ := grown.inList grown.order (Nat.le_refl last)
      refine ⟨⟨{ q with
        heap := Function.update (Function.update q.heap q.fresh (some .raw)) (place last)
          (some { k with next := .to q.fresh })
        fresh := q.fresh + 1 }, .joins (.to q.fresh), reader, held⟩, ?_, ?_, ?_, ?_⟩
      · simp [advanceWriter, malloc, ZmqQueue.modify, ends, hk]
      · exact (grown.write_next hk _).of_slots fun x => by cases x <;> rfl
      · exact .joins { pushing with } (Function.update_self ..) rfl
      · exact reading.frame rfl
    | «to» d =>
      obtain ⟨k, hk⟩ := chunks.inList chunks.order (Nat.le_refl last)
      refine ⟨⟨{ q with
        heap := Function.update q.heap (place last) (some { k with next := .to d }) },
          .joins (.to d), reader, held⟩, ?_, ?_, ?_, ?_⟩
      · simp [advanceWriter, ZmqQueue.modify, ends, hk]
      · exact (chunks.write_next hk (.to d)).of_slots fun x => by cases x <;> rfl
      · exact .joins { pushing with } (Function.update_self ..) rfl
      · exact reading.frame rfl

/-- The new last chunk is linked back, and the end moves to it. -/
theorem Inv.joins (h : Inv N s place first last front) {link : Pointer} (now : s.writer = .joins link) :
    ∃ s' place', advanceWriter N s = some s' ∧ Inv N s' place' first (last + 1) front := by
  obtain ⟨q, writer, reader, held⟩ := s
  obtain rfl : writer = .joins link := now
  obtain ⟨chunks, writer, reading⟩ := h
  dsimp only at *
  have ends := chunks.ends
  cases writer with
  | @joins d k pushing hk linked =>
    obtain ⟨kd, hd⟩ := chunks.inSlot (x := .writer) (c := d) rfl
    have off : ∀ i, first ≤ i → i ≤ last → place i ≠ d :=
      fun i low high same => chunks.off .writer i low high (congrArg Pointer.to same.symm)
    have apart : place last ≠ d := off last chunks.order (Nat.le_refl _)
    have back := chunks.write_prev hd (fun i low high => off i (Nat.le_of_lt low) high)
      (.to (place last))
    refine ⟨⟨{ q with
      heap := Function.update q.heap d (some { kd with prev := .to (place last) })
      endChunk := .to d
      endPos := 0 }, .rests, reader, held + 1⟩, Function.update place (last + 1) d, ?_, ?_, ?_, ?_⟩
    · simp [advanceWriter, ZmqQueue.modify, ZmqQueue.chunk, ends, hk, hd, apart, linked]
    · have grown := back.grow (x := .writer) rfl
        ⟨k, (Function.update_of_ne apart _ _).trans hk, linked⟩ ⟨_, Function.update_self .., rfl⟩
      exact Chunks.of_slots { grown with } fun x => by cases x <;> rfl
    · have room := pushing.inside
      have stepped := pushing.stepped
      have ahead := pushing.ahead
      have next : (last + 1) * N = last * N + N := Nat.succ_mul last N
      refine .rests ⟨by dsimp only; omega, by dsimp only; omega, fun _ => ⟨last, Nat.le_succ _, ?_⟩⟩
      rw [Function.update_of_ne (Nat.ne_of_lt (Nat.lt_succ_self last))]
      exact ⟨pushing.back, by dsimp only; omega, by dsimp only; omega, by dsimp only; omega⟩
    · exact reading.frame rfl

/-- The end goes one cell back; a chunk that it leaves is still linked. -/
theorem Inv.retracts (h : Inv N s place first last front) (now : s.writer = .retracts) :
    ∃ s' last', advanceWriter N s = some s' ∧ Inv N s' place first last' front := by
  obtain ⟨q, writer, reader, held⟩ := s
  obtain rfl : writer = .retracts := now
  obtain ⟨chunks, writer, reading⟩ := h
  dsimp only at *
  have start := reading.le_front
  cases writer with
  | retracts retracting =>
    have inside := retracting.inside
    have ahead := retracting.ahead
    by_cases zero : q.endPos = 0
    · have before : (first + 1) * N ≤ last * N + (N - 1) := by
        rw [Nat.succ_mul]
        omega
      have room : first + 1 ≤ last := le_of_cell_le before (by omega)
      obtain ⟨m, rfl⟩ : ∃ m, last = m + 1 := ⟨last - 1, by omega⟩
      have start : first ≤ m := Nat.le_of_succ_le_succ room
      obtain ⟨k, hk, prev⟩ := chunks.backs m start (Nat.lt_succ_self m)
      obtain ⟨kl, hl, next⟩ := chunks.links m start (Nat.lt_succ_self m)
      have cell : (m + 1) * N = m * N + N := Nat.succ_mul m N
      have shrunk := chunks.shrinkBack (x := .writer) start rfl
      refine ⟨⟨{ q with endPos := N - 1, endChunk := .to (place m) }, .frees, reader, held⟩, m, ?_,
        ?_, ?_, ?_⟩
      · simp [advanceWriter, zero, chunks.ends, ZmqQueue.chunk, hk, prev]
      · refine Chunks.of_slots { shrunk with } fun x => ?_
        cases x with
        | spare | reader => rfl
        | writer => simp [State.slot, State.writerSlot, ZmqQueue.chunk, hl, next]
      · refine .frees ⟨by dsimp only; omega, by dsimp only; omega, fun some => ?_⟩ hl next
        obtain ⟨i, hi, back, within, low, high⟩ := retracting.back some
        have inner : i * N + q.backPos < m * N + (N - 1) := by omega
        have inList : i ≤ m := by
          by_contra wrong
          have : (m + 1) * N ≤ i * N := Nat.mul_le_mul_right N (by omega)
          omega
        exact ⟨i, inList, back, within, low, inner⟩
      · exact reading.frame rfl
    · refine ⟨⟨{ q with endPos := q.endPos - 1 }, .rests, reader, held⟩, last, if_pos zero,
        Chunks.of_slots { chunks with } fun x => by cases x <;> rfl, ?_, reading.frame rfl⟩
      refine .rests ⟨by dsimp only; omega, by dsimp only; omega, fun some => ?_⟩
      obtain ⟨i, hi, back, within, low, high⟩ := retracting.back some
      exact ⟨i, hi, back, within, low, by dsimp only; omega⟩

/-- The chunk behind the end is freed. -/
theorem Inv.frees (h : Inv N s place first last front) (now : s.writer = .frees) :
    ∃ s', advanceWriter N s = some s' ∧ Inv N s' place first last front := by
  obtain ⟨q, writer, reader, held⟩ := s
  obtain rfl : writer = .frees := now
  obtain ⟨chunks, writer, reading⟩ := h
  dsimp only at *
  cases writer with
  | @frees d k resting hk linked =>
    have inHand : State.slot ⟨q, .frees, reader, held⟩ .writer = .to d := by
      simp [State.slot, State.writerSlot, chunks.ends, ZmqQueue.chunk, hk, linked]
    obtain ⟨kd, hd⟩ := chunks.inSlot inHand
    refine ⟨⟨{ q with heap := Function.update q.heap d none }, .cuts, reader, held⟩, ?_, ?_, ?_, ?_⟩
    · simp [advanceWriter, chunks.ends, ZmqQueue.chunk, hk, linked, ZmqQueue.free, hd]
    · exact (chunks.free inHand).of_slots fun x => by cases x <;> rfl
    · exact .cuts { resting with }
    · exact reading.frame rfl

theorem Inv.cuts (h : Inv N s place first last front) (now : s.writer = .cuts) :
    ∃ s', advanceWriter N s = some s' ∧ Inv N s' place first last front := by
  obtain ⟨q, writer, reader, held⟩ := s
  obtain rfl : writer = .cuts := now
  obtain ⟨chunks, writer, reading⟩ := h
  dsimp only at *
  cases writer with
  | cuts resting =>
    obtain ⟨k, hk⟩ := chunks.inList chunks.order (Nat.le_refl last)
    refine ⟨⟨{ q with
      heap := Function.update q.heap (place last) (some { k with next := .null }) }, .rests, reader,
      held⟩, ?_, ?_, ?_, ?_⟩
    · simp [advanceWriter, chunks.ends, ZmqQueue.modify, hk]
    · exact (chunks.write_next hk .null).of_slots fun x => by cases x <;> rfl
    · exact .rests { resting with }
    · exact reading.frame rfl

theorem Inv.advanceWriter (h : Inv N s place first last front) (busy : s.writer ≠ .rests) :
    ∃ s' place' last', advanceWriter N s = some s' ∧ Inv N s' place' first last' front := by
  cases now : s.writer with
  | rests => exact absurd now busy
  | exchanges =>
    obtain ⟨s', step, h'⟩ := h.exchanges now
    exact ⟨s', place, last, step, h'⟩
  | links sc =>
    obtain ⟨s', step, h'⟩ := h.links now
    exact ⟨s', place, last, step, h'⟩
  | joins link =>
    obtain ⟨s', place', step, h'⟩ := h.joins now
    exact ⟨s', place', last + 1, step, h'⟩
  | retracts =>
    obtain ⟨s', last', step, h'⟩ := h.retracts now
    exact ⟨s', place, last', step, h'⟩
  | frees =>
    obtain ⟨s', step, h'⟩ := h.frees now
    exact ⟨s', place, last, step, h'⟩
  | cuts =>
    obtain ⟨s', step, h'⟩ := h.cuts now
    exact ⟨s', place, last, step, h'⟩

/-! ### The reader -/

theorem Inv.beginPop (h : Inv N s place first last front) (rests : s.reader = .rests)
    (some : 0 < s.held) : Inv N (beginPop N s) place first last (front + 1) := by
  obtain ⟨q, writer, reader, held⟩ := s
  obtain rfl : reader = .rests := rests
  obtain ⟨chunks, writing, reading⟩ := h
  dsimp only at *
  have taken : ∀ pos, WriterAt N { q with beginPos := pos } place last (front + 1) (held - 1) writer :=
    fun pos => writing.frame rfl rfl rfl (fun k hk => ⟨k, hk, rfl⟩) (by omega) (Nat.sub_le ..)
  cases reading with
  | rests inside =>
    by_cases used : q.beginPos + 1 = N
    · have begun : Threads.beginPop N ⟨q, writer, .rests, held⟩ =
          ⟨{ q with beginPos := N }, writer, .crosses, held - 1⟩ := by
        simp [Threads.beginPop, used]
      have front : first * N + q.beginPos + 1 = first * N + N := by omega
      rw [begun]
      refine ⟨Chunks.of_slots { chunks with } fun x => by cases x <;> rfl, taken N, ?_⟩
      exact front ▸ .crosses rfl
    · have begun : Threads.beginPop N ⟨q, writer, .rests, held⟩ =
          ⟨{ q with beginPos := q.beginPos + 1 }, writer, .rests, held - 1⟩ := by
        simp [Threads.beginPop, used]
      rw [begun]
      refine ⟨Chunks.of_slots { chunks with } fun x => by cases x <;> rfl, taken _, ?_⟩
      exact .rests (Nat.lt_of_le_of_ne inside used)

/-- The list has a second chunk, and the reader takes the first one out of it. -/
theorem Inv.crosses (h : Inv N s place first last front) (now : s.reader = .crosses) :
    ∃ s', advanceReader s = some s' ∧ Inv N s' place (first + 1) last front := by
  obtain ⟨q, writer, reader, held⟩ := s
  obtain rfl : reader = .crosses := now
  obtain ⟨chunks, writing, reading⟩ := h
  dsimp only at *
  cases reading with
  | crosses used =>
    obtain ⟨p, inside, ahead⟩ := writing.ahead
    have start : first * N + N = (first + 1) * N := (Nat.succ_mul first N).symm
    have room : first + 1 ≤ last := le_of_cell_le (by omega) inside
    obtain ⟨k, hk, next⟩ := chunks.links first (Nat.le_refl _) room
    have shrunk := chunks.shrinkFront (x := .reader) room rfl
    refine ⟨⟨{ q with beginChunk := .to (place (first + 1)) }, writer, .detaches (.to (place first)),
      held⟩, ?_, ?_, ?_, ?_⟩
    · simp [advanceReader, chunks.begins, ZmqQueue.chunk, hk, next]
    · exact Chunks.of_slots { shrunk with } fun x => by cases x <;> rfl
    · exact writing.frame rfl rfl rfl (fun k hk => ⟨k, hk, rfl⟩) rfl (Nat.le_refl _)
    · exact start ▸ .detaches _

theorem writerSlot_frame {w : Writer} {r r' : Reader} (h : WriterAt N q place last front held w)
    (ends : q.endChunk = .to (place last)) (ends' : q'.endChunk = .to (place last))
    (links : ∀ k, q.heap (place last) = some k →
      ∃ k', q'.heap (place last) = some k' ∧ k'.next = k.next) :
    State.writerSlot ⟨q', w, r', held⟩ = State.writerSlot ⟨q, w, r, held⟩ := by
  cases h with
  | frees _ hk linked =>
    obtain ⟨k', hk', same⟩ := links _ hk
    simp [State.writerSlot, ends, ends', ZmqQueue.chunk, hk, hk', same]
  | rests | exchanges | links | joins | retracts | cuts => rfl

theorem Inv.detaches (h : Inv N s place first last front) {t : Pointer}
    (now : s.reader = .detaches t) :
    ∃ s', advanceReader s = some s' ∧ Inv N s' place first last front := by
  obtain ⟨q, writer, reader, held⟩ := s
  obtain rfl : reader = .detaches t := now
  obtain ⟨chunks, writing, reading⟩ := h
  dsimp only at *
  cases reading with
  | detaches =>
    obtain ⟨k, hk⟩ := chunks.inList (Nat.le_refl first) chunks.order
    have off : ∀ i, first < i → i ≤ last → place i ≠ place first := fun i low high same => by
      have := chunks.inj i first (Nat.le_of_lt low) high (Nat.le_refl _) chunks.order same
      omega
    have links : ∀ kl, q.heap (place last) = some kl → ∃ k',
        Function.update q.heap (place first) (some { k with prev := .null }) (place last) = some k' ∧
          k'.next = kl.next := by
      intro kl hl
      by_cases here : place last = place first
      · rw [here] at hl ⊢
        obtain rfl := Option.some.inj (hk.symm.trans hl)
        exact ⟨_, Function.update_self .., rfl⟩
      · exact ⟨kl, (Function.update_of_ne here _ _).trans hl, rfl⟩
    refine ⟨⟨{ q with
      heap := Function.update q.heap (place first) (some { k with prev := .null })
      beginPos := 0 }, writer, .spares t, held⟩, ?_, ?_, ?_, ?_⟩
    · simp [advanceReader, chunks.begins, ZmqQueue.modify, hk]
    · have written := chunks.write_prev hk off .null
      refine Chunks.of_slots { written with } fun x => ?_
      cases x with
      | spare | reader => rfl
      | writer => exact writerSlot_frame writing chunks.ends chunks.ends links
    · exact writing.frame rfl rfl rfl links rfl (Nat.le_refl _)
    · exact .spares t rfl

/-- The exchange of the spare pointer against the chunk that is used up. -/
theorem Inv.spares (h : Inv N s place first last front) {t : Pointer} (now : s.reader = .spares t) :
    ∃ s', advanceReader s = some s' ∧ Inv N s' place first last front := by
  obtain ⟨q, writer, reader, held⟩ := s
  obtain rfl : reader = .spares t := now
  obtain ⟨chunks, writing, reading⟩ := h
  dsimp only at *
  cases reading with
  | spares _ reset =>
    refine ⟨⟨{ q with spareChunk := t }, writer, .drops q.spareChunk, held⟩, rfl, ?_, ?_, ?_⟩
    · exact (chunks.swap (Equiv.swap .spare .reader) t).of_slots fun x => by cases x <;> rfl
    · exact writing.frame rfl rfl rfl (fun k hk => ⟨k, hk, rfl⟩) rfl (Nat.le_refl _)
    · exact .drops _ reset

/-- The spare chunk that was there is freed. -/
theorem Inv.drops (h : Inv N s place first last front) {sc : Pointer} (now : s.reader = .drops sc) :
    ∃ s', advanceReader s = some s' ∧ Inv N s' place first last front := by
  obtain ⟨q, writer, reader, held⟩ := s
  obtain rfl : reader = .drops sc := now
  obtain ⟨chunks, writing, reading⟩ := h
  dsimp only at *
  cases reading with
  | drops _ reset =>
    have resting : ReaderAt N q first .rests (first * N) := by
      have positive : q.beginPos < N := by
        obtain ⟨p, inside, -⟩ := writing.ahead
        omega
      have pos : first * N + q.beginPos = first * N := by omega
      exact pos ▸ .rests positive
    cases sc with
    | wild => exact absurd rfl (chunks.tame .reader)
    | null =>
      refine ⟨⟨q, writer, .rests, held⟩, rfl, ?_, writing, resting⟩
      exact chunks.of_slots fun x => by cases x <;> rfl
    | «to» d =>
      have inHand : State.slot ⟨q, writer, .drops (.to d), held⟩ .reader = .to d := rfl
      obtain ⟨kd, hd⟩ := chunks.inSlot inHand
      have links : ∀ k, q.heap (place last) = some k →
          ∃ k', Function.update q.heap d none (place last) = some k' ∧ k'.next = k.next := by
        intro k hk
        refine ⟨k, (Function.update_of_ne ?_ _ _).trans hk, rfl⟩
        intro same
        exact chunks.off .reader last chunks.order (Nat.le_refl _) (congrArg Pointer.to same.symm)
      refine ⟨⟨{ q with heap := Function.update q.heap d none }, writer, .rests, held⟩, ?_, ?_, ?_, ?_⟩
      · simp [advanceReader, ZmqQueue.free, hd]
      · refine (chunks.free inHand).of_slots fun x => ?_
        cases x with
        | spare | reader => rfl
        | writer => exact writerSlot_frame writing chunks.ends chunks.ends links
      · exact writing.frame rfl rfl rfl links rfl (Nat.le_refl _)
      · exact resting.frame rfl

theorem Inv.advanceReader (h : Inv N s place first last front) (busy : s.reader ≠ .rests) :
    ∃ s' first', advanceReader s = some s' ∧ Inv N s' place first' last front := by
  cases now : s.reader with
  | rests => exact absurd now busy
  | crosses =>
    obtain ⟨s', step, h'⟩ := h.crosses now
    exact ⟨s', first + 1, step, h'⟩
  | detaches t =>
    obtain ⟨s', step, h'⟩ := h.detaches now
    exact ⟨s', first, step, h'⟩
  | spares t =>
    obtain ⟨s', step, h'⟩ := h.spares now
    exact ⟨s', first, step, h'⟩
  | drops sc =>
    obtain ⟨s', step, h'⟩ := h.drops now
    exact ⟨s', first, step, h'⟩

end DataChunkQueue.Threads
