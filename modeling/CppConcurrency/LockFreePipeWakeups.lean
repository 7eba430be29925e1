import CppConcurrency.DataChunkQueueGaps
import CppConcurrency.LockFreePipeMarks

/-!
# Sleeping readers of a `LockFreePipe`

A reader sleeps when `read` returns false and is woken when `flush` returns false. What
makes a flush return false is a null `c`, and null stays there until a flush stores
over it. `check_read` decides on the value it loaded, and announces its decision by a
compare-exchange that it does not check: a flush can come between the two, or the
exchange can fail spuriously, and then no flush knows of the sleeper.
-/

namespace LockFreePipe

open Machines CellQueues

universe u v w

variable {Q : Type v} {Cell : Type w} {T : Type u} {ops : CellQueue Q Cell T} {exact : Prop}
  {holds : Q → List Cell → Prop} [DecidableEq Cell]

section

variable {cells : List Cell} {s s' : State Q Cell T}

/-- A null `c` stays until a flush that returns false stores over it. -/
theorem Inv.null_stays (h : Inv ops exact holds cells s) (null : s.c = none) {l : Label T}
    (hs : LockFreePipe.next ops s l = some s') :
    s'.c = none ∧ s'.visible = s.visible ∨
      s'.writer = .flushReturn false ∧ s'.rang = true ∧ s.visible < s'.visible := by
  cases next_step ops hs with
  | write rest value incomplete => exact Or.inl ⟨by rw [write_c, null], write_visible ..⟩
  | unwrite rest => exact Or.inl ⟨by rw [unwrite_c, null], unwrite_visible ..⟩
  | flush rest | checkRead rest | read rest => exact Or.inl ⟨null, rfl⟩
  | writerStep moved =>
    rcases advanceWriter_cases moved with ⟨hw, -, same⟩ | ⟨-, rfl⟩ | ⟨hw, rfl⟩
    · -- `w` is not null, so the compare-exchange fails
      obtain ⟨x, hx, -⟩ := h.mark_isSome h.visible_le_length
      have notStoring : s.writer ≠ .flushStore := by rw [hw]; exact fun wrong => by cases wrong
      rw [null, h.w notStoring, hx] at same
      cases same
    · exact Or.inl ⟨null, rfl⟩
    · exact Or.inr ⟨rfl, rfl, h.flushing (by rw [hw]; rfl)⟩
  | readerStep moved =>
    cases hr : s.reader with
    | load reading =>
      simp only [LockFreePipe.advanceReader, hr] at moved
      obtain rfl := Option.some.inj moved
      exact Or.inl ⟨null, rfl⟩
    | exchange reading =>
      simp only [LockFreePipe.advanceReader, hr] at moved
      obtain rfl := Option.some.inj moved
      refine Or.inl ⟨?_, rfl⟩
      dsimp only
      split
      · rfl
      · exact null
    | take =>
      simp only [LockFreePipe.advanceReader, hr] at moved
      split at moved
      · obtain rfl := Option.some.inj moved
        exact Or.inl ⟨null, rfl⟩
      · obtain rfl := Option.some.inj moved
        exact Or.inl ⟨null, rfl⟩
    | _ =>
      simp only [LockFreePipe.advanceReader, hr] at moved
      cases moved

omit [DecidableEq Cell] in
theorem Inv.caught_up (h : Inv ops exact holds cells s) (null : s.c = none) :
    s.visible = s.taken := by
  rcases h.c with hc | ⟨-, caught⟩
  · obtain ⟨x, hx, -⟩ := h.mark_isSome h.visible_le_length
    rw [null, hx] at hc
    cases hc
  · exact caught

/-- While the reader is inside a call, a step is the reader's or leaves it alone. -/
theorem next_while_reading (busy : s.reader.atRest = false) {l : Label T}
    (hs : LockFreePipe.next ops s l = some s') :
    (∃ spurious, l = .readerStep spurious ∧ advanceReader ops s spurious = some s') ∨
      s'.reader = s.reader ∧ s'.r = s.r ∧ s'.taken = s.taken ∧
        (s'.rang = s.rang ∨ s.writer = .flushStore ∧ s'.writer = .flushReturn false ∧
          s'.rang = true ∧ s'.visible = s.completed) := by
  cases next_step ops hs with
  | write rest value incomplete =>
    exact Or.inr ⟨write_reader .., write_r .., write_taken .., Or.inl (write_rang ..)⟩
  | unwrite rest =>
    exact Or.inr ⟨unwrite_reader .., unwrite_r .., unwrite_taken .., Or.inl (unwrite_rang ..)⟩
  | flush rest => exact Or.inr ⟨rfl, rfl, rfl, Or.inl rfl⟩
  | writerStep moved =>
    rcases advanceWriter_cases moved with ⟨-, rfl, -⟩ | ⟨-, rfl⟩ | ⟨storing, rfl⟩
    · exact Or.inr ⟨rfl, rfl, rfl, Or.inl rfl⟩
    · exact Or.inr ⟨rfl, rfl, rfl, Or.inl rfl⟩
    · exact Or.inr ⟨rfl, rfl, rfl, Or.inr ⟨storing, rfl, rfl, rfl⟩⟩
  | checkRead rest | read rest =>
    rw [busy] at rest
    cases rest
  | readerStep moved => exact Or.inl ⟨_, rfl, moved⟩

end

/-! ### What a reader that got false may rely on -/

/-- At `j` no flushed item is unread, and the next flush that makes an item visible
returns false. -/
def Asleep (run : (machine ops).Run) (j : ℕ) : Prop :=
  (run.state j).visible = (run.state j).taken ∧
    ∀ m, j ≤ m → m < run.length →
      (∀ k, j ≤ k → k ≤ m → (run.state k).visible = (run.state j).visible) →
      (run.state m).visible < (run.state (m + 1)).visible →
      (run.state (m + 1)).writer = .flushReturn false

/-- A flush returned false at or after step `l`, and it made an item visible that is
unread at `j`. -/
def Rung (run : (machine ops).Run) (l j : ℕ) : Prop :=
  ∃ m p, l ≤ m ∧ m < run.length ∧ (run.state m).writer.flushing = true ∧
    (run.state (m + 1)).writer = .flushReturn false ∧ (run.state m).visible ≤ p ∧
    p < (run.state (m + 1)).visible ∧ (run.state j).taken ≤ p

/-- What a call of `read` from `i` to `j` that returned false may rely on; `l` is its load
of `c`. -/
def Told (run : (machine ops).Run) (i j : ℕ) : Prop :=
  ∃ l, i < l ∧ l < j ∧ (run.state l).reader = .load true ∧
    (run.state (l + 1)).reader = .exchange true ∧ (Asleep run j ∨ Rung run l j)

/-- The compare-exchange of a read that loaded the front succeeds, unless a flush has
returned false since the load. -/
def Announced (ops : CellQueue Q Cell T) (s : State Q Cell T) (l : Label T) : Prop :=
  ∀ spurious, l = .readerStep spurious → s.reader = .exchange true →
    s.r = some (ops.front s.queue) → s.c = s.r ∧ spurious = false ∨ s.rang = true

/-- A read between its two accesses to `c`, the first of them at `l`. -/
structure Waiting (run : (machine ops).Run) (l m : ℕ) : Prop where
  later : l < m
  reader : (run.state m).reader = .exchange true
  rang : (run.state m).rang = true → Rung run l m
  null : (run.state m).r = none → (run.state m).c = none ∨ (run.state m).rang = true

variable {run : (machine ops).Run} {l m : ℕ}

theorem asleep_of_null (contract : Contract ops exact holds)
    (kind : run.Meets fun _ l => l = .unwrite → exact) {j : ℕ} (hj : j ≤ run.length)
    (null : (run.state j).c = none) : Asleep run j := by
  have inv : ∀ {m}, m ≤ run.length → ∃ cells, Inv ops exact holds cells (run.state m) :=
    fun hm => reachBy_inv contract (fun _ _ meets called => Or.inl (meets called))
      (run.reachBy kind hm)
  obtain ⟨_, h⟩ := inv hj
  refine ⟨h.caught_up null, ?_⟩
  intro m hjm hm quiet publishes
  have null : (run.state m).c = none := by
    clear publishes
    induction m, hjm using Nat.le_induction with
    | base => exact null
    | succ m hjm ih =>
      have null := ih (by omega) fun k low high => quiet k low (by omega)
      obtain ⟨_, h⟩ := inv (by omega : m ≤ run.length)
      rcases h.null_stays null (run.step m (by omega)) with ⟨stays, -⟩ | ⟨-, -, publishes⟩
      · exact stays
      · rw [quiet m hjm (by omega), quiet (m + 1) (by omega) (by omega)] at publishes
        exact absurd publishes (Nat.lt_irrefl _)
  obtain ⟨_, h⟩ := inv (by omega : m ≤ run.length)
  rcases h.null_stays null (run.step m hm) with ⟨-, same⟩ | ⟨returned, -⟩
  · omega
  · exact returned

theorem waiting_start {spurious : Bool} (before : (run.state l).reader = .load true)
    (hs : advanceReader ops (run.state l) spurious = some (run.state (l + 1))) :
    Waiting run l (l + 1) := by
  simp only [advanceReader, before] at hs
  have after := Option.some.inj hs
  exact {
    later := Nat.lt_succ_self l
    reader := by rw [← after]
    rang := fun rang => by rw [← after] at rang; cases rang
    null := fun null => by
      rw [← after] at null ⊢
      exact Or.inl null }

/-- A read that waits goes on waiting, has found an item, or returns false; then its
announcement stands, or a flush has seen it. -/
theorem Waiting.next (waiting : Waiting run l m) (contract : Contract ops exact holds)
    (kind : run.Meets fun _ l => l = .unwrite → exact) (hm : m < run.length)
    (announced : Announced ops (run.state m) (run.label m)) :
    Waiting run l (m + 1) ∨ (run.state (m + 1)).reader = .take ∨
      (run.state (m + 1)).reader = .readReturn none ∧
        (Asleep run (m + 1) ∨ Rung run l (m + 1)) := by
  obtain ⟨later, reader, rang, null⟩ := waiting
  obtain ⟨_, h⟩ := reachBy_inv contract (fun _ _ meets called => Or.inl (meets called))
    (run.reachBy kind (Nat.le_of_lt hm))
  have hs : LockFreePipe.next ops (run.state m) (run.label m) = _ := run.step m hm
  have busy : (run.state m).reader.atRest = false := by rw [reader]; rfl
  have persists : (run.state (m + 1)).taken = (run.state m).taken → Rung run l m →
      Rung run l (m + 1) := by
    rintro taken ⟨k, p, low, high, flushing, returned, published, more, unread⟩
    exact ⟨k, p, low, high, flushing, returned, published, more, by rw [taken]; exact unread⟩
  rcases next_while_reading busy hs with ⟨spurious, label, hs⟩ | ⟨sameReader, r, taken, rings⟩
  · simp only [advanceReader, reader] at hs
    have after := Option.some.inj hs
    have taken : (run.state (m + 1)).taken = (run.state m).taken := by rw [← after]
    by_cases found : some (ops.front (run.state m).queue) = (run.state m).r ∨ (run.state m).r = none
    · refine Or.inr (Or.inr ⟨by rw [← after, if_pos found]; rfl, ?_⟩)
      have announces : (run.state (m + 1)).c = none ∨ (run.state m).rang = true := by
        rw [← after]
        dsimp only
        rcases found with front | empty
        · rcases announced spurious label reader front.symm with ⟨same, strong⟩ | rang
          · exact Or.inl (if_pos ⟨same.trans front.symm, strong⟩)
          · exact Or.inr rang
        · refine (null empty).imp_left fun null => ?_
          split
          · rfl
          · exact null
      exact announces.imp (asleep_of_null contract kind hm) fun ringing => persists taken (rang ringing)
    · refine Or.inr (Or.inl ?_)
      rw [← after, if_neg found]
      rfl
  · refine Or.inl ⟨Nat.lt_succ_of_lt later, sameReader.trans reader, ?_, ?_⟩
    · intro ringing
      rcases rings with same | ⟨storing, returned⟩
      · exact persists taken (rang (same ▸ ringing))
      · have more := h.flushing (by rw [storing]; rfl)
        refine ⟨m, (run.state m).visible, Nat.le_of_lt later, hm, by rw [storing]; rfl,
          returned.1, Nat.le_refl _, ?_, ?_⟩
        · rw [returned.2.2]
          exact more
        · rw [taken]
          exact h.taken_le
    · intro empty
      rcases null (r.symm.trans empty) with empty | ringing
      · exact (h.null_stays empty hs).imp (fun stays => stays.1) fun stored => stored.2.1
      · apply Or.inr
        rcases rings with same | ⟨-, -, ringing', -⟩
        · exact same.trans ringing
        · exact ringing'

/-- Where a call of `read` that has not returned an item stands. -/
theorem read_stages (contract : Contract ops exact holds)
    (kind : run.Meets fun _ l => l = .unwrite → exact) (announces : run.Meets (Announced ops))
    {i j : ℕ} (hij : i < j) (hj : j ≤ run.length) (called : run.label i = .read)
    (running : ∀ m, i < m → m < j → (run.state m).reader.atRest = false) :
    (run.state j).reader = .load true ∨ (run.state j).reader = .take ∨
      (∃ value, (run.state j).reader = .readReturn (some value)) ∨
      (run.state j).reader = .undefined ∨
      ∃ l, i < l ∧ l < j ∧ (run.state l).reader = .load true ∧
        (run.state (l + 1)).reader = .exchange true ∧
        (Waiting run l j ∨
          (run.state j).reader = .readReturn none ∧ (Asleep run j ∨ Rung run l j)) := by
  induction j, hij using Nat.le_induction with
  | base =>
    have hs : LockFreePipe.next ops (run.state i) (run.label i) = some (run.state (i + 1)) :=
      run.step i (by omega)
    rw [called] at hs
    generalize run.state (i + 1) = s' at hs ⊢
    cases next_step ops hs with
    | read rest =>
      simp only [checkRead]
      split
      · exact Or.inr (Or.inl rfl)
      · exact Or.inl rfl
  | succ m him ih =>
    have busy := running m him (Nat.lt_succ_self m)
    have hs : LockFreePipe.next ops (run.state m) (run.label m) = _ := run.step m (by omega)
    rcases ih (by omega) fun k low high => running k low (by omega) with
      loading | taking | ⟨_, returned⟩ | wrong | ⟨l, hil, hlm, loading, loaded, waiting | ⟨returned, -⟩⟩
    · rcases next_while_reading busy hs with ⟨spurious, -, hs⟩ | ⟨same, -⟩
      · have waiting := waiting_start loading hs
        exact Or.inr (Or.inr (Or.inr (Or.inr
          ⟨m, him, Nat.lt_succ_self m, loading, waiting.reader, Or.inl waiting⟩)))
      · exact Or.inl (same.trans loading)
    · rcases next_while_reading busy hs with ⟨spurious, -, hs⟩ | ⟨same, -⟩
      · simp only [advanceReader, taking] at hs
        split at hs
        · rw [← Option.some.inj hs]
          exact Or.inr (Or.inr (Or.inl ⟨_, rfl⟩))
        · rw [← Option.some.inj hs]
          exact Or.inr (Or.inr (Or.inr (Or.inl rfl)))
      · exact Or.inr (Or.inl (same.trans taking))
    · rw [returned] at busy
      cases busy
    · rcases next_while_reading busy hs with ⟨spurious, -, hs⟩ | ⟨same, -⟩
      · simp only [advanceReader, wrong] at hs
        cases hs
      · exact Or.inr (Or.inr (Or.inr (Or.inl (same.trans wrong))))
    · have := waiting.next contract kind (by omega) (announces m (by omega))
      rcases this with goesOn | taking | ⟨returned, told⟩
      · exact Or.inr (Or.inr (Or.inr (Or.inr
          ⟨l, hil, by omega, loading, loaded, Or.inl goesOn⟩)))
      · exact Or.inr (Or.inl taking)
      · exact Or.inr (Or.inr (Or.inr (Or.inr
          ⟨l, hil, by omega, loading, loaded, Or.inr ⟨returned, told⟩⟩)))
    · rw [returned] at busy
      cases busy

/-- A read that returns false, over any queue that meets its contract. -/
theorem refused_read (contract : Contract ops exact holds)
    (kind : run.Meets fun _ l => l = .unwrite → exact) (announces : run.Meets (Announced ops))
    {i j : ℕ} (hij : i < j) (hj : j ≤ run.length) (called : run.label i = .read)
    (running : ∀ m, i < m → m < j → (run.state m).reader.atRest = false)
    (refused : (run.state j).reader = .readReturn none) : Told run i j := by
  have stages := read_stages contract kind announces hij hj called running
  rw [refused] at stages
  rcases stages with wrong | wrong | ⟨_, wrong⟩ | wrong | ⟨l, hil, hlj, loading, loaded, told⟩
  · cases wrong
  · cases wrong
  · cases wrong
  · cases wrong
  · rcases told with waiting | ⟨-, told⟩
    · have := waiting.reader
      rw [refused] at this
      cases this
    · exact ⟨l, hil, hlj, loading, loaded, told⟩

/-! ### On the queue of the source -/

open DataChunkQueue

/-- In a run without `unwrite` in which every read that saw nothing at the front announces
itself, or a flush has rung before it could, no wake-up is lost. -/
theorem sleeper_is_woken {T : Type u} {N : ℕ} (two : 2 ≤ N) (run : (machine (zmqQueue T N)).Run)
    (calls : run.Meets fun _ l => l ≠ .unwrite)
    (announces : run.Meets (Announced (zmqQueue T N))) {i j : ℕ} (hij : i < j)
    (hj : j ≤ run.length) (called : run.label i = .read)
    (running : ∀ m, i < m → m < j → (run.state m).reader.atRest = false)
    (refused : (run.state j).reader = .readReturn none) : Told run i j :=
  refused_read (zmqQueue_contract T two) (fun m hm unwrite => absurd unwrite (calls m hm)) announces hij
    hj called running refused

/-- The reader announces itself, and the flush after that returns false. -/
def sleep : List (Label ℕ) :=
  [.read, .readerStep false, .readerStep false, .write 7 false, .flush, .writerStep false,
    .writerStep false]

def sleepRun : (machine (zmqQueue ℕ 2)).Run :=
  .ofSchedule _ .read sleep (by decide)

theorem sleeper_is_woken_once : Told sleepRun 0 3 := by
  refine sleeper_is_woken (Nat.le_refl 2) sleepRun ?_ ?_ (by decide) (by decide) rfl ?_ rfl
  · have calls : ∀ m, m < 7 → sleepRun.label m ≠ .unwrite := by decide
    exact calls
  · intro m hm spurious label reader _
    have strong : ∀ m, m < 7 → sleepRun.label m ≠ .readerStep true := by decide
    have same : ∀ m, m < 7 → (sleepRun.state m).reader = .exchange true →
        (sleepRun.state m).c = (sleepRun.state m).r := by decide
    cases spurious with
    | false => exact Or.inl ⟨same m hm reader, rfl⟩
    | true => exact absurd label (strong m hm)
  · have running : ∀ m, m < 3 → 0 < m → (sleepRun.state m).reader.atRest = false := by decide
    exact fun m low high => running m high low

/-- A flush between the load and the compare-exchange of the reader. -/
def overtake : List (Label ℕ) :=
  [.write 7 false, .read, .readerStep false, .flush, .writerStep false, .readerStep false]

def overtakeRun : (machine (zmqQueue ℕ 2)).Run :=
  .ofSchedule _ .read overtake (by decide)

/-- The read returns false with a flushed item unread, and no flush has returned false. -/
theorem reader_overtaken :
    (overtakeRun.Meets fun _ l => l ≠ .unwrite ∧ l ≠ .checkRead) ∧ overtakeRun.label 1 = .read ∧
      (∀ m, 1 < m → m < 6 → (overtakeRun.state m).reader.atRest = false) ∧
      (overtakeRun.state 6).reader = .readReturn none ∧ ¬ Told overtakeRun 1 6 := by
  have calls : ∀ m, m < 6 → overtakeRun.label m ≠ .unwrite ∧ overtakeRun.label m ≠ .checkRead := by
    decide
  have running : ∀ m, m < 6 → 1 < m → (overtakeRun.state m).reader.atRest = false := by decide
  refine ⟨calls, rfl, fun m low high => running m high low, rfl, ?_⟩
  rintro ⟨l, -, -, -, -, ⟨caught, -⟩ | ⟨m, p, -, inside, -, returned, -⟩⟩
  · cases caught
  · have silent : ∀ m, m < 6 → (overtakeRun.state (m + 1)).writer ≠ .flushReturn false := by decide
    exact silent m inside returned

end LockFreePipe
