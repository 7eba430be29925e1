import CppConcurrency.LockFreePipeMarks

/-!
# What the reader of a `LockFreePipe` gets

Over an exact queue the cells of the queue are the marks, so every cell the reader pops
is the cell of the next item. What it has read is a prefix of what was flushed, and a read
that starts with a flushed item still there returns it, whatever the writer does meanwhile.
-/

namespace LockFreePipe

open Machines CellQueues

universe u v w

variable {Q : Type v} {Cell : Type w} {T : Type u} {ops : CellQueue Q Cell T} {exact : Prop}
  {holds : Q → List Cell → Prop}

section

variable {cells : List Cell} {s s' : State Q Cell T} (contract : Contract ops exact holds)

include contract

/-- In an exact queue the front is the next item's cell and holds its value. -/
theorem Inv.front_item (h : Inv ops exact holds cells s) (tight : exact)
    (more : s.taken < s.items.length) :
    some (ops.front s.queue) = s.mark ops s.taken ∧
      ∃ v, s.items[s.taken]? = some (ops.front s.queue, v) ∧
        ops.load s.queue (ops.front s.queue) = some (some v) := by
  obtain ⟨rest, begins⟩ := h.begins contract
  have drop := List.drop_eq_getElem_cons more
  have marked : marks ops s.queue s.items s.taken = ops.front s.queue :: rest :=
    (h.tight tight).symm.trans begins
  have first : s.items[s.taken].1 = ops.front s.queue := by
    rw [marks, drop] at marked
    exact (List.cons.inj marked).1
  have written := h.values s.items[s.taken] (by rw [drop]; exact List.mem_cons_self)
  refine ⟨?_, s.items[s.taken].2, ?_, ?_⟩
  · rw [State.mark, Nat.sub_self, marked]
    rfl
  · rw [List.getElem?_eq_getElem more, ← first]
  · rw [← first, written]

end

/-- A running read with an item to find: it has not looked at `c` yet, or what it saw
there lies beyond the front. -/
def Finding (ops : CellQueue Q Cell T) (s : State Q Cell T) : Prop :=
  s.taken < s.visible ∧
    (s.reader = .load true ∨
      s.reader = .exchange true ∧ s.r ≠ none ∧ s.r ≠ some (ops.front s.queue) ∨ s.reader = .take)

section

variable {cells : List Cell} {s s' : State Q Cell T} [DecidableEq Cell]

omit [DecidableEq Cell] in
theorem Finding.writes (h : Finding ops s) (reader : s'.reader = s.reader) (r : s'.r = s.r)
    (taken : s'.taken = s.taken) (visible : s'.visible = s.visible)
    (front : ops.front s'.queue = ops.front s.queue) : Finding ops s' := by
  unfold Finding
  rw [reader, r, taken, visible, front]
  exact h

omit [DecidableEq Cell] in
theorem Finding.atRest (h : Finding ops s) : s.reader.atRest = false := by
  rcases h.2 with hr | ⟨hr, -⟩ | hr <;> rw [hr] <;> rfl

/-- The first step of a read. -/
theorem Finding.starts (unread : s.taken < s.visible) : Finding ops (checkRead ops s true) := by
  unfold checkRead
  by_cases prefetched : some (ops.front s.queue) ≠ s.r ∧ s.r ≠ none
  · rw [if_pos prefetched]
    exact ⟨unread, Or.inr (Or.inr rfl)⟩
  · rw [if_neg prefetched]
    exact ⟨unread, Or.inl rfl⟩

variable (contract : Contract ops exact holds)

include contract

/-- The reader's own steps, which end with the item. -/
theorem Finding.reads (h : Inv ops exact holds cells s) (tight : exact) (finding : Finding ops s)
    {e : Cell × T} (he : s.items[s.taken]? = some e) {spurious : Bool}
    (hs : advanceReader ops s spurious = some s') :
    (Finding ops s' ∧ s'.taken = s.taken ∧ s'.items[s.taken]? = some e) ∨
      s'.reader = .readReturn (some (some e.2)) := by
  have visible := h.visible_le_length
  have more : s.taken < s.items.length := Nat.lt_of_lt_of_le finding.1 visible
  obtain ⟨zero, v, item, loaded⟩ := h.front_item contract tight more
  have beyond : s.mark ops s.visible ≠ some (ops.front s.queue) := by
    intro same
    have := h.first_mark contract h.taken_le visible same.symm
    have := finding.1
    omega
  rcases finding.2 with hr | ⟨hr, notNull, notFront⟩ | hr
  · simp only [advanceReader, hr] at hs
    obtain rfl := Option.some.inj hs
    -- `c` is null only when nothing is left, so it is the mark of the visible items
    have hc : s.c = s.mark ops s.visible := by
      rcases h.c with hc | ⟨-, caught⟩
      · exact hc
      · have := finding.1
        omega
    obtain ⟨x, hx, -⟩ := h.mark_isSome visible
    refine Or.inl ⟨⟨finding.1, Or.inr (Or.inl ⟨rfl, ?_, ?_⟩)⟩, rfl, he⟩
    · rw [hc, hx]
      exact Option.some_ne_none x
    · rw [hc]
      exact beyond
  · simp only [advanceReader, hr] at hs
    obtain rfl := Option.some.inj hs
    refine Or.inl ⟨⟨finding.1, Or.inr (Or.inr ?_)⟩, rfl, he⟩
    have fetched : ¬ (some (ops.front s.queue) = s.r ∨ s.r = none) := by
      rintro (same | null)
      · exact notFront same.symm
      · exact notNull null
    dsimp only
    rw [if_neg fetched]
    rfl
  · obtain ⟨p, d, rest, value, q, pop⟩ := h.popped contract hr
    obtain rfl : value = some v := Option.some.inj (pop.loaded.symm.trans loaded)
    obtain rfl : e = (ops.front s.queue, v) := Option.some.inj (he.symm.trans item)
    simp only [advanceReader, hr, loaded, pop.popped, Option.bind_some, Option.map_some] at hs
    obtain rfl := Option.some.inj hs
    exact Or.inr rfl

omit contract in
/-- What the writer's accesses to `c` leave alone. -/
theorem advanceWriter_keeps {spurious : Bool} (hs : advanceWriter s spurious = some s') :
    s'.queue = s.queue ∧ s'.r = s.r ∧ s'.reader = s.reader ∧ s'.items = s.items ∧
      s'.taken = s.taken := by
  rcases advanceWriter_cases hs with ⟨-, rfl, -⟩ | ⟨-, rfl⟩ | ⟨-, rfl⟩
  all_goals exact ⟨rfl, rfl, rfl, rfl, rfl⟩

omit contract in
/-- A flush has something new to make visible when it gets to `c`. -/
theorem Inv.publishes (h : Inv ops exact holds cells s) {spurious : Bool}
    (hs : LockFreePipe.advanceWriter s spurious = some s') : s.visible ≤ s'.visible := by
  rcases advanceWriter_cases hs with ⟨hw, rfl, -⟩ | ⟨-, rfl⟩ | ⟨hw, rfl⟩
  · exact Nat.le_of_lt (h.flushing (by rw [hw]; rfl))
  · exact Nat.le_refl _
  · exact Nat.le_of_lt (h.flushing (by rw [hw]; rfl))

/-- Each step leaves the read on its way or makes it return the item. -/
theorem Finding.next (h : Inv ops exact holds cells s) (tight : exact) (finding : Finding ops s)
    {e : Cell × T} (he : s.items[s.taken]? = some e) {l : Label T} (hs : LockFreePipe.next ops s l = some s') :
    (Finding ops s' ∧ s'.taken = s.taken ∧ s'.items[s.taken]? = some e) ∨
      s'.reader = .readReturn (some (some e.2)) := by
  have visible := h.visible_le_length
  have more : s.taken < s.items.length := Nat.lt_of_lt_of_le finding.1 visible
  have busy := finding.atRest
  cases next_step ops hs with
  | write rest value incomplete =>
    obtain ⟨_, -, front⟩ := h.write contract rest value incomplete
    exact Or.inl ⟨finding.writes (by simp) (by simp) (by simp) (by simp) front, by simp,
      (write_items ops s value incomplete more).trans he⟩
  | unwrite rest =>
    obtain ⟨_, after, front, -⟩ := h.unwrite contract tight rest
    have more' : s.taken < (unwrite ops s).items.length := by
      have := after.visible_le_length
      simp only [unwrite_visible] at this
      exact Nat.lt_of_lt_of_le finding.1 this
    exact Or.inl ⟨finding.writes (by simp) (by simp) (by simp) (by simp) front, by simp,
      (unwrite_items ops s more').trans he⟩
  | flush rest => exact Or.inl ⟨finding, rfl, he⟩
  | writerStep moved =>
    have grown := h.publishes moved
    obtain ⟨queue, r, reader, items, taken⟩ := advanceWriter_keeps moved
    refine Or.inl ⟨⟨?_, ?_⟩, taken, items ▸ he⟩
    · rw [taken]
      exact Nat.lt_of_lt_of_le finding.1 grown
    · rw [reader, r, queue]
      exact finding.2
  | checkRead rest | read rest =>
    rw [busy] at rest
    cases rest
  | readerStep moved => exact finding.reads contract h tight he moved

/-- No step takes back an item that a flush made visible. -/
theorem Inv.keeps_visible (h : Inv ops exact holds cells s) (tight : exact) {l : Label T}
    (hs : LockFreePipe.next ops s l = some s') :
    s.items.take s.visible <+: s'.items.take s'.visible := by
  have visible := h.visible_le_length
  have whole : ∀ (items : List (Cell × T)) (n : ℕ), s.visible ≤ n → n ≤ items.length →
      (∀ k, k < s.visible → items[k]? = s.items[k]?) →
      s.items.take s.visible <+: items.take n := by
    intro items n more short same
    have equal : s.items.take s.visible = items.take s.visible := by
      refine List.ext_getElem? fun k => ?_
      rw [List.getElem?_take, List.getElem?_take]
      split
      · rename_i inside
        exact (same k inside).symm
      · rfl
    rw [equal]
    exact List.take_prefix_take_left more
  obtain ⟨cells', after⟩ := h.next contract (fun _ => Or.inl tight) hs
  have visible' := after.visible_le_length
  cases next_step ops hs with
  | write rest value incomplete =>
    refine whole _ _ (by simp) visible' fun k hk => write_items ops s value incomplete ?_
    exact Nat.lt_of_lt_of_le hk visible
  | unwrite rest =>
    refine whole _ _ (by simp) visible' fun k hk => unwrite_items ops s ?_
    rw [unwrite_visible] at visible'
    exact Nat.lt_of_lt_of_le hk visible'
  | flush rest | checkRead rest | read rest => exact List.prefix_refl _
  | writerStep moved =>
    have grown := h.publishes moved
    obtain ⟨-, -, -, items, -⟩ := advanceWriter_keeps moved
    exact whole _ _ grown visible' fun k _ => by rw [items]
  | readerStep moved =>
    obtain ⟨items, visible, -⟩ := advanceReader_keeps ops moved
    have same : s'.items.take s'.visible = s.items.take s.visible := by rw [items, visible]
    exact same ▸ List.prefix_refl _

end

/-! ### Runs -/

section Runs

variable [DecidableEq Cell] (contract : Contract ops exact holds) (tight : exact)

include contract tight

theorem reach_inv {s : State Q Cell T} (reached : (machine ops).Reach s) :
    ∃ cells, Inv ops exact holds cells s :=
  reachBy_inv contract (fun _ _ _ _ => Or.inl tight) reached

theorem visible_prefix (run : (machine ops).Run) {i j : ℕ} (hij : i ≤ j) (hj : j ≤ run.length) :
    (run.state i).items.take (run.state i).visible <+:
      (run.state j).items.take (run.state j).visible := by
  induction j, hij using Nat.le_induction with
  | base => exact List.prefix_refl _
  | succ j hij ih =>
    obtain ⟨_, h⟩ := reach_inv contract tight (run.reach (by omega : j ≤ run.length))
    exact (ih (by omega)).trans (h.keeps_visible contract tight (run.step j hj))

/-- A read that starts with a flushed item unread is on its way to that item until it
returns it. -/
theorem read_finds (run : (machine ops).Run) {i j : ℕ} (hij : i < j) (hj : j ≤ run.length)
    (called : run.label i = .read)
    (running : ∀ m, i < m → m < j → (run.state m).reader.atRest = false) {e : Cell × T}
    (unread : (run.state i).taken < (run.state i).visible)
    (he : (run.state i).items[(run.state i).taken]? = some e) :
    (Finding ops (run.state j) ∧ (run.state j).taken = (run.state i).taken ∧
        (run.state j).items[(run.state i).taken]? = some e) ∨
      (run.state j).reader = .readReturn (some (some e.2)) := by
  induction j, hij using Nat.le_induction with
  | base =>
    have hs : next ops (run.state i) (run.label i) = some (run.state (i + 1)) :=
      run.step i (by omega)
    rw [called] at hs
    generalize run.state (i + 1) = s' at hs ⊢
    cases next_step ops hs with
    | read rest => exact Or.inl ⟨Finding.starts unread, rfl, he⟩
  | succ j hij ih =>
    rcases ih (by omega) fun m hm hm' => running m hm (by omega) with ⟨finding, taken, item⟩ | done
    · obtain ⟨_, h⟩ := reach_inv contract tight (run.reach (by omega : j ≤ run.length))
      rw [← taken] at item ⊢
      exact finding.next contract h tight item (run.step j hj)
    · have := running j hij (Nat.lt_succ_self j)
      rw [done] at this
      cases this

end Runs

/-- What the reader has read is a prefix of what was flushed, flushed items stay as they
are, a flush makes visible exactly the completed items, an unwrite takes back the last item
and returns it, and a read that starts with a flushed item unread returns the first of them. -/
theorem reads_follow_flushes [DecidableEq Cell] (contract : Contract ops True holds) :
    (∀ s, (machine ops).Reach s →
      s.reads <+: (s.items.take s.visible).map (fun e => some e.2) ∧ s.reads.length = s.taken ∧
        s.taken ≤ s.visible ∧ s.visible ≤ s.completed ∧ s.completed ≤ s.items.length ∧
        (∀ ok, s.writer = .flushReturn ok → s.visible = s.completed) ∧
        s.writer ≠ .undefined ∧ s.reader ≠ .undefined) ∧
      (∀ (run : (machine ops).Run) (i j : ℕ), i ≤ j → j ≤ run.length →
        (run.state i).items.take (run.state i).visible <+:
          (run.state j).items.take (run.state j).visible) ∧
      (∀ s s' value, (machine ops).Reach s → next ops s .unwrite = some s' →
        s'.writer = .unwriteReturn (some value) →
        ∃ e, s.items = s'.items ++ [e] ∧ value = some e.2) ∧
      ∀ (run : (machine ops).Run) (i j : ℕ), i < j → j ≤ run.length → run.label i = .read →
        (∀ m, i < m → m < j → (run.state m).reader.atRest = false) →
        (run.state j).reader.atRest = true → (run.state i).taken < (run.state i).visible →
        ∃ e, (run.state i).items[(run.state i).taken]? = some e ∧
          (run.state j).reader = .readReturn (some (some e.2)) := by
  refine ⟨?_, ?_, ?_, ?_⟩
  · intro s reached
    obtain ⟨_, h⟩ := reach_inv contract trivial reached
    have reads := h.reads trivial
    have taken := h.taken_le_length
    refine ⟨?_, ?_, h.taken_le, h.visible_le, h.completed_le, h.flushed, h.writer, h.reader⟩
    · rw [reads]
      exact (List.take_prefix_take_left h.taken_le).map _
    · rw [reads, List.length_map, List.length_take, Nat.min_eq_left taken]
  · intro run i j hij hj
    exact visible_prefix contract trivial run hij hj
  · intro s s' value reached hs returned
    obtain ⟨_, h⟩ := reach_inv contract trivial reached
    obtain ⟨rest, ⟨⟩⟩ := Option.ite_none_right_eq_some.mp hs
    obtain ⟨_, -, -, takes⟩ := h.unwrite contract trivial rest
    exact takes value returned
  · intro run i j hij hj called running returned unread
    obtain ⟨_, h⟩ := reach_inv contract trivial (run.reach (by omega : i ≤ run.length))
    have more : (run.state i).taken < (run.state i).items.length :=
      Nat.lt_of_lt_of_le unread h.visible_le_length
    have he := List.getElem?_eq_getElem more
    refine ⟨_, he, ?_⟩
    rcases read_finds contract trivial run hij hj called running unread he with ⟨finding, -⟩ | done
    · have busy := finding.atRest
      rw [returned] at busy
      cases busy
    · exact done

/-- Two items of which the first ends no batch, a third that is taken back, a flush, and a
read. -/
def batch : List (Label ℕ) :=
  [.write 7 true, .write 8 false, .write 9 true, .unwrite, .flush, .writerStep false, .read,
    .readerStep false, .readerStep false, .readerStep false]

def batchRun : (machine (numbered ℕ)).Run :=
  .ofSchedule _ .read batch (by decide)

theorem reads_follow_flushes_batch :
    ((batchRun.state 10).reads <+: [some 7, some 8] ∧ (batchRun.state 10).reads.length = 1) ∧
      (batchRun.state 6).items.take (batchRun.state 6).visible <+:
        (batchRun.state 10).items.take (batchRun.state 10).visible ∧
      (∃ e, (batchRun.state 3).items = (batchRun.state 4).items ++ [e] ∧ some 9 = some e.2) ∧
      (batchRun.state 10).reader = .readReturn (some (some 7)) := by
  obtain ⟨always, grows, takesBack, found⟩ := reads_follow_flushes (numbered_contract ℕ)
  refine ⟨?_, ?_, ?_, ?_⟩
  · obtain ⟨reads, taken, -⟩ := always _ (batchRun.reach (Nat.le_refl 10))
    exact ⟨reads, taken⟩
  · exact grows batchRun 6 10 (by decide) (Nat.le_refl 10)
  · exact takesBack _ _ _ (batchRun.reach (by decide)) (batchRun.step 3 (by decide)) rfl
  · have running : ∀ m, m < 10 → 6 < m → (batchRun.state m).reader.atRest = false := by decide
    obtain ⟨e, first, returned⟩ := found batchRun 6 10 (by decide) (Nat.le_refl 10) rfl
      (fun m low high => running m high low) rfl (by decide)
    obtain rfl : e = (0, 7) := (Option.some.inj first).symm
    exact returned

end LockFreePipe
