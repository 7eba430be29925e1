import CppConcurrency.LockFreePipeUnwrite

/-!
# How a `LockFreePipe` reads through its chunks

Every push opens a chunk, and `pop` walks through all the cells of one. So the reader
finds behind each item the other cells of its chunk, which nobody wrote, and `read`
returns true for each of them. A consumer that counts its reads, as those of the tests
do, has after `n` reads taken one item for every `N` of them.
-/

namespace LockFreePipe

open Machines CellQueues DataChunkQueue

universe u

variable {T : Type u} {N : ℕ}

/-- What the reads return that walk through the chunks of the items. -/
def walk (N : ℕ) (items : List (Cell × T)) : List (Option T) :=
  items.flatMap fun e => some e.2 :: List.replicate (N - 1) none

theorem walk_append (items more : List (Cell × T)) :
    walk N (items ++ more) = walk N items ++ walk N more :=
  List.flatMap_append

theorem walk_length (positive : 0 < N) (items : List (Cell × T)) :
    (walk N items).length = N * items.length := by
  induction items with
  | nil => rfl
  | cons e items ih =>
    rw [← List.singleton_append, walk_append, List.length_append, ih, List.length_append,
      List.length_singleton, Nat.mul_add, Nat.mul_one]
    congr 1
    simp only [walk, List.flatMap_singleton, List.length_cons, List.length_replicate]
    omega

/-- The first cell of a chunk holds the item, and no other cell holds anything. -/
theorem walk_getElem? {p : ℕ} (inside : p < N) (items : List (Cell × T)) (c : ℕ) :
    (walk N items)[N * c + p]? =
      (items[c]?).map fun e => if p = 0 then some e.2 else none := by
  induction items generalizing c with
  | nil => rfl
  | cons e items ih =>
    have chunk : (walk N [e]).length = N := by
      rw [walk_length (Nat.zero_lt_of_lt inside), List.length_singleton, Nat.mul_one]
    rw [← List.singleton_append, walk_append]
    cases c with
    | zero =>
      rw [List.getElem?_append_left (by omega), Nat.mul_zero, Nat.zero_add]
      cases p with
      | zero => rfl
      | succ p =>
        have : p < N - 1 := by omega
        simp [walk, this]
    | succ c =>
      have later : N * (c + 1) + p = (walk N [e]).length + (N * c + p) := by
        rw [chunk, Nat.mul_succ]
        omega
      rw [later, List.getElem?_append_right (Nat.le_add_right _ _), Nat.add_sub_cancel_left, ih]
      rfl

theorem prefix_snoc {α : Type u} {l all : List α} {a : α} (before : l <+: all)
    (here : all[l.length]? = some a) : l ++ [a] <+: all := by
  obtain ⟨rest, rfl⟩ := before
  rw [List.getElem?_append_right (Nat.le_refl _), Nat.sub_self] at here
  cases rest with
  | nil => cases here
  | cons b rest =>
    obtain rfl := Option.some.inj here
    exact ⟨rest, by simp⟩

/-- The reader stands in the chunk of item `c`: `ids` are the chunks of the items from
this one on. -/
structure Walking (N : ℕ) (s : State (ZmqQueue T) Cell T) (b : ℕ) (ids : List ℕ) (last e c : ℕ) :
    Prop where
  gapped : Gapped N s.queue b ids last e
  cells : (s.items.drop c).map Prod.fst = ids.map fun i => ⟨.to i, 0⟩
  within : s.items.length = c + ids.length
  length : s.reads.length = N * c + s.queue.beginPos
  taken : s.taken = if s.queue.beginPos = 0 then c else c + 1
  reads : s.reads <+: walk N s.items

def Walks (N : ℕ) (s : State (ZmqQueue T) Cell T) : Prop :=
  ∃ b ids last e c, Walking N s b ids last e c

variable {s s' : State (ZmqQueue T) Cell T} {b last e c : ℕ} {ids : List ℕ}

theorem Walks.start (two : 2 ≤ N) : Walks N (start (zmqQueue T N)) := by
  have partly : (ZmqQueue.new : ZmqQueue T).endPos + 1 ≠ N := by
    change 0 + 1 ≠ N
    omega
  obtain ⟨q, d, pushed, linked, back, endPos, beginPos, -⟩ := new_linked.push partly
  have zero : q.beginPos = 0 := beginPos
  have begun : (LockFreePipe.start (zmqQueue T N)).queue = q := by
    change ((ZmqQueue.new : ZmqQueue T).push N).getD .new = q
    rw [pushed]
    rfl
  refine ⟨0, [], 0, d, 0, ?_⟩
  exact {
    gapped := by
      rw [begun]
      exact ⟨linked, endPos, back, by omega, fun _ => zero⟩
    cells := rfl
    within := rfl
    length := by
      rw [begun, zero]
      rfl
    taken := by
      rw [begun, if_pos zero]
      rfl
    reads := List.nil_prefix }

/-- A step that takes no item and writes none. -/
theorem Walks.keep (h : Walks N s) (queue : s'.queue = s.queue) (items : s'.items = s.items)
    (taken : s'.taken = s.taken) (reads : s'.reads = s.reads) : Walks N s' := by
  obtain ⟨b, ids, last, e, c, h⟩ := h
  refine ⟨b, ids, last, e, c, ?_⟩
  exact {
    gapped := queue ▸ h.gapped
    cells := items ▸ h.cells
    within := items ▸ h.within
    length := by rw [reads, queue, h.length]
    taken := by rw [taken, queue, h.taken]
    reads := by rw [reads, items]; exact h.reads }

/-- The written item lies at the start of the chunk that was the last one. -/
theorem Walks.write (two : 2 ≤ N) (h : Walks N s) (value : T) (incomplete : Bool) :
    Walks N (write (zmqQueue T N) s value incomplete) := by
  rcases write_cases s value incomplete with wrong | ⟨q₁, q, stored, pushed, result⟩
  · rw [wrong]
    exact h.keep rfl rfl rfl rfl
  obtain ⟨b, ids, last, e, c, h⟩ := h
  have here : s.queue.back ∈ held N ids s.queue.beginPos last := by
    rw [h.gapped.back]
    exact List.mem_append_right _ (List.mem_singleton_self _)
  obtain ⟨q₁', stored', gapped₁, pos₁, -⟩ := h.gapped.store here value
  obtain rfl : q₁' = q₁ := Option.some.inj (stored'.symm.trans stored)
  obtain ⟨q', d, pushed', gapped, -⟩ := gapped₁.push two
  obtain rfl : q' = q := Option.some.inj (pushed'.symm.trans pushed)
  have partly : q₁'.endPos + 1 ≠ N := by
    have := gapped₁.endPos
    omega
  obtain ⟨q'', d', pushed'', -, -, -, pos, -⟩ := gapped₁.linked.push partly
  obtain rfl : q'' = q' := Option.some.inj (pushed''.symm.trans pushed)
  have same : q''.beginPos = s.queue.beginPos := pos.trans pos₁
  have inside : c ≤ s.items.length := by
    have := h.within
    omega
  rw [result]
  refine ⟨b, ids ++ [last], e, d, c, ?_⟩
  exact {
    gapped := gapped
    cells := by
      rw [List.drop_append_of_le_length inside, List.map_append, h.cells, List.map_append]
      simp [h.gapped.back]
    within := by
      have := h.within
      simp only [List.length_append, List.length_singleton]
      omega
    length := by
      rw [same]
      exact h.length
    taken := by
      rw [same]
      exact h.taken
    reads := by
      rw [walk_append]
      exact h.reads.trans (List.prefix_append _ _) }

/-! ### Taking a cell -/

theorem gapped_front {q : ZmqQueue T} {a : ℕ} (h : Gapped N q b (a :: ids) last e) :
    q.front = ⟨.to a, q.beginPos⟩ := by
  obtain ⟨rfl, -⟩ := h.linked.chain
  rw [ZmqQueue.front, h.linked.beginChunk]

/-- A pop leaves the chunk with its last cell. -/
theorem gapped_pop {q q' : ZmqQueue T} {a : ℕ} (h : Gapped N q b (a :: ids) last e)
    (popped : q.pop N = some q') :
    (q.beginPos + 1 = N ∧ q'.beginPos = 0 ∧ ∃ b', Gapped N q' b' ids last e) ∨
      (q.beginPos + 1 < N ∧ q'.beginPos = q.beginPos + 1 ∧ Gapped N q' b (a :: ids) last e) := by
  have inside := h.inside
  by_cases used : q.beginPos + 1 = N
  · obtain ⟨q'', b', popped', linked, -, beginPos, back, endPos, -⟩ := h.linked.pop_chunk used
    obtain rfl : q'' = q' := Option.some.inj (popped'.symm.trans popped)
    exact Or.inl ⟨used, beginPos, b', linked, endPos.trans h.endPos, back.trans h.back, by omega,
      fun _ => beginPos⟩
  · obtain ⟨q'', popped', linked, beginPos, back, endPos, -⟩ := h.linked.pop_within used
    obtain rfl : q'' = q' := Option.some.inj (popped'.symm.trans popped)
    exact Or.inr ⟨by omega, beginPos, linked, endPos.trans h.endPos, back.trans h.back, by omega,
      fun none => absurd none (List.cons_ne_nil _ _)⟩

section Take

variable {exact : Prop} {holds : ZmqQueue T → List Cell → Prop} {cells : List Cell}

/-- Where no item is left the front is the back, and a reader about to take a cell has
another one in `r`. -/
theorem Walking.reading (h : Walking N s b ids last e c)
    (inv : Inv (zmqQueue T N) exact holds cells s) (hr : s.reader = .take) :
    ∃ a rest, ids = a :: rest := by
  cases ids with
  | cons a rest => exact ⟨a, rest, rfl⟩
  | nil =>
    obtain ⟨fetched, moved⟩ := inv.take hr
    obtain ⟨p, low, high, hp⟩ := inv.r.resolve_left fetched
    have all : s.taken = s.items.length := by
      rw [h.taken, if_pos (h.gapped.first rfl), h.within]
      rfl
    obtain rfl : p = s.items.length := by
      have := inv.visible_le_length
      omega
    have front : s.queue.front = s.queue.back := by
      obtain ⟨rest, first⟩ := h.gapped.front
      rw [h.gapped.back]
      exact (List.cons.inj first).1.symm
    refine absurd ?_ moved
    rw [hp, s.last_mark]
    exact congrArg some front.symm

/-- The item in whose chunk the reader stands. -/
theorem Walking.item {a : ℕ} (h : Walking N s b (a :: ids) last e c) :
    ∃ x, s.items[c]? = some x ∧ x.1 = ⟨.to a, 0⟩ := by
  have first := congrArg List.head? h.cells
  rw [List.head?_map, List.head?_drop] at first
  exact Option.map_eq_some_iff.mp first

/-- The cell at the front holds the item, or nothing. -/
theorem Walking.value {a : ℕ} (h : Walking N s b (a :: ids) last e c)
    (inv : Inv (zmqQueue T N) exact holds cells s) (opening : Opening s.queue) {value : Option T}
    (loaded : s.queue.load N s.queue.front = some value) :
    (walk N s.items)[s.reads.length]? = some value := by
  obtain ⟨x, item, cell⟩ := h.item
  rw [h.length, walk_getElem? h.gapped.inside, item]
  have front := gapped_front h.gapped
  by_cases first : s.queue.beginPos = 0
  · have untaken : x ∈ s.items.drop s.taken := by
      rw [h.taken, if_pos first]
      apply List.mem_of_mem_head?
      rw [List.head?_drop]
      exact item
    have stored : s.queue.load N x.1 = some (some x.2) := inv.values x untaken
    rw [cell, ← first, ← front, loaded] at stored
    rw [Option.map_some, if_pos first]
    exact stored.symm
  · obtain ⟨-, d, -, here⟩ := load_some loaded
    rw [Option.map_some, if_neg first]
    cases value with
    | none => rfl
    | some v =>
      have := opening.firsts d _ v here.symm
      rw [front] at this
      exact absurd this first

/-- An item counts as taken with the first cell of its chunk. -/
theorem Walking.counts {a : ℕ} (h : Walking N s b (a :: ids) last e c) :
    (if (s.items[s.taken]?).map Prod.fst = some s.queue.front then s.taken + 1 else s.taken) =
      c + 1 := by
  rw [gapped_front h.gapped, h.taken]
  by_cases first : s.queue.beginPos = 0
  · obtain ⟨x, item, cell⟩ := h.item
    rw [if_pos first, item, Option.map_some, cell, first, if_pos rfl]
  · rw [if_neg first, if_neg]
    intro here
    obtain ⟨x, item, cell⟩ := Option.map_eq_some_iff.mp here
    have later : x ∈ s.items.drop c := by
      apply List.mem_of_getElem? (i := 1)
      rw [List.getElem?_drop]
      exact item
    have start : x.1 ∈ (a :: ids).map fun i => (⟨.to i, 0⟩ : Cell) :=
      h.cells ▸ List.mem_map_of_mem later
    obtain ⟨i, -, eq⟩ := List.mem_map.mp start
    rw [cell] at eq
    exact first (Cell.mk.inj eq).2.symm

theorem Walks.take (h : Walks N s) (inv : Inv (zmqQueue T N) exact holds cells s)
    (opening : Opening s.queue) (hr : s.reader = .take) {value : Option T} {q : ZmqQueue T}
    (loaded : s.queue.load N s.queue.front = some value) (popped : s.queue.pop N = some q) :
    Walks N { s with
      queue := q
      reader := .readReturn (some value)
      taken := if (s.items[s.taken]?).map Prod.fst = some s.queue.front then s.taken + 1
        else s.taken
      reads := s.reads ++ [value] } := by
  obtain ⟨b, ids, last, e, c, h⟩ := h
  obtain ⟨a, ids, rfl⟩ := h.reading inv hr
  have reads := prefix_snoc h.reads (h.value inv opening loaded)
  have length : (s.reads ++ [value]).length = N * c + s.queue.beginPos + 1 := by
    rw [List.length_append, List.length_singleton, h.length]
  rw [h.counts]
  rcases gapped_pop h.gapped popped with ⟨used, zero, b', gapped⟩ | ⟨within, next, gapped⟩
  · refine ⟨b', ids, last, e, c + 1, ?_⟩
    exact {
      gapped := gapped
      cells := by
        have rest := congrArg List.tail h.cells
        rw [List.map_drop, List.tail_drop, List.map_cons, List.tail_cons] at rest
        rw [List.map_drop]
        exact rest
      within := by
        have := h.within
        rw [List.length_cons] at this
        dsimp only
        omega
      length := by
        dsimp only
        rw [length, zero, Nat.mul_succ]
        omega
      taken := (if_pos zero).symm
      reads := reads }
  · refine ⟨b, a :: ids, last, e, c, ?_⟩
    exact {
      gapped := gapped
      cells := h.cells
      within := h.within
      length := by
        dsimp only
        rw [length, next]
        rfl
      taken := by
        dsimp only
        rw [next, if_neg (Nat.succ_ne_zero _)]
      reads := reads }

theorem Walks.advanceReader (h : Walks N s) (inv : Inv (zmqQueue T N) exact holds cells s)
    (opening : Opening s.queue) {spurious : Bool}
    (hs : advanceReader (zmqQueue T N) s spurious = some s') : Walks N s' := by
  unfold LockFreePipe.advanceReader at hs
  split at hs
  · obtain rfl := Option.some.inj hs
    exact h.keep rfl rfl rfl rfl
  · obtain rfl := Option.some.inj hs
    exact h.keep rfl rfl rfl rfl
  · rename_i hr
    split at hs
    · rename_i value q defined
      obtain ⟨value', loaded, defined⟩ := Option.bind_eq_some_iff.mp defined
      obtain ⟨q', popped, eq⟩ := Option.map_eq_some_iff.mp defined
      obtain ⟨rfl, rfl⟩ := Prod.mk.inj eq
      obtain rfl := Option.some.inj hs
      exact h.take inv opening hr loaded popped
    · obtain rfl := Option.some.inj hs
      exact h.keep rfl rfl rfl rfl
  · cases hs

end Take

theorem Walks.next {exact : Prop} {holds : ZmqQueue T → List Cell → Prop} {cells : List Cell}
    (two : 2 ≤ N) (h : Walks N s) (inv : Inv (zmqQueue T N) exact holds cells s)
    (opening : Opening s.queue) {l : Label T} (meets : TakesNothing s l)
    (hs : next (zmqQueue T N) s l = some s') : Walks N s' := by
  cases next_step _ hs with
  | write rest value incomplete => exact h.write two value incomplete
  | unwrite rest =>
    rw [unwrite_none (meets rfl)]
    exact h.keep rfl rfl rfl rfl
  | flush rest => exact h.keep rfl rfl rfl rfl
  | writerStep moved =>
    rcases advanceWriter_cases moved with ⟨-, rfl, -⟩ | ⟨-, rfl⟩ | ⟨-, rfl⟩ <;>
      exact h.keep rfl rfl rfl rfl
  | checkRead rest => exact h.keep rfl rfl rfl rfl
  | read rest => exact h.keep rfl rfl rfl rfl
  | readerStep moved => exact h.advanceReader inv opening moved

theorem reach_marks (two : 2 ≤ N) (reached : (machine (zmqQueue T N)).ReachBy TakesNothing s) :
    ∃ cells, Inv (zmqQueue T N) False (Holds N) cells s :=
  reachBy_inv (zmqQueue_contract T two) (fun _ _ meets called => Or.inr (meets called)) reached

theorem reach_walks (two : 2 ≤ N) (reached : (machine (zmqQueue T N)).ReachBy TakesNothing s) :
    Walks N s := by
  induction reached with
  | start => exact Walks.start two
  | next reached meets hs ih =>
    obtain ⟨cells, inv⟩ := reach_marks two reached
    exact ih.next two inv (Opening.reach two reached) meets hs

theorem Walking.taken_eq (h : Walking N s b ids last e c) :
    s.taken = (s.reads.length + (N - 1)) / N := by
  have inside := h.gapped.inside
  have positive : 0 < N := Nat.zero_lt_of_lt inside
  rw [h.taken, h.length]
  by_cases first : s.queue.beginPos = 0
  · rw [if_pos first, first, Nat.add_zero, Nat.mul_add_div positive,
      Nat.div_eq_of_lt (by omega), Nat.add_zero]
  · have next : N * c + s.queue.beginPos + (N - 1) = N * (c + 1) + (s.queue.beginPos - 1) := by
      rw [Nat.mul_succ]
      omega
    rw [if_neg first, next, Nat.mul_add_div positive, Nat.div_eq_of_lt (by omega), Nat.add_zero]

/-- No more was read than the chunks of the items taken hold. -/
theorem Walking.reads_le (h : Walking N s b ids last e c) : s.reads.length ≤ N * s.taken := by
  have inside := h.gapped.inside
  rw [h.length, h.taken]
  by_cases first : s.queue.beginPos = 0
  · rw [if_pos first, first]
    exact Nat.le_refl _
  · rw [if_neg first, Nat.mul_succ]
    omega

/-- All marks are first cells. -/
theorem Walking.mark_pos (h : Walking N s b ids last e c) {x : Cell}
    (hx : x ∈ marks (zmqQueue T N) s.queue s.items s.taken) : x.pos = 0 := by
  rcases List.mem_append.mp hx with item | back
  · have later : s.taken = c + (s.taken - c) := by
      have := h.taken
      split at this <;> omega
    rw [later, ← List.drop_drop, List.map_drop] at item
    have start := List.mem_of_mem_drop item
    rw [h.cells] at start
    obtain ⟨i, -, rfl⟩ := List.mem_map.mp start
    rfl
  · obtain rfl := List.mem_singleton.mp back
    exact congrArg Cell.pos h.gapped.back

/-- A reader that has caught up with its pointer is at the end of a chunk. -/
theorem Walking.caught_up (h : Walking N s b ids last e c) {exact : Prop}
    {holds : ZmqQueue T → List Cell → Prop} {cells : List Cell}
    (inv : Inv (zmqQueue T N) exact holds cells s) (limit : s.r = some s.queue.front) :
    s.reads.length = N * s.taken := by
  have fetched : s.r ≠ none := by
    rw [limit]
    exact Option.some_ne_none _
  obtain ⟨p, -, high, hp⟩ := inv.r.resolve_left fetched
  obtain ⟨x, hx, inMarks⟩ := inv.mark_isSome (Nat.le_trans high inv.visible_le_length)
  obtain rfl : s.queue.front = x := Option.some.inj (limit.symm.trans (hp.trans hx))
  have first : s.queue.beginPos = 0 := h.mark_pos inMarks
  rw [h.length, h.taken, if_pos first, first, Nat.add_zero]

/-- What was read is where the reader has come to in the chunks of the visible items, and
the items taken are as many as the chunks it has entered; it finds nothing only at the
end of a chunk. -/
theorem reads_walk_through_chunks {T : Type u} {N : ℕ} (two : 2 ≤ N)
    {s : State (ZmqQueue T) Cell T} (reached : (machine (zmqQueue T N)).ReachBy TakesNothing s) :
    s.reads <+: ((s.items.take s.visible).flatMap fun e => some e.2 :: List.replicate (N - 1) none) ∧
      s.taken = (s.reads.length + (N - 1)) / N ∧
      (s.r = some s.queue.front → s.reads.length = N * s.taken) := by
  obtain ⟨b, ids, last, e, c, h⟩ := reach_walks two reached
  obtain ⟨cells, inv⟩ := reach_marks two reached
  refine ⟨?_, h.taken_eq, h.caught_up inv⟩
  have positive : 0 < N := Nat.zero_lt_of_lt h.gapped.inside
  have visible : walk N (s.items.take s.visible) <+: walk N s.items := by
    conv_rhs => rw [← List.take_append_drop s.visible s.items, walk_append]
    exact List.prefix_append _ _
  refine List.prefix_of_prefix_length_le h.reads visible ?_
  calc s.reads.length ≤ N * s.taken := h.reads_le
    _ ≤ N * s.visible := Nat.mul_le_mul_left N inv.taken_le
    _ = (walk N (s.items.take s.visible)).length := by
      rw [walk_length positive, List.length_take_of_le inv.visible_le_length]

/-- Two items, and three reads. -/
def threeReads : List (Label ℕ) :=
  [.write 7 true, .write 8 false, .flush, .writerStep false, .read, .readerStep false,
    .readerStep false, .readerStep false, .read, .readerStep false, .read, .readerStep false]

theorem reads_walk_through_chunks_three :
    ∃ s, (machine (zmqQueue ℕ 2)).exec (start (zmqQueue ℕ 2)) threeReads = some s ∧
      s.reads = [some 7, none, some 8] ∧ s.reads <+: [some 7, none, some 8, none] ∧
      s.taken = (3 + (2 - 1)) / 2 ∧ s.r ≠ some s.queue.front := by
  have seen : ((machine (zmqQueue ℕ 2)).exec (start (zmqQueue ℕ 2)) threeReads).map
      (fun s => (s.reads, (s.items.take s.visible).map Prod.snd)) =
        some ([some 7, none, some 8], [7, 8]) := rfl
  obtain ⟨s, h, eq⟩ := Option.map_eq_some_iff.mp seen
  obtain ⟨reads, items⟩ := Prod.mk.inj eq
  have reached : (machine (zmqQueue ℕ 2)).ReachBy TakesNothing s := by
    refine Machine.reachBy_exec _ ?_ .start h
    intro l hl s called
    subst called
    simp [threeReads] at hl
  obtain ⟨walked, taken, caughtUp⟩ := reads_walk_through_chunks (Nat.le_refl 2) reached
  have all : ((s.items.take s.visible).flatMap fun e => some e.2 :: List.replicate (2 - 1) none) =
      ((s.items.take s.visible).map Prod.snd).flatMap fun v => [some v, none] := by
    rw [List.flatMap_map]
    rfl
  rw [all, items] at walked
  rw [reads] at taken caughtUp
  refine ⟨s, h, reads, walked, taken, fun limit => ?_⟩
  have := caughtUp limit
  rw [taken] at this
  cases this

end LockFreePipe
