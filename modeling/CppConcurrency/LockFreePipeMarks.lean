import CppConcurrency.LockFreePipe

/-!
# What the four pointers of a `LockFreePipe` mean

The cells of the items not yet taken, followed by the cell that ends the queue, are the
marks of the pipe; they lie in the queue in this order. Mark `k` is where item `k` is or
will be. `f` is the mark of the completed items and `w` that of the visible ones, `r` is
a mark between the taken and the visible items, and `c` is the mark of the visible ones
again, or null when the reader has found nothing more to read.
-/

namespace LockFreePipe

open Machines CellQueues

universe u v w

variable {Q : Type v} {Cell : Type w} {T : Type u} {ops : CellQueue Q Cell T} {exact : Prop}
  {holds : Q → List Cell → Prop}

/-- The cells of the items from the `n`-th on, and the cell that ends the queue. -/
def marks (ops : CellQueue Q Cell T) (q : Q) (items : List (Cell × T)) (n : ℕ) : List Cell :=
  (items.drop n).map Prod.fst ++ [ops.back q]

def State.mark (ops : CellQueue Q Cell T) (s : State Q Cell T) (k : ℕ) : Option Cell :=
  (marks ops s.queue s.items s.taken)[k - s.taken]?

structure Inv (ops : CellQueue Q Cell T) (exact : Prop) (holds : Q → List Cell → Prop)
    (cells : List Cell) (s : State Q Cell T) : Prop where
  holds : holds s.queue cells
  inside : (marks ops s.queue s.items s.taken).Sublist cells
  tight : exact → cells = marks ops s.queue s.items s.taken
  taken_le : s.taken ≤ s.visible
  visible_le : s.visible ≤ s.completed
  completed_le : s.completed ≤ s.items.length
  values : ∀ e ∈ s.items.drop s.taken, ops.load s.queue e.1 = some (some e.2)
  f : some s.f = s.mark ops s.completed
  w : s.writer ≠ .flushStore → s.w = s.mark ops s.visible
  c : s.c = s.mark ops s.visible ∨ s.c = none ∧ s.visible = s.taken
  r : s.r = none ∨ ∃ p, s.taken ≤ p ∧ p ≤ s.visible ∧ s.r = s.mark ops p
  flushing : s.writer.flushing = true → s.visible < s.completed
  flushed : ∀ ok, s.writer = .flushReturn ok → s.visible = s.completed
  writer : s.writer ≠ .undefined
  reader : s.reader ≠ .undefined
  take : s.reader = .take → s.r ≠ none ∧ s.r ≠ some (ops.front s.queue)
  reads : exact → s.reads = (s.items.take s.taken).map fun e => some e.2

section

variable {cells : List Cell} {s : State Q Cell T}

theorem marks_length (ops : CellQueue Q Cell T) (q : Q) (items : List (Cell × T)) (n : ℕ) :
    (marks ops q items n).length = items.length - n + 1 := by
  simp [marks]

/-- A new item lies where the queue ended, and the queue ends one cell further. -/
theorem marks_append {q q' : Q} {items : List (Cell × T)} {n : ℕ} (hn : n ≤ items.length)
    (value : T) : marks ops q' (items ++ [(ops.back q, value)]) n =
      marks ops q items n ++ [ops.back q'] := by
  simp [marks, List.drop_append_of_le_length hn]

theorem Inv.taken_le_length (h : Inv ops exact holds cells s) : s.taken ≤ s.items.length :=
  Nat.le_trans h.taken_le (Nat.le_trans h.visible_le h.completed_le)

theorem Inv.visible_le_length (h : Inv ops exact holds cells s) : s.visible ≤ s.items.length :=
  Nat.le_trans h.visible_le h.completed_le

theorem Inv.mark_isSome (h : Inv ops exact holds cells s) {k : ℕ} (hk : k ≤ s.items.length) :
    ∃ x, s.mark ops k = some x ∧ x ∈ marks ops s.queue s.items s.taken := by
  have := marks_length ops s.queue s.items s.taken
  have := h.taken_le_length
  have inside : k - s.taken < (marks ops s.queue s.items s.taken).length := by omega
  exact ⟨_, List.getElem?_eq_getElem inside, List.getElem_mem inside⟩

/-- Between its calls the writer has `w` at the mark of the visible items. -/
theorem Inv.w_of_atRest (h : Inv ops exact holds cells s) (rest : s.writer.atRest = true) :
    s.w = s.mark ops s.visible := by
  apply h.w
  intro storing
  rw [storing] at rest
  cases rest

variable (contract : Contract ops exact holds)

include contract

theorem Inv.nodup (h : Inv ops exact holds cells s) : (marks ops s.queue s.items s.taken).Nodup :=
  h.inside.nodup (contract.nodup h.holds)

theorem Inv.mark_inj (h : Inv ops exact holds cells s) {i j : ℕ} (hi : s.taken ≤ i)
    (hj : s.taken ≤ j) (hi' : i ≤ s.items.length) (same : s.mark ops i = s.mark ops j) :
    i = j := by
  have len := marks_length ops s.queue s.items s.taken
  have eq := (List.getElem?_inj (by omega) (h.nodup contract)).mp same
  omega

/-- The queue ends with its back. -/
theorem Inv.ends (h : Inv ops exact holds cells s) :
    ∃ init, cells = init ++ [ops.back s.queue] := by
  have nonempty : cells ≠ [] := by
    rintro rfl
    have := h.inside
    simp [marks] at this
  have ends := List.dropLast_append_getLast nonempty
  have back := contract.back (ends ▸ h.holds)
  exact ⟨cells.dropLast, by rw [back, ends]⟩

/-- The front is the first cell. -/
theorem Inv.begins (h : Inv ops exact holds cells s) :
    ∃ rest, cells = ops.front s.queue :: rest := by
  obtain ⟨init, ends⟩ := h.ends contract
  cases cells with
  | nil => simp at ends
  | cons a rest => exact ⟨rest, by rw [contract.front h.holds]⟩

/-- A mark at the front is the first mark. -/
theorem Inv.first_mark (h : Inv ops exact holds cells s) {k : ℕ} (hk : s.taken ≤ k)
    (hk' : k ≤ s.items.length) (front : some (ops.front s.queue) = s.mark ops k) : k = s.taken := by
  obtain ⟨rest, begins⟩ := h.begins contract
  have nodup := contract.nodup h.holds
  have sub := h.inside
  cases hm : marks ops s.queue s.items s.taken with
  | nil => simp [marks] at hm
  | cons a tail =>
    have member : ops.front s.queue ∈ marks ops s.queue s.items s.taken :=
      List.mem_of_getElem? front.symm
    rw [hm] at sub member
    rw [begins] at sub nodup
    have first : a = ops.front s.queue := by
      rcases List.mem_cons.mp member with rfl | later
      · rfl
      · cases sub with
        | cons _ sub' =>
          exact absurd (sub'.subset (List.mem_cons_of_mem _ later)) (List.nodup_cons.mp nodup).1
        | cons_cons _ sub' => rfl
    have zero : some (ops.front s.queue) = s.mark ops s.taken := by
      rw [State.mark, Nat.sub_self, hm, ← first]
      rfl
    exact h.mark_inj contract hk (Nat.le_refl _) hk' (front.symm.trans zero)

end

/-! ### The writer's steps -/

section Writer

variable {cells : List Cell} {s s' : State Q Cell T} (contract : Contract ops exact holds)

include contract

theorem start_inv : ∃ cells, Inv ops exact holds cells (start ops) := by
  obtain ⟨q, c, pushed, hq⟩ := contract.start
  have back : ops.back q = c := contract.back (show holds q ([] ++ [c]) from hq)
  have begun : start ops = ⟨q, some c, some c, c, some c, .rest, .rest, [], 0, 0, 0, [], false⟩ := by
    simp [start, pushed, back]
  have only : marks ops q ([] : List (Cell × T)) 0 = [c] := by simp [marks, back]
  have zero : some c = (start ops).mark ops 0 := by
    rw [State.mark, begun]
    simp [only]
  rw [begun] at zero ⊢
  exact ⟨[c], {
    holds := hq
    inside := by rw [only]
    tight := fun _ => only.symm
    taken_le := Nat.le_refl 0
    visible_le := Nat.le_refl 0
    completed_le := Nat.le_refl 0
    values := fun e he => by cases he
    f := zero
    w := fun _ => zero
    c := Or.inl zero
    r := Or.inr ⟨0, Nat.le_refl 0, Nat.le_refl 0, zero⟩
    flushing := fun busy => by cases busy
    flushed := fun _ returned => by cases returned
    writer := fun wrong => by cases wrong
    reader := fun wrong => by cases wrong
    take := fun taking => by cases taking
    reads := fun _ => rfl }⟩

/-- Writing an item adds a mark and moves none. -/
theorem Inv.write (h : Inv ops exact holds cells s) (rest : s.writer.atRest = true) (value : T)
    (incomplete : Bool) :
    ∃ cells', Inv ops exact holds cells' (write ops s value incomplete) ∧
      ops.front (write ops s value incomplete).queue = ops.front s.queue := by
  obtain ⟨init, rfl⟩ := h.ends contract
  have here : ops.back s.queue ∈ init ++ [ops.back s.queue] := by simp
  obtain ⟨q₁, stored, hq₁, written, kept⟩ := contract.store h.holds here value
  obtain ⟨q₂, gap, d, pushed, hq₂, exactly, kept'⟩ := contract.push hq₁
  have taken := h.taken_le_length
  have back : ops.back q₂ = d := contract.back hq₂
  have front : ops.front q₂ = ops.front s.queue := by
    obtain ⟨later, begins⟩ := h.begins contract
    rw [begins] at hq₂
    exact contract.front hq₂
  have grown : marks ops q₂ (s.items ++ [(ops.back s.queue, value)]) s.taken =
      marks ops s.queue s.items s.taken ++ [d] := by rw [marks_append taken, back]
  have len := marks_length ops s.queue s.items s.taken
  have same : ∀ k, k ≤ s.items.length → s.mark ops k =
      (marks ops q₂ (s.items ++ [(ops.back s.queue, value)]) s.taken)[k - s.taken]? := by
    intro k hk
    rw [grown, List.getElem?_append_left (by omega)]
    rfl
  have result : LockFreePipe.write ops s value incomplete = { s with
      queue := q₂
      f := if incomplete then s.f else d
      writer := .writeReturn
      items := s.items ++ [(ops.back s.queue, value)]
      completed := if incomplete then s.completed else s.items.length + 1 } := by
    simp [LockFreePipe.write, stored, pushed, back]
  rw [result]
  refine ⟨init ++ [ops.back s.queue] ++ gap ++ [d], ⟨{
    holds := hq₂
    inside := ?inside
    tight := ?tight
    taken_le := h.taken_le
    visible_le := ?visible
    completed_le := ?completed
    values := ?values
    f := ?f
    w := fun _ => (h.w_of_atRest rest).trans (same _ h.visible_le_length)
    c := h.c.imp_left fun hc => hc.trans (same _ h.visible_le_length)
    r := ?r
    flushing := fun busy => by cases busy
    flushed := fun _ returned => by cases returned
    writer := fun wrong => by cases wrong
    reader := h.reader
    take := fun taking => by rw [front]; exact h.take taking
    reads := ?reads }, front⟩⟩
  case inside =>
    rw [grown]
    exact (h.inside.trans (List.sublist_append_left _ gap)).append_right [d]
  case tight =>
    intro tight
    rw [grown, ← h.tight tight, exactly tight, List.append_nil]
  case visible =>
    have := h.visible_le_length
    dsimp only
    split
    · exact h.visible_le
    · omega
  case completed =>
    have := h.completed_le
    dsimp only
    rw [List.length_append, List.length_singleton]
    split <;> omega
  case values =>
    intro e he
    dsimp only at he ⊢
    rw [List.drop_append_of_le_length taken] at he
    rcases List.mem_append.mp he with old | new
    · have inMarks : e.1 ∈ (s.items.drop s.taken).map Prod.fst := List.mem_map_of_mem old
      have inCells := h.inside.subset (List.mem_append_left _ inMarks)
      have other : e.1 ≠ ops.back s.queue := fun eq =>
        (List.nodup_append.mp (h.nodup contract)).2.2 e.1 inMarks _ (List.mem_singleton_self _) eq
      rw [kept' e.1 inCells, kept e.1 inCells other]
      exact h.values e old
    · obtain rfl := List.mem_singleton.mp new
      exact (kept' _ here).trans written
  case f =>
    cases incomplete with
    | true => exact h.f.trans (same _ h.completed_le)
    | false =>
      have last : s.items.length + 1 - s.taken = (marks ops s.queue s.items s.taken).length := by
        omega
      change some d = (marks ops q₂ _ s.taken)[s.items.length + 1 - s.taken]?
      rw [grown, last, List.getElem?_append_right (Nat.le_refl _), Nat.sub_self]
      rfl
  case r =>
    apply h.r.imp_right
    rintro ⟨p, low, high, hp⟩
    have := h.visible_le_length
    exact ⟨p, low, high, hp.trans (same p (by omega))⟩
  case reads =>
    intro tight
    dsimp only
    rw [List.take_append_of_le_length taken]
    exact h.reads tight

omit contract in
/-- The queue ends with the mark behind the last item. -/
theorem State.last_mark (s : State Q Cell T) :
    s.mark ops s.items.length = some (ops.back s.queue) := by
  have short : ((s.items.drop s.taken).map Prod.fst).length = s.items.length - s.taken := by simp
  rw [State.mark, marks, ← short, List.getElem?_append_right (Nat.le_refl _), Nat.sub_self]
  rfl

/-- What `unwrite` asks about its pointers is whether every item is complete. -/
theorem Inv.f_back (h : Inv ops exact holds cells s) :
    s.f = ops.back s.queue ↔ s.completed = s.items.length := by
  rw [← Option.some_inj, h.f, ← s.last_mark]
  constructor
  · have taken := Nat.le_trans h.taken_le h.visible_le
    exact h.mark_inj contract taken h.taken_le_length h.completed_le
  · intro all
    rw [all]

omit contract in
theorem Inv.unwrite_refused [DecidableEq Cell] (h : Inv ops exact holds cells s)
    (none : s.f = ops.back s.queue) (rest : s.writer.atRest = true) :
    Inv ops exact holds cells (unwrite ops s) := by
  rw [LockFreePipe.unwrite, if_pos none]
  exact { h with
    w := fun _ => h.w_of_atRest rest
    flushing := fun busy => by cases busy
    flushed := fun _ returned => by cases returned
    writer := fun wrong => by cases wrong }

/-- Taking an item back removes the last mark, no pointer is on it, and its value is returned. -/
theorem Inv.unwrite [DecidableEq Cell] (h : Inv ops exact holds cells s) (exactly : exact)
    (rest : s.writer.atRest = true) :
    ∃ cells', Inv ops exact holds cells' (unwrite ops s) ∧
      ops.front (unwrite ops s).queue = ops.front s.queue ∧
      ∀ value, (unwrite ops s).writer = .unwriteReturn (some value) →
        ∃ e, s.items = (unwrite ops s).items ++ [e] ∧ value = some e.2 := by
  by_cases none : s.f = ops.back s.queue
  · refine ⟨cells, h.unwrite_refused none rest, ?_⟩
    rw [LockFreePipe.unwrite, if_pos none]
    exact ⟨rfl, fun value wrong => by cases wrong⟩
  have taken := h.taken_le_length
  have len := marks_length ops s.queue s.items s.taken
  have more : s.completed < s.items.length :=
    Nat.lt_of_le_of_ne h.completed_le fun all => none ((h.f_back contract).mpr all)
  have taken' := Nat.lt_of_le_of_lt (Nat.le_trans h.taken_le h.visible_le) more
  obtain ⟨items, ⟨x, v⟩, hitems⟩ : ∃ items e, s.items = items ++ [e] := by
    have nonempty : s.items ≠ [] := List.ne_nil_of_length_pos (by omega)
    exact ⟨_, _, (List.dropLast_append_getLast nonempty).symm⟩
  have length : s.items.length = items.length + 1 := by rw [hitems]; simp
  have drop : s.items.drop s.taken = items.drop s.taken ++ [(x, v)] := by
    rw [hitems, List.drop_append_of_le_length (by omega)]
  have whole : cells = (items.drop s.taken).map Prod.fst ++ [x, ops.back s.queue] := by
    rw [h.tight exactly, marks, drop]
    simp
  obtain ⟨q, undone, hq, kept⟩ := contract.unpush exactly (whole ▸ h.holds)
  have back : ops.back q = x := contract.back hq
  have value : ops.load q x = some (some v) := by
    rw [kept x (by simp)]
    exact h.values (x, v) (by rw [drop]; simp)
  have shrunk : marks ops s.queue s.items s.taken =
      marks ops q items s.taken ++ [ops.back s.queue] := by
    rw [marks, marks, drop, back]
    simp
  have same : ∀ k, k ≤ items.length →
      s.mark ops k = (marks ops q items s.taken)[k - s.taken]? := by
    intro k hk
    have := marks_length ops q items s.taken
    rw [State.mark, shrunk, List.getElem?_append_left (by omega)]
  have front : ops.front q = ops.front s.queue := by
    obtain ⟨later, begins⟩ := h.begins contract
    cases hd : (items.drop s.taken).map Prod.fst with
    | nil =>
      rw [hd] at hq whole
      rw [whole] at begins
      rw [contract.front hq]
      exact (List.cons.inj begins).1
    | cons a tail =>
      rw [hd] at hq whole
      rw [whole] at begins
      rw [contract.front hq]
      exact (List.cons.inj begins).1
  have result : LockFreePipe.unwrite ops s = { s with
      queue := q, writer := .unwriteReturn (some (some v)), items := items } := by
    simp [LockFreePipe.unwrite, none, undone, back, value, hitems]
  rw [result]
  have visible := h.visible_le
  refine ⟨_, ⟨{
    holds := hq
    inside := by rw [marks, back]
    tight := fun _ => by rw [marks, back]
    taken_le := h.taken_le
    visible_le := visible
    completed_le := by dsimp only; omega
    values := ?values
    f := h.f.trans (same _ (by omega))
    w := fun _ => (h.w_of_atRest rest).trans (same _ (by omega))
    c := h.c.imp_left fun hc => hc.trans (same _ (by omega))
    r := ?r
    flushing := fun busy => by cases busy
    flushed := fun _ returned => by cases returned
    writer := fun wrong => by cases wrong
    reader := h.reader
    take := fun taking => by rw [front]; exact h.take taking
    reads := ?reads }, front, ?returned⟩⟩
  case returned =>
    rintro value ⟨⟩
    exact ⟨(x, v), hitems, rfl⟩
  case values =>
    intro e he
    have inCells : e.1 ∈ (items.drop s.taken).map Prod.fst ++ [x] :=
      List.mem_append_left _ (List.mem_map_of_mem he)
    dsimp only
    rw [kept e.1 inCells]
    exact h.values e (by rw [drop]; exact List.mem_append_left _ he)
  case r =>
    apply h.r.imp_right
    rintro ⟨p, low, high, hp⟩
    exact ⟨p, low, high, hp.trans (same p (by omega))⟩
  case reads =>
    intro tight
    dsimp only
    rw [h.reads tight, hitems, List.take_append_of_le_length (by omega)]

/-- A flush with nothing new to publish returns at once. -/
theorem Inv.flush [DecidableEq Cell] (h : Inv ops exact holds cells s) (rest : s.writer.atRest = true) :
    Inv ops exact holds cells (flush s) := by
  have w := h.w_of_atRest rest
  rw [LockFreePipe.flush]
  by_cases same : s.w = some s.f
  · rw [if_pos same]
    exact { h with
      w := fun _ => w
      flushing := fun busy => by cases busy
      flushed := fun _ _ => h.mark_inj contract h.taken_le (Nat.le_trans h.taken_le h.visible_le)
        h.visible_le_length (w.symm.trans (same.trans h.f))
      writer := fun wrong => by cases wrong }
  · rw [if_neg same]
    refine { h with
      w := fun _ => w
      flushing := fun _ => ?_
      flushed := fun _ returned => by cases returned
      writer := fun wrong => by cases wrong }
    have := h.visible_le
    by_contra equal
    have eq : s.visible = s.completed := Nat.le_antisymm this (Nat.le_of_not_lt equal)
    exact same (w.trans (eq ▸ h.f.symm))

omit contract in
/-- The flush that stores `w` makes all completed items visible. -/
theorem Inv.publish (h : Inv ops exact holds cells s) (ok rang : Bool) :
    Inv ops exact holds cells { s with
      c := some s.f, w := some s.f, writer := .flushReturn ok, visible := s.completed, rang := rang } :=
  { h with
    taken_le := Nat.le_trans h.taken_le h.visible_le
    visible_le := Nat.le_refl _
    w := fun _ => h.f
    c := Or.inl h.f
    r := h.r.imp_right fun ⟨p, low, high, hp⟩ => ⟨p, low, Nat.le_trans high h.visible_le, hp⟩
    flushing := fun busy => by cases busy
    flushed := fun _ _ => rfl
    writer := fun wrong => by cases wrong }

omit contract in
theorem Inv.advanceWriter [DecidableEq Cell] (h : Inv ops exact holds cells s) {spurious : Bool}
    (hs : advanceWriter s spurious = some s') : Inv ops exact holds cells s' := by
  rcases advanceWriter_cases hs with ⟨-, rfl, -⟩ | ⟨hw, rfl⟩ | ⟨-, rfl⟩
  · exact h.publish true s.rang
  · exact { h with
      w := fun storing => absurd rfl storing
      flushing := fun _ => h.flushing (by rw [hw]; rfl)
      flushed := fun _ returned => by cases returned
      writer := fun wrong => by cases wrong }
  · exact h.publish false true

end Writer

/-! ### The reader's steps -/

/-- The queue after a pop of its front cell, which is not the one that `r` points to. -/
structure Popping (ops : CellQueue Q Cell T) (holds : Q → List Cell → Prop) (cells : List Cell)
    (s : State Q Cell T) (p : ℕ) (d : Cell) (rest : List Cell) (value : Option T) (q : Q) : Prop where
  low : s.taken ≤ p
  high : p ≤ s.visible
  r : s.r = s.mark ops p
  notFront : s.mark ops p ≠ some (ops.front s.queue)
  begins : cells = ops.front s.queue :: d :: rest
  loaded : ops.load s.queue (ops.front s.queue) = some value
  popped : ops.pop s.queue = some q
  holds : holds q (d :: rest)
  back : ops.back q = ops.back s.queue
  kept : ∀ x ∈ d :: rest, ops.load q x = ops.load s.queue x

section Reader

variable {cells : List Cell} {s s' : State Q Cell T} [DecidableEq Cell]

theorem Inv.checkRead (h : Inv ops exact holds cells s) (reading : Bool) :
    Inv ops exact holds cells (checkRead ops s reading) := by
  rw [LockFreePipe.checkRead]
  by_cases prefetched : some (ops.front s.queue) ≠ s.r ∧ s.r ≠ none
  · rw [if_pos prefetched]
    exact { h with
      reader := by dsimp only; split <;> exact fun wrong => by cases wrong
      take := fun _ => ⟨prefetched.2, Ne.symm prefetched.1⟩ }
  · rw [if_neg prefetched]
    exact { h with
      reader := fun wrong => by cases wrong
      take := fun taking => by cases taking }

variable (contract : Contract ops exact holds)

include contract

/-- What `check_read` finds at the front when it has loaded `c`. -/
theorem Inv.exchange (h : Inv ops exact holds cells s) {spurious : Bool} {reading : Bool}
    (hr : s.reader = .exchange reading) (hs : advanceReader ops s spurious = some s') :
    Inv ops exact holds cells s' := by
  simp only [advanceReader, hr] at hs
  obtain rfl := Option.some.inj hs
  refine { h with
    c := ?c
    reader := ?reader
    take := ?take }
  case c =>
    dsimp only
    by_cases found : s.c = some (ops.front s.queue) ∧ spurious = false
    · rw [if_pos found]
      refine Or.inr ⟨rfl, ?_⟩
      rcases h.c with hc | ⟨hc, -⟩
      · exact h.first_mark contract h.taken_le h.visible_le_length (found.1.symm.trans hc)
      · rw [hc] at found
        cases found.1
    · rw [if_neg found]
      exact h.c
  case reader =>
    dsimp only
    split
    · split <;> exact fun wrong => by cases wrong
    · split <;> exact fun wrong => by cases wrong
  case take =>
    dsimp only
    split
    · split <;> exact fun taking => by cases taking
    · rename_i fetched
      exact fun _ => ⟨fun null => fetched (Or.inr null), fun same => fetched (Or.inl same.symm)⟩

omit [DecidableEq Cell] in
/-- A reader that goes on has a cell to pop, and the queue keeps its end. -/
theorem Inv.popped (h : Inv ops exact holds cells s) (hr : s.reader = .take) :
    ∃ p d rest value q, Popping ops holds cells s p d rest value q := by
  obtain ⟨notNull, notFront⟩ := h.take hr
  obtain ⟨p, low, high, hp⟩ := h.r.resolve_left notNull
  have visible := h.visible_le_length
  obtain ⟨x, hx, inMarks⟩ := h.mark_isSome (k := p) (by omega)
  have inCells := h.inside.subset inMarks
  obtain ⟨rest, begins⟩ := h.begins contract
  obtain ⟨init, ends⟩ := h.ends contract
  have other : x ≠ ops.front s.queue := fun same => notFront (hp.trans (hx.trans (by rw [same])))
  cases rest with
  | nil =>
    rw [begins] at inCells
    exact absurd (List.mem_singleton.mp inCells) other
  | cons d rest =>
    have hq := h.holds
    rw [begins] at hq
    obtain ⟨q, popped, hq', kept⟩ := contract.pop hq
    obtain ⟨value, loaded⟩ := Option.isSome_iff_exists.mp (contract.load hq List.mem_cons_self)
    have back : ops.back q = ops.back s.queue := by
      rw [begins] at ends
      cases init with
      | nil => simp at ends
      | cons a init =>
        rw [List.cons_append] at ends
        rw [(List.cons.inj ends).2] at hq'
        exact contract.back hq'
    exact ⟨p, d, rest, value, q, low, high, hp, fun same => notFront (hp.trans same), begins,
      loaded, popped, hq', back, kept⟩

omit [DecidableEq Cell] contract in
/-- Popping the first item's own cell: the first mark goes. -/
theorem Inv.pop_item (h : Inv ops exact holds cells s) {p : ℕ} {d : Cell} {rest : List Cell}
    {value : Option T} {q : Q} (pop : Popping ops holds cells s p d rest value q)
    (item : (s.items[s.taken]?).map Prod.fst = some (ops.front s.queue)) :
    Inv ops exact holds (d :: rest) { s with
      queue := q
      reader := .readReturn (some value)
      taken := s.taken + 1
      reads := s.reads ++ [value] } := by
  obtain ⟨⟨x, v⟩, he, hx⟩ := Option.map_eq_some_iff.mp item
  obtain rfl : x = ops.front s.queue := hx
  obtain ⟨more, hv⟩ := List.getElem?_eq_some_iff.mp he
  have drop : s.items.drop s.taken = (ops.front s.queue, v) :: s.items.drop (s.taken + 1) := by
    rw [← hv, List.drop_eq_getElem_cons more]
  have shrunk : marks ops s.queue s.items s.taken =
      ops.front s.queue :: marks ops q s.items (s.taken + 1) := by
    rw [marks, marks, drop, pop.back]
    rfl
  have first : s.mark ops s.taken = some (ops.front s.queue) := by
    rw [State.mark, Nat.sub_self, shrunk]
    rfl
  have beyond : s.taken < p := by
    rcases Nat.lt_or_eq_of_le pop.low with lt | eq
    · exact lt
    · exact absurd (eq ▸ first) pop.notFront
  have same : ∀ k, s.taken + 1 ≤ k →
      s.mark ops k = (marks ops q s.items (s.taken + 1))[k - (s.taken + 1)]? := by
    intro k hk
    have step : k - s.taken = k - (s.taken + 1) + 1 := by omega
    rw [State.mark, shrunk, step, List.getElem?_cons_succ]
  have high := pop.high
  have completed := h.visible_le
  have sub := h.inside
  rw [pop.begins, shrunk] at sub
  refine {
    holds := pop.holds
    inside := List.cons_sublist_cons.mp sub
    tight := fun tight => ?tight
    taken_le := by dsimp only; omega
    visible_le := h.visible_le
    completed_le := h.completed_le
    values := ?values
    f := h.f.trans (same _ (by omega))
    w := fun storing => (h.w storing).trans (same _ (by omega))
    c := ?c
    r := Or.inr ⟨p, beyond, high, pop.r.trans (same p beyond)⟩
    flushing := h.flushing
    flushed := h.flushed
    writer := h.writer
    reader := fun wrong => by cases wrong
    take := fun taking => by cases taking
    reads := ?reads }
  case tight =>
    have := h.tight tight
    rw [pop.begins, shrunk] at this
    exact (List.cons.inj this).2
  case values =>
    intro e he
    have inMarks : e.1 ∈ marks ops q s.items (s.taken + 1) :=
      List.mem_append_left _ (List.mem_map_of_mem he)
    have inCells := (List.cons_sublist_cons.mp sub).subset inMarks
    dsimp only
    rw [pop.kept e.1 inCells]
    exact h.values e (by rw [drop]; exact List.mem_cons_of_mem _ he)
  case c =>
    rcases h.c with hc | ⟨hc, caught⟩
    · exact Or.inl (hc.trans (same _ (by omega)))
    · omega
  case reads =>
    intro tight
    have written := h.values (ops.front s.queue, v) (by rw [drop]; exact List.mem_cons_self)
    obtain rfl : value = some v := Option.some.inj (pop.loaded.symm.trans written)
    dsimp only
    rw [h.reads tight, List.take_succ_eq_append_getElem more, hv, List.map_append]
    rfl

omit [DecidableEq Cell] contract in
/-- Popping a cell between two items: the marks stay. -/
theorem Inv.pop_between (h : Inv ops exact holds cells s) {p : ℕ} {d : Cell} {rest : List Cell}
    {value : Option T} {q : Q} (pop : Popping ops holds cells s p d rest value q)
    (item : (s.items[s.taken]?).map Prod.fst ≠ some (ops.front s.queue)) :
    Inv ops exact holds (d :: rest) { s with
      queue := q
      reader := .readReturn (some value)
      reads := s.reads ++ [value] } := by
  have taken := h.taken_le_length
  have visible := h.visible_le_length
  obtain ⟨low, high⟩ := And.intro pop.low pop.high
  have notFirst : ∀ tail, marks ops s.queue s.items s.taken ≠ ops.front s.queue :: tail := by
    intro tail first
    have zero : s.mark ops s.taken = some (ops.front s.queue) := by
      rw [State.mark, Nat.sub_self, first]
      rfl
    rcases Nat.lt_or_eq_of_le taken with more | none
    · rw [marks, List.drop_eq_getElem_cons more] at first
      rw [List.getElem?_eq_getElem more] at item
      exact item (congrArg some (List.cons.inj first).1)
    · obtain rfl : p = s.taken := by omega
      exact pop.notFront zero
  have same : marks ops q s.items s.taken = marks ops s.queue s.items s.taken := by
    rw [marks, marks, pop.back]
  have sub := h.inside
  rw [pop.begins] at sub
  have inside : (marks ops s.queue s.items s.taken).Sublist (d :: rest) := by
    cases hm : marks ops s.queue s.items s.taken with
    | nil => exact List.nil_sublist _
    | cons a tail =>
      rw [hm] at sub
      cases sub with
      | cons _ sub' => exact sub'
      | cons_cons _ sub' => exact absurd hm (notFirst tail)
  have marked : ∀ k, s.mark ops k = (marks ops q s.items s.taken)[k - s.taken]? := by
    intro k
    rw [same]
    rfl
  refine {
    holds := pop.holds
    inside := same ▸ inside
    tight := fun tight => absurd ((h.tight tight).symm.trans pop.begins) (notFirst _)
    taken_le := h.taken_le
    visible_le := h.visible_le
    completed_le := h.completed_le
    values := ?values
    f := h.f.trans (marked _)
    w := fun storing => (h.w storing).trans (marked _)
    c := h.c.imp_left fun hc => hc.trans (marked _)
    r := Or.inr ⟨p, low, high, pop.r.trans (marked p)⟩
    flushing := h.flushing
    flushed := h.flushed
    writer := h.writer
    reader := fun wrong => by cases wrong
    take := fun taking => by cases taking
    reads := fun tight => absurd ((h.tight tight).symm.trans pop.begins) (notFirst _) }
  case values =>
    intro e he
    have inCells := inside.subset (List.mem_append_left _ (List.mem_map_of_mem he))
    dsimp only
    rw [pop.kept e.1 inCells]
    exact h.values e he

/-- Popping the front cell: it is the first item's, or no item's. -/
theorem Inv.taking (h : Inv ops exact holds cells s) {spurious : Bool} (hr : s.reader = .take)
    (hs : advanceReader ops s spurious = some s') :
    ∃ cells', Inv ops exact holds cells' s' := by
  obtain ⟨p, d, rest, value, q, pop⟩ := h.popped contract hr
  simp only [advanceReader, hr, pop.loaded, pop.popped, Option.bind_some, Option.map_some] at hs
  obtain rfl := Option.some.inj hs
  by_cases item : (s.items[s.taken]?).map Prod.fst = some (ops.front s.queue)
  · rw [if_pos item]
    exact ⟨d :: rest, h.pop_item pop item⟩
  · rw [if_neg item]
    exact ⟨d :: rest, h.pop_between pop item⟩

theorem Inv.advanceReader (h : Inv ops exact holds cells s) {spurious : Bool}
    (hs : advanceReader ops s spurious = some s') :
    ∃ cells', Inv ops exact holds cells' s' := by
  cases hr : s.reader with
  | load reading =>
    simp only [LockFreePipe.advanceReader, hr] at hs
    obtain rfl := Option.some.inj hs
    exact ⟨cells, { h with
      r := h.c.symm.imp (fun null => null.1) fun hc => ⟨_, h.taken_le, Nat.le_refl _, hc⟩
      reader := fun wrong => by cases wrong
      take := fun taking => by cases taking }⟩
  | exchange reading => exact ⟨cells, h.exchange contract hr hs⟩
  | take => exact h.taking contract hr hs
  | _ =>
    simp only [LockFreePipe.advanceReader, hr] at hs
    cases hs

/-- Every step keeps the invariant; only an exact queue lets items be taken back. -/
theorem Inv.next (h : Inv ops exact holds cells s) {l : Label T}
    (kind : l = .unwrite → exact ∨ s.f = ops.back s.queue)
    (hs : next ops s l = some s') : ∃ cells', Inv ops exact holds cells' s' := by
  cases next_step ops hs with
  | write rest value incomplete =>
    obtain ⟨cells', after, -⟩ := h.write contract rest value incomplete
    exact ⟨cells', after⟩
  | unwrite rest =>
    rcases kind rfl with exactly | none
    · obtain ⟨cells', after, -⟩ := h.unwrite contract exactly rest
      exact ⟨cells', after⟩
    · exact ⟨cells, h.unwrite_refused none rest⟩
  | flush rest => exact ⟨cells, h.flush contract rest⟩
  | writerStep moved => exact ⟨cells, h.advanceWriter moved⟩
  | checkRead rest => exact ⟨cells, h.checkRead false⟩
  | read rest => exact ⟨cells, h.checkRead true⟩
  | readerStep moved => exact h.advanceReader contract moved

theorem reachBy_inv {C : State Q Cell T → Label T → Prop}
    (kind : ∀ s l, C s l → l = .unwrite → exact ∨ s.f = ops.back s.queue) {s : State Q Cell T}
    (reached : (machine ops).ReachBy C s) : ∃ cells, Inv ops exact holds cells s :=
  Machine.ReachBy.invariant _ (P := fun s => ∃ cells, Inv ops exact holds cells s)
    (start_inv contract) (fun _ _ _ ⟨_, h⟩ meets hs => h.next contract (kind _ _ meets) hs) reached

end Reader

end LockFreePipe
