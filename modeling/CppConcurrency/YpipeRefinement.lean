import CppConcurrency.Ypipe
import CppConcurrency.YqueueSafety

/-!
# `ypipe_t` answers like a pipe

Under every interleaving the calls return, in the order of their returns, what a pipe
would answer. Element `n` of the queue is item `n`, and the element after the items is the
cell that ends the queue: `f` is the cell of the first incomplete item, `w` that of the
first item not handed over, `r` lies between the front and `w`, and `c` is `w`, or null
while the reader sleeps.
-/

namespace Ypipe

open Machines DataChunkQueue Pipes SequentialObjects

universe u

variable {T : Type u} {N : ℕ} {s s' : State T} {p p' : Pipe T}

/-- How far the writer's call has got. An item that is being taken back is not counted
among the elements any more. -/
inductive WriterAt (q : Yqueue.State T) (c : Option Cell) (p : Pipe T) : Writer T → Prop where
  | rests (stage : q.threads.writer = .rests) (tail : q.tail = p.items.length + 1) :
      WriterAt q c p .rests
  | pushes {value : T} {incomplete : Bool}
      (stage : q.threads.writer = .rests ∨ Yqueue.pushing q.threads.writer = true)
      (tail : q.tail = p.items.length + 1) (stored : q.value p.items.length = some value) :
      WriterAt q c p (.pushes value incomplete)
  | unpushes (stage : Yqueue.unpushing q.threads.writer = true) (tail : q.tail = p.items.length)
      (some : p.completed < p.items.length) : WriterAt q c p .unpushes
  | takesBack (stage : q.threads.writer = .rests) (tail : q.tail = p.items.length)
      (some : p.completed < p.items.length) : WriterAt q c p .takesBack
  | exchanges (stage : q.threads.writer = .rests) (tail : q.tail = p.items.length + 1)
      (other : p.visible ≠ p.completed) : WriterAt q c p .exchanges
  | sets (stage : q.threads.writer = .rests) (tail : q.tail = p.items.length + 1)
      (other : p.visible ≠ p.completed) (asleep : c = none) : WriterAt q c p .sets

/-- How far the reader's call has got. Past the first line of `pop` the element of the item
is gone, although the item counts as read only when `read` returns. -/
inductive ReaderAt (q : Yqueue.State T) (r : Option Cell) (p : Pipe T) : Reader T → Prop where
  | rests (stage : q.threads.reader = .rests) (front : q.front = p.taken) : ReaderAt q r p .rests
  | exchanges {reading : Bool} (stage : q.threads.reader = .rests) (front : q.front = p.taken) :
      ReaderAt q r p (.exchanges reading)
  | takes (stage : q.threads.reader = .rests) (front : q.front = p.taken)
      (fetched : ∃ n, r = some (q.cell n) ∧ p.taken < n ∧ n ≤ p.visible) : ReaderAt q r p .takes
  | pops {value : T}
      (front : q.threads.reader = .rests ∧ q.front = p.taken ∨
        q.threads.reader ≠ .rests ∧ q.front = p.taken + 1)
      (fetched : ∃ n, r = some (q.cell n) ∧ p.taken < n ∧ n ≤ p.visible)
      (item : p.items[p.taken]? = some value) : ReaderAt q r p (.pops value)

variable {q : Yqueue.State T} {r c : Option Cell} {writer : Writer T} {reader : Reader T}

theorem WriterAt.completed_lt (h : WriterAt q c p writer) (lawful : Lawful p) :
    p.completed < q.tail := by
  have completed := lawful.completed_le
  cases h with
  | rests _ tail | pushes _ tail | exchanges _ tail | sets _ tail => omega
  | unpushes _ tail some | takesBack _ tail some => omega

theorem ReaderAt.front_le (h : ReaderAt q r p reader) (lawful : Lawful p) : q.front ≤ p.visible := by
  have taken := lawful.taken_le
  cases h with
  | rests _ front | exchanges _ front | takes _ front => exact front ▸ taken
  | pops front fetched =>
    obtain ⟨n, -, before, le⟩ := fetched
    rcases front with ⟨-, front⟩ | ⟨-, front⟩ <;> omega

structure Inv (N : ℕ) (s : State T) (p : Pipe T) : Prop where
  queue : (Yqueue.machine T N).Reach s.queue
  lawful : Lawful p
  w : s.w = s.queue.cell p.visible
  f : s.f = s.queue.cell p.completed
  c : s.c = if p.asleep then none else some (s.queue.cell p.visible)
  r : s.r = none ∨ ∃ n, s.r = some (s.queue.cell n) ∧ s.queue.front ≤ n ∧ n ≤ p.visible
  writer : WriterAt s.queue s.c p s.writer
  reader : ReaderAt s.queue s.r p s.reader
  values : ∀ n x, s.queue.front ≤ n → p.items[n]? = some x → s.queue.value n = some x

namespace Inv

/-- What the elements of the queue are at this moment. -/
theorem kept (h : Inv N s p) (positive : 1 ≤ N) : Yqueue.Kept N s.queue := by
  obtain ⟨_, _, _, inv⟩ := Yqueue.reach_inv positive h.queue
  exact inv.kept

theorem front_le (h : Inv N s p) : s.queue.front ≤ p.visible := h.reader.front_le h.lawful

theorem completed_lt (h : Inv N s p) : p.completed < s.queue.tail := h.writer.completed_lt h.lawful

/-- The cells from the front to the first incomplete item are distinct. -/
theorem cell_inj (h : Inv N s p) (positive : 1 ≤ N) {m n : ℕ} (low : s.queue.front ≤ m)
    (high : m < s.queue.tail) (low' : s.queue.front ≤ n) (high' : n < s.queue.tail) :
    s.queue.cell m = s.queue.cell n ↔ m = n :=
  ⟨(h.kept positive).distinct m n low high low' high', fun same => same ▸ rfl⟩

theorem front_eq (h : Inv N s p) (positive : 1 ≤ N) (stage : s.queue.threads.reader = .rests) :
    s.front = s.queue.cell s.queue.front := by
  have := h.front_le
  have := h.lawful.visible_le
  have := h.completed_lt
  exact (h.kept positive).front stage (by omega)

theorem back_eq (h : Inv N s p) (positive : 1 ≤ N) (stage : s.queue.threads.writer = .rests) :
    s.back = s.queue.cell (s.queue.tail - 1) := by
  have := h.front_le
  have := h.lawful.visible_le
  have := h.completed_lt
  exact (h.kept positive).back stage (by omega)

end Inv

/-- What one step owes to the pipe: nothing, or the answer it gives. -/
def Simulates (N : ℕ) (s s' : State T) (p : Pipe T) : Prop :=
  (s'.history = s.history ∧ Inv N s' p) ∨
    ∃ e p', s'.history = s.history ++ [e] ∧ p.Answers e p' ∧ Inv N s' p'

/-- A step of the queue that the contract of `yqueue_t` allows. -/
theorem queue_step (positive : 1 ≤ N) {queue : Yqueue.State T} {l : Yqueue.Label T}
    (called : Yqueue.enabled queue l = true) (reach : (Yqueue.machine T N).Reach queue) :
    ∃ q, Yqueue.perform N queue l = some q ∧ (Yqueue.machine T N).Reach q := by
  obtain ⟨_, _, _, inv⟩ := Yqueue.reach_inv positive reach
  obtain ⟨q, _, _, _, step, -⟩ := inv.perform called
  exact ⟨q, step, reach.next trivial ((if_pos called).trans step)⟩

/-! ### The writer -/

/-- The writer's steps leave the front and `r` alone, and the items up to `w`. -/
theorem Inv.writerMoves (h : Inv N s p) (reach : (Yqueue.machine T N).Reach s'.queue)
    (front : s'.queue.front = s.queue.front)
    (stage : s'.queue.threads.reader = s.queue.threads.reader)
    (same : s'.r = s.r ∧ s'.reader = s.reader) (lawful : Lawful p') (taken : p'.taken = p.taken)
    (visible : p.visible ≤ p'.visible)
    (cell : ∀ n, n ≤ p.visible → s'.queue.cell n = s.queue.cell n)
    (items : ∀ n, n < p.visible → p'.items[n]? = p.items[n]?)
    (w : s'.w = s'.queue.cell p'.visible) (f : s'.f = s'.queue.cell p'.completed)
    (c : s'.c = if p'.asleep then none else some (s'.queue.cell p'.visible))
    (values : ∀ n x, s.queue.front ≤ n → p'.items[n]? = some x → s'.queue.value n = some x)
    (at_ : WriterAt s'.queue s'.c p' s'.writer) : Inv N s' p' := by
  have fetched : ∀ {m}, (∃ n, s.r = some (s.queue.cell n) ∧ m < n ∧ n ≤ p.visible) →
      ∃ n, s'.r = some (s'.queue.cell n) ∧ m < n ∧ n ≤ p'.visible := by
    rintro m ⟨n, some, low, high⟩
    exact ⟨n, by rw [same.1, some, cell n high], low, Nat.le_trans high visible⟩
  refine ⟨reach, lawful, w, f, c, ?r, at_, ?reader, fun n x low => values n x (front ▸ low)⟩
  case r =>
    rcases h.r with none | ⟨n, some, low, high⟩
    · exact Or.inl (same.1.trans none)
    · exact Or.inr ⟨n, by rw [same.1, some, cell n high], front ▸ low, Nat.le_trans high visible⟩
  case reader =>
    have reading := h.reader
    rw [same.2]
    generalize s.reader = reader at reading ⊢
    cases reading with
    | rests at_ front' => exact .rests (stage.trans at_) (by rw [front, front', taken])
    | exchanges at_ front' => exact .exchanges (stage.trans at_) (by rw [front, front', taken])
    | takes at_ front' ahead =>
      exact .takes (stage.trans at_) (by rw [front, front', taken]) (taken ▸ fetched ahead)
    | pops front' ahead item =>
      refine .pops ?_ (taken ▸ fetched ahead) ?_
      · rw [stage, front, taken]
        exact front'
      · obtain ⟨n, -, low, high⟩ := ahead
        rw [taken, items _ (Nat.lt_of_lt_of_le low high)]
        exact item

theorem Inv.held_pos (h : Inv N s p) : 0 < s.queue.threads.held := by
  have := h.front_le
  have := h.lawful.visible_le
  have := h.completed_lt
  rw [Yqueue.State.tail] at *
  omega

/-- `c` as long as the cell of `w` is the same. -/
theorem Inv.c_eq (h : Inv N s p) {cell : ℕ → Cell} (same : cell p.visible = s.queue.cell p.visible) :
    s.c = if p.asleep then none else some (cell p.visible) := by
  rw [same]
  exact h.c

/-- `write` assigns the item to the cell that ended the queue. -/
theorem write_step (positive : 1 ≤ N) (h : Inv N s p) (rests : s.writer.atRest = true) (value : T)
    (incomplete : Bool) : ∃ s', write N s value incomplete = some s' ∧ Simulates N s s' p := by
  obtain ⟨queue, w, r, f, c, writer, reader, history⟩ := s
  have writing := h.writer
  dsimp only at writing
  cases writing with
  | rests stage tail =>
    have called : Yqueue.enabled queue (.assign value) = true := by
      simp [Yqueue.enabled, stage, h.held_pos]
    obtain ⟨q, step, reach⟩ := queue_step positive called h.queue
    obtain ⟨front, reading, cell, stored, writing, held⟩ := Yqueue.assign_effect step
    have tail' : q.tail = p.items.length + 1 := by rw [← tail, Yqueue.State.tail, front, held]; rfl
    refine ⟨_, congrArg (Option.map _) step, Or.inl ⟨rfl, ?_⟩⟩
    refine h.writerMoves reach front reading ⟨rfl, rfl⟩ h.lawful rfl (Nat.le_refl _)
      (fun n _ => congrFun cell n) (fun _ _ => rfl) (h.w.trans (congrFun cell _).symm)
      (h.f.trans (congrFun cell _).symm) (h.c_eq (congrFun cell _)) (fun n x low item => ?_)
      (.pushes (Or.inl (writing.trans stage)) tail' ?_)
    · have inside := (List.getElem?_eq_some_iff.mp item).1
      rw [stored, Function.update_of_ne (by omega)]
      exact h.values n x low item
    · rw [stored, tail, Nat.add_sub_cancel, Function.update_self]
  | pushes | unpushes | takesBack | exchanges | sets => cases rests

/-- When `push` has ended, the new element ends the queue. -/
theorem Inv.writes (positive : 1 ≤ N) (h : Inv N s p) {value : T} {incomplete : Bool}
    (now : s.writer = .pushes value incomplete) {q : Yqueue.State T}
    (reach : (Yqueue.machine T N).Reach q) (front : q.front = s.queue.front)
    (reading : q.threads.reader = s.queue.threads.reader)
    (cell : ∀ n, n < s.queue.tail → q.cell n = s.queue.cell n)
    (old : ∀ n, n < s.queue.tail → q.value n = s.queue.value n) (ended : q.threads.writer = .rests)
    (grown : q.tail = s.queue.tail + 1) :
    Inv N (writeReturns { s with queue := q } value incomplete) (p.write value incomplete) := by
  have visible := h.lawful.visible_le
  have completed := h.lawful.completed_le
  have inside := h.front_le
  have lawful := h.lawful.step (.write value incomplete)
  obtain ⟨tail, stored⟩ : s.queue.tail = p.items.length + 1 ∧
      s.queue.value p.items.length = some value := by
    have writing := h.writer
    rw [now] at writing
    cases writing with
    | pushes _ tail stored => exact ⟨tail, stored⟩
  have ends : (p.write value incomplete).items.length = p.items.length + 1 := by
    rw [Pipe.write, List.length_append, List.length_singleton]
  refine h.writerMoves reach front reading ⟨rfl, rfl⟩ lawful rfl (Nat.le_refl _)
    (fun n hn => cell n (by omega)) (fun n hn => List.getElem?_append_left (by omega))
    (h.w.trans (cell _ (by omega)).symm) ?f ?c (fun n x low item => ?values)
    (.rests ended (by rw [ends]; exact grown.trans (congrArg (· + 1) tail)))
  case f =>
    cases incomplete with
    | true => exact h.f.trans (cell _ (by omega)).symm
    | false =>
      obtain ⟨_, _, _, inv⟩ := Yqueue.reach_inv positive reach
      have back : q.threads.queue.back = q.cell (q.tail - 1) := inv.back_eq ended (by omega)
      rwa [grown, tail] at back
  case c => exact h.c_eq (cell _ (by omega))
  case values =>
    change q.value n = some x
    rcases concat_cases item with ⟨before, -⟩ | ⟨rfl, rfl⟩
    · have := (List.getElem?_eq_some_iff.mp before).1
      rw [old n (by omega)]
      exact h.values n x low before
    · rw [old _ (by omega)]
      exact stored

/-- `push` goes on, and `write` returns when it has ended. -/
theorem pushes_step (positive : 1 ≤ N) (h : Inv N s p) {value : T} {incomplete : Bool}
    (now : s.writer = .pushes value incomplete) :
    ∃ s', advanceWriter N s = some s' ∧ Simulates N s s' p := by
  have visible := h.lawful.visible_le
  have completed := h.completed_lt
  have writing := h.writer
  rw [now] at writing
  obtain ⟨stage, tail, stored⟩ : (s.queue.threads.writer = .rests ∨
      Yqueue.pushing s.queue.threads.writer = true) ∧ s.queue.tail = p.items.length + 1 ∧
        s.queue.value p.items.length = some value := by
    cases writing with
    | pushes stage tail stored => exact ⟨stage, tail, stored⟩
  have moves : ∀ {q : Yqueue.State T}, (Yqueue.machine T N).Reach q → q.front = s.queue.front →
      q.threads.reader = s.queue.threads.reader → (∀ n, n < s.queue.tail → q.cell n = s.queue.cell n) →
      (∀ n, n < s.queue.tail → q.value n = s.queue.value n) →
      (q.threads.writer = .rests ∧ q.threads.held = s.queue.threads.held + 1 ∨
        Yqueue.pushing q.threads.writer = true ∧ q.threads.held = s.queue.threads.held) →
      Simulates N s (if q.threads.writer = .rests then
        writeReturns { s with queue := q } value incomplete else { s with queue := q }) p := by
    intro q reach front reading cell old ends
    rcases ends with ⟨ended, held⟩ | ⟨goesOn, held⟩
    · have grown : q.tail = s.queue.tail + 1 := by
        rw [Yqueue.State.tail, Yqueue.State.tail, front, held, Nat.add_assoc]
      rw [if_pos ended]
      exact Or.inr ⟨_, _, rfl, rfl, h.writes positive now reach front reading cell old ended grown⟩
    · have same : q.tail = s.queue.tail := by
        rw [Yqueue.State.tail, Yqueue.State.tail, front, held]
      have busy : q.threads.writer ≠ .rests := fun wrong => by
        rw [wrong] at goesOn
        cases goesOn
      rw [if_neg busy]
      refine Or.inl ⟨rfl, h.writerMoves reach front reading ⟨rfl, rfl⟩ h.lawful rfl (Nat.le_refl _)
        (fun n hn => cell n (by omega)) (fun _ _ => rfl) (h.w.trans (cell _ (by omega)).symm)
        (h.f.trans (cell _ (by omega)).symm) ?_ (fun n x low item => ?_) ?_⟩
      · exact h.c_eq (cell _ (by omega))
      · have := (List.getElem?_eq_some_iff.mp item).1
        exact (old n (by omega)).trans (h.values n x low item)
      · dsimp only
        rw [now]
        exact .pushes (Or.inr goesOn) (same.trans tail) ((old _ (by omega)).trans stored)
  by_cases begun : s.queue.threads.writer = .rests
  · have called : Yqueue.enabled s.queue .push = true := by simp [Yqueue.enabled, begun]
    obtain ⟨q, step, reach⟩ := queue_step positive called h.queue
    obtain ⟨front, reading, cell, old, ends⟩ := Yqueue.push_effect step
    rw [begun] at ends
    refine ⟨_, ?_, moves reach front reading cell old ends⟩
    simp only [advanceWriter, now, if_pos begun, step, Option.map_some]
  · have called : Yqueue.enabled s.queue .write = true := by simp [Yqueue.enabled, begun]
    obtain ⟨q, step, reach⟩ := queue_step positive called h.queue
    obtain ⟨front, reading, cell, old, ends, -⟩ := Yqueue.write_effect step
    refine ⟨_, ?_, moves reach front reading (fun n _ => congrFun cell n)
      (fun n _ => congrFun old n) (ends (stage.resolve_left begun))⟩
    simp only [advanceWriter, now, if_neg begun, step, Option.map_some]

/-- `f` is the back exactly when every item is complete. -/
theorem Inv.f_eq_back_iff (positive : 1 ≤ N) (h : Inv N s p)
    (stage : s.queue.threads.writer = .rests) (tail : s.queue.tail = p.items.length + 1) :
    s.f = s.back ↔ p.completed = p.items.length := by
  have visible := h.lawful.visible_le
  have completed := h.completed_lt
  have inside := h.front_le
  rw [h.f, h.back_eq positive stage, tail, Nat.add_sub_cancel,
    h.cell_inj positive (by omega) completed (by omega) (by omega)]

theorem unwrite_step (positive : 1 ≤ N) (h : Inv N s p) (rests : s.writer.atRest = true) :
    ∃ s', unwrite N s = some s' ∧ Simulates N s s' p := by
  have completed := h.lawful.completed_le
  obtain ⟨stage, tail⟩ : s.queue.threads.writer = .rests ∧ s.queue.tail = p.items.length + 1 := by
    have writing := h.writer
    generalize s.writer = writer at rests writing
    cases writing with
    | rests stage tail => exact ⟨stage, tail⟩
    | pushes | unpushes | takesBack | exchanges | sets => cases rests
  have test := h.f_eq_back_iff positive stage tail
  by_cases complete : s.f = s.back
  · have all := test.mp complete
    refine ⟨_, if_pos complete, Or.inr ⟨_, p, rfl, (Step.complete (Nat.le_of_eq all.symm)).answers, ?_⟩⟩
    exact h.writerMoves h.queue rfl rfl ⟨rfl, rfl⟩ h.lawful rfl (Nat.le_refl _) (fun _ _ => rfl)
      (fun _ _ => rfl) h.w h.f h.c h.values (.rests stage tail)
  · have some : p.completed < p.items.length :=
      Nat.lt_of_le_of_ne completed fun all => complete (test.mpr all)
    have called : Yqueue.enabled s.queue .unpush = true := by
      simp [Yqueue.enabled, stage, h.held_pos]
    obtain ⟨q, step, reach⟩ := queue_step positive called h.queue
    obtain ⟨front, reading, cell, value, unpushing, held⟩ := Yqueue.unpush_effect step
    have tail' : q.tail = p.items.length := by
      have := h.held_pos
      rw [Yqueue.State.tail] at tail ⊢
      omega
    refine ⟨_, (if_neg complete).trans (congrArg (Option.map _) step), Or.inl ⟨rfl, ?_⟩⟩
    exact h.writerMoves reach front reading ⟨rfl, rfl⟩ h.lawful rfl (Nat.le_refl _)
      (fun n _ => congrFun cell n) (fun _ _ => rfl) (h.w.trans (congrFun cell _).symm)
      (h.f.trans (congrFun cell _).symm) (h.c_eq (congrFun cell _))
      (fun n x low item => (congrFun value n).trans (h.values n x low item))
      (.unpushes unpushing tail' some)

theorem unpushes_step (positive : 1 ≤ N) (h : Inv N s p) (now : s.writer = .unpushes) :
    ∃ s', advanceWriter N s = some s' ∧ Simulates N s s' p := by
  have writing := h.writer
  rw [now] at writing
  cases writing with
  | unpushes stage tail some =>
    have busy : s.queue.threads.writer ≠ .rests := fun wrong => by
      rw [wrong] at stage
      cases stage
    have called : Yqueue.enabled s.queue .write = true := by simp [Yqueue.enabled, busy]
    obtain ⟨q, step, reach⟩ := queue_step positive called h.queue
    obtain ⟨front, reading, cell, value, -, goesOn⟩ := Yqueue.write_effect step
    obtain ⟨held, ends⟩ := goesOn stage
    have tail' : q.tail = p.items.length := by
      rw [Yqueue.State.tail] at tail ⊢
      rw [front, held, tail]
    refine ⟨{ s with
      queue := q
      writer := if q.threads.writer = .rests then .takesBack else .unpushes }, ?_, Or.inl ⟨rfl, ?_⟩⟩
    · simp only [advanceWriter, now, step, Option.map_some]
    refine h.writerMoves reach front reading ⟨rfl, rfl⟩ h.lawful rfl (Nat.le_refl _)
      (fun n _ => congrFun cell n) (fun _ _ => rfl) (h.w.trans (congrFun cell _).symm)
      (h.f.trans (congrFun cell _).symm) (h.c_eq (congrFun cell _))
      (fun n x low item => (congrFun value n).trans (h.values n x low item)) ?_
    dsimp only
    rcases ends with ended | unpushing
    · rw [if_pos ended]
      exact .takesBack ended tail' some
    · rw [if_neg (fun wrong => by rw [wrong] at unpushing; cases unpushing)]
      exact .unpushes unpushing tail' some

/-- The cell of the item that was taken back still holds it, and now ends the queue. -/
theorem takesBack_step (positive : 1 ≤ N) (h : Inv N s p) (now : s.writer = .takesBack) :
    ∃ s', advanceWriter N s = some s' ∧ Simulates N s s' p := by
  have inside := h.front_le
  have visible := h.lawful.visible_le
  have writing := h.writer
  rw [now] at writing
  cases writing with
  | takesBack stage tail some =>
    obtain ⟨last, hlast⟩ : ∃ x, p.items[p.items.length - 1]? = Option.some x :=
      ⟨_, List.getElem?_eq_getElem (by omega)⟩
    obtain ⟨v, loads, stored⟩ := (h.kept positive).loads (p.items.length - 1) (by omega) (by omega)
    obtain rfl := stored last (h.values _ last (by omega) hlast)
    have load : s.load N s.back = Option.some last := by
      rw [State.load, h.back_eq positive stage, tail, loads]
      rfl
    have step : Step p (.unwrite (Option.some last)) { p with items := p.items.dropLast } :=
      .tookBack some (List.getLast?_eq_getElem?.trans hlast)
    have shorter : p.items.dropLast.length = p.items.length - 1 := List.length_dropLast
    refine ⟨s.writerReturns (.unwrite (Option.some last)), ?_, Or.inr ⟨_, _, rfl, step.answers, ?_⟩⟩
    · simp only [advanceWriter, now, load, Option.map_some]
    · refine h.writerMoves h.queue rfl rfl ⟨rfl, rfl⟩ (h.lawful.step step) rfl (Nat.le_refl _)
        (fun _ _ => rfl) (fun n hn => ?_) h.w h.f h.c (fun n x low item => ?_)
        (.rests stage (tail.trans (by dsimp only; omega)))
      · exact List.getElem?_dropLast.trans (if_pos (by omega))
      · have before := (List.getElem?_eq_some_iff.mp item).1
        rw [List.getElem?_dropLast, if_pos (by dsimp only at before; omega)] at item
        exact h.values n x low item

/-- `w` is `f` exactly when there is nothing to hand over. -/
theorem Inv.w_eq_f_iff (positive : 1 ≤ N) (h : Inv N s p) : s.w = s.f ↔ p.visible = p.completed := by
  have visible := h.lawful.visible_le
  have completed := h.completed_lt
  have inside := h.front_le
  rw [h.w, h.f, h.cell_inj positive inside (by omega) (by omega) completed]

theorem flush_step (positive : 1 ≤ N) (h : Inv N s p) (rests : s.writer.atRest = true) :
    Simulates N s (flush s) p := by
  have writing := h.writer
  obtain ⟨stage, tail⟩ : s.queue.threads.writer = .rests ∧ s.queue.tail = p.items.length + 1 := by
    generalize s.writer = writer at rests writing
    cases writing with
    | rests stage tail => exact ⟨stage, tail⟩
    | pushes | unpushes | takesBack | exchanges | sets => cases rests
  unfold flush
  by_cases nothing : s.w = s.f
  · have same := (h.w_eq_f_iff positive).mp nothing
    rw [if_pos nothing]
    refine Or.inr ⟨_, p, rfl, (Step.nothing same).answers, ?_⟩
    exact h.writerMoves h.queue rfl rfl ⟨rfl, rfl⟩ h.lawful rfl (Nat.le_refl _) (fun _ _ => rfl)
      (fun _ _ => rfl) h.w h.f h.c h.values (.rests stage tail)
  · have other := fun same => nothing ((h.w_eq_f_iff positive).mpr same)
    rw [if_neg nothing]
    refine Or.inl ⟨rfl, ?_⟩
    exact h.writerMoves h.queue rfl rfl ⟨rfl, rfl⟩ h.lawful rfl (Nat.le_refl _) (fun _ _ => rfl)
      (fun _ _ => rfl) h.w h.f h.c h.values (.exchanges stage tail other)

/-- What a flush leaves that hands the complete items over. -/
theorem Inv.hands (h : Inv N s p) (stage : s.queue.threads.writer = .rests)
    (tail : s.queue.tail = p.items.length + 1) (other : p.visible ≠ p.completed) (ok : Bool)
    (rings : ok = !p.asleep) :
    Simulates N s (State.writerReturns { s with c := some s.f, w := s.f } (.flush ok)) p := by
  subst rings
  have step := Step.handed other
  refine Or.inr ⟨_, _, rfl, step.answers, ?_⟩
  exact h.writerMoves h.queue rfl rfl ⟨rfl, rfl⟩ (h.lawful.step step) rfl h.lawful.visible_le
    (fun _ _ => rfl) (fun _ _ => rfl) h.f h.f (congrArg some h.f) h.values (.rests stage tail)

/-- The exchange of `c` fails exactly when the reader sleeps. -/
theorem exchanges_step (h : Inv N s p) (now : s.writer = .exchanges) :
    ∃ s', advanceWriter N s = some s' ∧ Simulates N s s' p := by
  have writing := h.writer
  rw [now] at writing
  cases writing with
  | exchanges stage tail other =>
    refine ⟨_, by simp only [advanceWriter, now]; rfl, ?_⟩
    cases sleeps : p.asleep with
    | false =>
      have same : s.c = some s.w := by rw [h.c, h.w, sleeps, if_neg Bool.false_ne_true]
      rw [if_pos same]
      exact h.hands stage tail other true (by rw [sleeps]; rfl)
    | true =>
      have null : s.c = none := by rw [h.c, sleeps, if_pos rfl]
      rw [if_neg (by rw [null]; exact Option.some_ne_none _ ∘ Eq.symm)]
      refine Or.inl ⟨rfl, ?_⟩
      exact h.writerMoves h.queue rfl rfl ⟨rfl, rfl⟩ h.lawful rfl (Nat.le_refl _) (fun _ _ => rfl)
        (fun _ _ => rfl) h.w h.f h.c h.values (.sets stage tail other null)

theorem sets_step (h : Inv N s p) (now : s.writer = .sets) :
    ∃ s', advanceWriter N s = some s' ∧ Simulates N s s' p := by
  have writing := h.writer
  rw [now] at writing
  cases writing with
  | sets stage tail other null =>
    refine ⟨_, by simp only [advanceWriter, now]; rfl, ?_⟩
    have sleeps : p.asleep = true := by
      have c := h.c
      rw [null] at c
      cases awake : p.asleep with
      | true => rfl
      | false => simp [awake] at c
    exact h.hands stage tail other false (by rw [sleeps]; rfl)

/-! ### The reader -/

/-- The reader's steps leave the elements behind the front alone, and what the writer put
into the pipe. -/
theorem Inv.readerMoves (h : Inv N s p) (reach : (Yqueue.machine T N).Reach s'.queue)
    (cell : s'.queue.cell = s.queue.cell) (value : s'.queue.value = s.queue.value)
    (tail : s'.queue.tail = s.queue.tail)
    (stage : s'.queue.threads.writer = s.queue.threads.writer)
    (same : s'.w = s.w ∧ s'.f = s.f ∧ s'.writer = s.writer) (lawful : Lawful p')
    (pipe : p'.items = p.items ∧ p'.completed = p.completed ∧ p'.visible = p.visible)
    (front : s.queue.front ≤ s'.queue.front) (sleeps : p.asleep = true → p'.asleep = true)
    (c : s'.c = if p'.asleep then none else some (s'.queue.cell p'.visible))
    (r : s'.r = none ∨ ∃ n, s'.r = some (s'.queue.cell n) ∧ s'.queue.front ≤ n ∧ n ≤ p'.visible)
    (at_ : ReaderAt s'.queue s'.r p' s'.reader) : Inv N s' p' := by
  obtain ⟨w, f, unchanged⟩ := same
  obtain ⟨items, completed, visible⟩ := pipe
  refine ⟨reach, lawful, ?w, ?f, c, r, ?writer, at_, fun n x low item => ?values⟩
  case w => rw [w, h.w, cell, visible]
  case f => rw [f, h.f, cell, completed]
  case values =>
    rw [value]
    exact h.values n x (Nat.le_trans front low) (items ▸ item)
  case writer =>
    have asleep := h.c
    have writing := h.writer
    rw [unchanged]
    generalize s.writer = writer at writing ⊢
    cases writing with
    | rests at_ tail' => exact .rests (stage.trans at_) (by rw [tail, tail', items])
    | pushes at_ tail' stored =>
      exact .pushes (stage ▸ at_) (by rw [tail, tail', items]) (by rw [value, items]; exact stored)
    | unpushes at_ tail' some =>
      exact .unpushes (stage ▸ at_) (by rw [tail, tail', items]) (by rwa [completed, items])
    | takesBack at_ tail' some =>
      exact .takesBack (stage.trans at_) (by rw [tail, tail', items]) (by rwa [completed, items])
    | exchanges at_ tail' other =>
      exact .exchanges (stage.trans at_) (by rw [tail, tail', items]) (by rwa [visible, completed])
    | sets at_ tail' other null =>
      refine .sets (stage.trans at_) (by rw [tail, tail', items]) (by rwa [visible, completed]) ?_
      -- only a flush wakes the reader, and this flush has not yet stored
      cases awake : p.asleep with
      | true => rw [c, sleeps awake, if_pos rfl]
      | false => simp [awake, null] at asleep

/-- A step of the reader that only it sees. -/
theorem Inv.reads (h : Inv N s p) {reader : Reader T} {history : List (Event T)}
    (at_ : ReaderAt s.queue s.r p reader) :
    Inv N { s with reader := reader, history := history } p :=
  h.readerMoves h.queue rfl rfl rfl rfl ⟨rfl, rfl, rfl⟩ h.lawful ⟨rfl, rfl, rfl⟩ (Nat.le_refl _) id h.c
    h.r at_

/-- `r` is past the front exactly when an item was fetched before. -/
theorem checkRead_step (positive : 1 ≤ N) (h : Inv N s p) (rests : s.reader.atRest = true)
    (reading : Bool) : Simulates N s (checkRead s reading) p := by
  have inside := h.front_le
  have visible := h.lawful.visible_le
  have completed := h.completed_lt
  obtain ⟨stage, front⟩ : s.queue.threads.reader = .rests ∧ s.queue.front = p.taken := by
    have reading := h.reader
    generalize s.reader = reader at rests reading
    cases reading with
    | rests stage front => exact ⟨stage, front⟩
    | exchanges | takes | pops => cases rests
  have first := h.front_eq positive stage
  unfold checkRead
  by_cases fetched : some s.front ≠ s.r ∧ s.r ≠ none
  · obtain ⟨n, some, low, high⟩ := h.r.resolve_left fetched.2
    have before : p.taken < n := by
      refine front ▸ Nat.lt_of_le_of_ne low fun same => fetched.1 ?_
      rw [first, some, same]
    rw [if_pos fetched]
    cases reading with
    | true => exact Or.inl ⟨rfl, h.reads (.takes stage front ⟨n, some, before, high⟩)⟩
    | false =>
      have step := Step.ready (Nat.lt_of_lt_of_le before high)
      exact Or.inr ⟨_, p, rfl, step.answers, h.reads (.rests stage front)⟩
  · rw [if_neg fetched]
    exact Or.inl ⟨rfl, h.reads (.exchanges stage front)⟩

/-- The exchange of `c` against null, which succeeds when there is nothing to fetch. -/
theorem exchange_step (positive : 1 ≤ N) (h : Inv N s p) {reading : Bool}
    (now : s.reader = .exchanges reading) :
    ∃ s', advanceReader N s = some s' ∧ Simulates N s s' p := by
  have inside := h.front_le
  have visible := h.lawful.visible_le
  have completed := h.completed_lt
  have at_ := h.reader
  rw [now] at at_
  cases at_ with
  | exchanges stage front =>
    have first := h.front_eq positive stage
    refine ⟨fetch { s with c := if s.c = some s.front then none else s.c, r := s.c } reading,
      by simp only [advanceReader, now], ?_⟩
    have fails : p.taken = p.visible → (s.c = none ∨ s.c = some s.front) → Simulates N s
        (fetch { s with c := if s.c = some s.front then none else s.c, r := s.c } reading) p := by
      intro empty old
      have answers : p.Answers (if reading then .read none else .check false)
          { p with asleep := true } := by
        cases reading with
        | true => exact (Step.tookNone empty).answers
        | false => exact (Step.notReady empty).answers
      have null : (if s.c = some s.front then none else s.c) = none := by
        rcases old with c | c
        · rw [c, ite_self]
        · rw [if_pos c]
      have r : s.c = none ∨ ∃ n, s.c = some (s.queue.cell n) ∧ s.queue.front ≤ n ∧ n ≤ p.visible :=
        old.imp_right fun c => ⟨_, c.trans (congrArg some first), Nat.le_refl _, inside⟩
      change Simulates N s (if some s.front = s.c ∨ s.c = none then _ else _) p
      rw [if_pos (old.symm.imp_left Eq.symm)]
      refine Or.inr ⟨_, _, rfl, answers, ?_⟩
      exact h.readerMoves h.queue rfl rfl rfl rfl ⟨rfl, rfl, rfl⟩ (h.lawful.step (.notReady empty))
        ⟨rfl, rfl, rfl⟩ (Nat.le_refl _) (fun _ => rfl) null r (.rests stage front)
    cases sleeps : p.asleep with
    | true => exact fails (h.lawful.asleep sleeps) (Or.inl (by rw [h.c, sleeps, if_pos rfl]))
    | false =>
      have c : s.c = some (s.queue.cell p.visible) := by
        rw [h.c, sleeps, if_neg Bool.false_ne_true]
      have same_iff : s.c = some s.front ↔ p.visible = p.taken := by
        rw [c, first, Option.some.injEq, h.cell_inj positive inside (by omega) (Nat.le_refl _) (by omega),
          front]
      by_cases empty : p.visible = p.taken
      · exact fails empty.symm (Or.inr (same_iff.mpr empty))
      · have before : p.taken < p.visible :=
          Nat.lt_of_le_of_ne h.lawful.taken_le fun same => empty same.symm
        have other : s.c ≠ some s.front := fun same => empty (same_iff.mp same)
        have fetched : ∃ n, s.c = some (s.queue.cell n) ∧ p.taken < n ∧ n ≤ p.visible :=
          ⟨_, c, before, Nat.le_refl _⟩
        have moved : ∀ reader history, ReaderAt s.queue s.c p reader →
            Inv N { s with c := s.c, r := s.c, reader := reader, history := history } p :=
          fun reader history at_ => h.readerMoves h.queue rfl rfl rfl rfl ⟨rfl, rfl, rfl⟩ h.lawful
            ⟨rfl, rfl, rfl⟩ (Nat.le_refl _) id h.c (Or.inr ⟨_, c, inside, Nat.le_refl _⟩) at_
        rw [if_neg other]
        change Simulates N s (if some s.front = s.c ∨ s.c = none then _ else _) p
        rw [if_neg (not_or.mpr ⟨other ∘ Eq.symm, by simp [c]⟩)]
        cases reading with
        | true => exact Or.inl ⟨rfl, moved _ _ (.takes stage front fetched)⟩
        | false => exact Or.inr ⟨_, p, rfl, (Step.ready before).answers, moved _ _ (.rests stage front)⟩

/-- The front is the oldest item, and the reader copies it. -/
theorem takes_step (positive : 1 ≤ N) (h : Inv N s p) (now : s.reader = .takes) :
    ∃ s', advanceReader N s = some s' ∧ Simulates N s s' p := by
  have visible := h.lawful.visible_le
  have completed := h.lawful.completed_le
  have before := h.completed_lt
  have at_ := h.reader
  rw [now] at at_
  cases at_ with
  | takes stage front fetched =>
    obtain ⟨n, r, low, high⟩ := fetched
    obtain ⟨x, item⟩ : ∃ x, p.items[p.taken]? = some x := ⟨_, List.getElem?_eq_getElem (by omega)⟩
    obtain ⟨v, loads, stored⟩ := (h.kept positive).loads p.taken (by omega) (by omega)
    obtain rfl := stored x (h.values _ x (by omega) item)
    have load : s.load N s.front = some x := by
      rw [State.load, h.front_eq positive stage, front, loads]
      rfl
    refine ⟨{ s with reader := .pops x }, by simp only [advanceReader, now, load, Option.map_some],
      Or.inl ⟨rfl, ?_⟩⟩
    exact h.reads (.pops (Or.inl ⟨stage, front⟩) ⟨n, r, low, high⟩ item)

/-- `pop` goes on, and `read` returns when it has ended. -/
theorem pops_step (positive : 1 ≤ N) (h : Inv N s p) {value : T} (now : s.reader = .pops value) :
    ∃ s', advanceReader N s = some s' ∧ Simulates N s s' p := by
  have at_ := h.reader
  rw [now] at at_
  cases at_ with
  | pops front fetched item =>
    obtain ⟨n, r, low, high⟩ := fetched
    have moves : ∀ {q : Yqueue.State T}, (Yqueue.machine T N).Reach q → q.cell = s.queue.cell →
        q.value = s.queue.value → q.tail = s.queue.tail →
        q.threads.writer = s.queue.threads.writer → q.front = p.taken + 1 →
        Simulates N s (if q.threads.reader = .rests then
          State.readerReturns { s with queue := q } (.read (some value)) else { s with queue := q }) p := by
      intro q reach cell values tail stage popped
      have past : s.queue.front ≤ q.front := by
        rcases front with ⟨-, front⟩ | ⟨-, front⟩ <;> omega
      have c := h.c_eq (congrFun cell p.visible)
      have r' : s.r = some (q.cell n) := r.trans (congrArg some (congrFun cell n).symm)
      by_cases ended : q.threads.reader = .rests
      · rw [if_pos ended]
        have step := Step.took (Nat.lt_of_lt_of_le low high) item
        refine Or.inr ⟨_, _, rfl, step.answers, ?_⟩
        exact h.readerMoves reach cell values tail stage ⟨rfl, rfl, rfl⟩ (h.lawful.step step)
          ⟨rfl, rfl, rfl⟩ past id c (Or.inr ⟨n, r', by dsimp only [State.readerReturns]; omega, high⟩)
          (.rests ended popped)
      · rw [if_neg ended]
        refine Or.inl ⟨rfl, h.readerMoves reach cell values tail stage ⟨rfl, rfl, rfl⟩ h.lawful
          ⟨rfl, rfl, rfl⟩ past id c (Or.inr ⟨n, r', by dsimp only; omega, high⟩) ?_⟩
        dsimp only
        rw [now]
        exact .pops (Or.inr ⟨ended, popped⟩) ⟨n, r', low, high⟩ item
    by_cases begun : s.queue.threads.reader = .rests
    · have called : Yqueue.enabled s.queue .pop = true := by simp [Yqueue.enabled, begun, h.held_pos]
      obtain ⟨q, step, reach⟩ := queue_step positive called h.queue
      obtain ⟨popped, stage, cell, values, held⟩ := Yqueue.pop_effect step
      have tail : q.tail = s.queue.tail := by
        have := h.held_pos
        rw [Yqueue.State.tail, Yqueue.State.tail, popped, held]
        omega
      have front : s.queue.front = p.taken := by
        rcases front with ⟨-, front⟩ | ⟨busy, -⟩
        · exact front
        · exact absurd begun busy
      refine ⟨_, ?_, moves reach cell values tail stage (popped.trans (congrArg (· + 1) front))⟩
      simp only [advanceReader, now, if_pos begun, step, Option.map_some]
    · have called : Yqueue.enabled s.queue .read = true := by simp [Yqueue.enabled, begun]
      obtain ⟨q, step, reach⟩ := queue_step positive called h.queue
      obtain ⟨same, stage, cell, values, held⟩ := Yqueue.read_effect step
      have tail : q.tail = s.queue.tail := by
        rw [Yqueue.State.tail, Yqueue.State.tail, same, held]
      have front : s.queue.front = p.taken + 1 := by
        rcases front with ⟨rests, -⟩ | ⟨-, front⟩
        · exact absurd rests begun
        · exact front
      refine ⟨_, ?_, moves reach cell values tail stage (same.trans front)⟩
      simp only [advanceReader, now, if_neg begun, step, Option.map_some]

end Ypipe
