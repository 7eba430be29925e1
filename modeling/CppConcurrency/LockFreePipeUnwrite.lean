import CppConcurrency.DataChunkQueueGaps
import CppConcurrency.DataChunkQueuePositions
import CppConcurrency.LockFreePipeMarks

/-!
# What `unwrite` takes back

Rolling back would mean that incomplete writes, and then as many calls of `unwrite`, give
the values back in reverse and leave the pipe as it was. It would need `unpush` to
retrace `push`. But every push opens a chunk, and `unpush` steps to the last cell of the
chunk before, which nobody wrote; and where a chunk is one cell, `end` comes back to
another position. So nothing is ever rolled back, except no write at all.
-/

namespace LockFreePipe

open Machines CellQueues DataChunkQueue

universe u v w

/-- `n` calls of `unwrite` that all return true, with the values they yield. -/
def unwrites {Q : Type v} {Cell : Type w} {T : Type u} (ops : CellQueue Q Cell T) [DecidableEq Cell] :
    ℕ → State Q Cell T → Option (List (Option T) × State Q Cell T)
  | 0, s => some ([], s)
  | n + 1, s =>
    (next ops s .unwrite).bind fun s =>
      match s.writer with
      | .unwriteReturn (some value) => (unwrites ops n s).map fun (values, s) => (value :: values, s)
      | _ => none

variable {T : Type u} {N : ℕ} {s s₁ s' : State (ZmqQueue T) Cell T}

/-- What the two threads and their caller see of the pipe. -/
def observed (s : State (ZmqQueue T) Cell T) : Writer T × Reader T × List (Option T) :=
  (s.writer, s.reader, s.reads)

/-- The values are written from `s` on and taken back from `s₁` on, and `s'` is as `s`. -/
structure RollsBack (N : ℕ) (s : State (ZmqQueue T) Cell T) (values : List T)
    (s₁ s' : State (ZmqQueue T) Cell T) : Prop where
  written : (machine (zmqQueue T N)).exec s (values.map fun value => .write value true) = some s₁
  yields : unwrites (zmqQueue T N) values.length s₁ = some (values.reverse.map some, s')
  beyond : ∀ n, (unwrites (zmqQueue T N) n s).isSome =
    (unwrites (zmqQueue T N) (n + values.length) s₁).isSome
  backCell : s'.queue.back = s.queue.back
  endCell : s'.queue.endChunk = s.queue.endChunk ∧ s'.queue.endPos = s.queue.endPos
  pointers : s'.f = s.f ∧ s'.w = s.w ∧ s'.c = s.c
  reader : s'.r = s.r ∧ s'.queue.front = s.queue.front ∧
    ∀ e ∈ s.items.drop s.taken, s'.queue.load N e.1 = s.queue.load N e.1
  later : ∀ ls, ((machine (zmqQueue T N)).exec { s' with writer := s.writer } ls).map observed =
    ((machine (zmqQueue T N)).exec s ls).map observed
  refuses : (unwrite (zmqQueue T N) s).writer = .unwriteReturn none ↔ s.completed = s.items.length
  refused : s.completed = s.items.length →
    unwrite (zmqQueue T N) s = { s with writer := .unwriteReturn none }

/-- `unwrite` is called only where it returns false. -/
def TakesNothing (s : State (ZmqQueue T) Cell T) (l : Label T) : Prop :=
  l = .unwrite → s.f = s.queue.back

/-! ### The steps on the queue of the source -/

/-- A write stores and pushes, or one of the two is undefined. -/
theorem write_cases (s : State (ZmqQueue T) Cell T) (value : T) (incomplete : Bool) :
    write (zmqQueue T N) s value incomplete = { s with writer := .undefined } ∨
      ∃ q₁ q, s.queue.store N s.queue.back value = some q₁ ∧ q₁.push N = some q ∧
        write (zmqQueue T N) s value incomplete = { s with
          queue := q
          f := if incomplete then s.f else q.back
          writer := .writeReturn
          items := s.items ++ [(s.queue.back, value)]
          completed := if incomplete then s.completed else s.items.length + 1 } := by
  unfold write
  split
  · rename_i q defined
    obtain ⟨q₁, stored, pushed⟩ := Option.bind_eq_some_iff.mp defined
    exact Or.inr ⟨q₁, q, stored, pushed, rfl⟩
  · exact Or.inl rfl

theorem unwrite_none (complete : s.f = s.queue.back) :
    unwrite (zmqQueue T N) s = { s with writer := .unwriteReturn none } :=
  if_pos complete

theorem unwrite_cases (moved : s.f ≠ s.queue.back) :
    unwrite (zmqQueue T N) s = { s with writer := .undefined } ∨
      ∃ q value, s.queue.unpush N = some q ∧ q.load N q.back = some value ∧
        unwrite (zmqQueue T N) s = { s with
          queue := q, writer := .unwriteReturn (some value), items := s.items.dropLast } := by
  rw [unwrite, if_neg (show s.f ≠ (zmqQueue T N).back s.queue from moved)]
  split
  · rename_i q value taken
    obtain ⟨q', unpushed, loaded⟩ := Option.bind_eq_some_iff.mp taken
    obtain ⟨value', here, eq⟩ := Option.map_eq_some_iff.mp loaded
    obtain ⟨rfl, rfl⟩ := Prod.mk.inj eq
    exact Or.inr ⟨q', value', unpushed, here, rfl⟩
  · exact Or.inl rfl

/-- What a step does besides writing, as long as `unwrite` takes nothing. -/
theorem next_effect {l : Label T} (meets : TakesNothing s l)
    (hs : next (zmqQueue T N) s l = some s') :
    (∃ value incomplete, s.writer.atRest = true ∧
      s' = write (zmqQueue T N) s value incomplete) ∨
    (s'.f = s.f ∧ s'.items = s.items ∧ s'.completed = s.completed ∧
      (s'.queue = s.queue ∨ s.queue.pop N = some s'.queue)) := by
  cases next_step _ hs with
  | write rest value incomplete => exact Or.inl ⟨value, incomplete, rest, rfl⟩
  | unwrite rest =>
    rw [unwrite_none (meets rfl)]
    exact Or.inr ⟨rfl, rfl, rfl, Or.inl rfl⟩
  | flush rest => exact Or.inr ⟨rfl, rfl, rfl, Or.inl rfl⟩
  | writerStep moved =>
    rcases advanceWriter_cases moved with ⟨-, rfl, -⟩ | ⟨-, rfl⟩ | ⟨-, rfl⟩ <;>
      exact Or.inr ⟨rfl, rfl, rfl, Or.inl rfl⟩
  | checkRead rest => exact Or.inr ⟨rfl, rfl, rfl, Or.inl rfl⟩
  | read rest => exact Or.inr ⟨rfl, rfl, rfl, Or.inl rfl⟩
  | readerStep moved =>
    obtain ⟨items, -, completed, f, -, queue⟩ := advanceReader_keeps _ moved
    exact Or.inr ⟨f, items, completed, queue⟩

/-! ### Two cells a chunk or more -/

/-- Every push so far has opened a chunk, and only first cells were written. -/
structure Opening (q : ZmqQueue T) : Prop where
  backPos : q.backPos = 0
  endPos : q.endPos = 0
  firsts : ∀ c i v, content q c i = some v → i = 0

theorem Opening.start (two : 2 ≤ N) : Opening (start (zmqQueue T N)).queue := by
  have none : ∀ c i, content (ZmqQueue.new : ZmqQueue T) c i = none := by
    intro c i
    by_cases first : c = 0
    · subst first
      rfl
    · simp [content, ZmqQueue.new, first]
  have begun : (LockFreePipe.start (zmqQueue T N)).queue = (ZmqQueue.new.push N).getD .new := rfl
  rw [begun]
  cases pushed : (ZmqQueue.new : ZmqQueue T).push N with
  | none => exact ⟨rfl, rfl, fun c i v here => by rw [Option.getD_none, none] at here; cases here⟩
  | some q =>
    obtain ⟨back, endPos, old⟩ := push_some pushed
    refine ⟨(Cell.mk.inj back).2, endPos.trans (if_neg ?_), fun c i v here => ?_⟩
    · change 0 + 1 ≠ N
      omega
    · have := old c i v here
      rw [none] at this
      cases this

theorem Opening.write (two : 2 ≤ N) (h : Opening s.queue) (value : T) (incomplete : Bool) :
    Opening (write (zmqQueue T N) s value incomplete).queue := by
  rcases write_cases s value incomplete with wrong | ⟨q₁, q, stored, pushed, result⟩
  · rw [wrong]
    exact h
  obtain ⟨-, eq₁, stores⟩ := store_some stored
  obtain ⟨back, endPos, old⟩ := push_some pushed
  have endPos₁ : q₁.endPos = 0 := by
    rw [eq₁]
    exact h.endPos
  rw [result]
  refine ⟨(Cell.mk.inj back).2.trans endPos₁, endPos.trans ?_, fun c i v here => ?_⟩
  · rw [endPos₁]
    exact if_neg (by omega)
  · rcases stores c i v (old c i v here) with first | before
    · exact first.trans h.backPos
    · exact h.firsts c i v before

theorem Opening.pop {q q' : ZmqQueue T} (h : Opening q) (popped : q.pop N = some q') :
    Opening q' := by
  obtain ⟨back, endPos, old⟩ := pop_some popped
  exact ⟨(Cell.mk.inj back).2.trans h.backPos, endPos.trans h.endPos,
    fun c i v here => h.firsts c i v (old c i v here)⟩

theorem Opening.reach (two : 2 ≤ N) (reached : (machine (zmqQueue T N)).ReachBy TakesNothing s) :
    Opening s.queue := by
  refine Machine.ReachBy.invariant _ (P := fun s => Opening s.queue) (Opening.start two) ?_ reached
  intro s l s' h meets hs
  rcases next_effect meets hs with ⟨value, incomplete, -, rfl⟩ | ⟨-, -, -, same | popped⟩
  · exact h.write two value incomplete
  · rw [same]
    exact h
  · exact h.pop popped

/-- The cell that `unwrite` reads is the last one of a chunk. -/
theorem Opening.unwrite (two : 2 ≤ N) (h : Opening s.queue) (value : T) :
    (unwrite (zmqQueue T N) s).writer ≠ .unwriteReturn (some (some value)) := by
  intro yields
  by_cases complete : s.f = s.queue.back
  · rw [unwrite_none complete] at yields
    cases yields
  rcases unwrite_cases complete with wrong | ⟨q, value', unpushed, loaded, result⟩
  · rw [wrong] at yields
    cases yields
  rw [result] at yields
  obtain rfl : value' = some value := Option.some.inj (Writer.unwriteReturn.inj yields)
  obtain ⟨backPos, -, old⟩ := unpush_some unpushed
  obtain ⟨-, c, -, here⟩ := load_some loaded
  have last : q.back.pos = N - 1 := by
    change q.backPos = N - 1
    rw [backPos, h.backPos]
    rfl
  have := h.firsts c _ value (old c _ value here.symm)
  omega

/-! ### One cell a chunk

The first push fills the chunk. The write after it puts `back` behind the cell, where
nothing more can be stored. -/

/-- Nothing was written, and no pointer has left the cell that ends the queue. -/
structure Untouched (s : State (ZmqQueue T) Cell T) : Prop where
  f : s.f = s.queue.back
  backPos : s.queue.backPos = 0
  endPos : s.queue.endPos = 1
  front : s.queue.front = s.f
  items : s.items = []
  completed : s.completed = 0
  w : s.w = some s.f
  c : s.c = some s.f ∨ s.c = none
  r : s.r = some s.f ∨ s.r = none
  writer : s.writer.flushing = false
  reader : s.reader ≠ .take

/-- One value was written. -/
structure Overrun (s : State (ZmqQueue T) Cell T) : Prop where
  backPos : s.queue.backPos = 1
  endPos : s.queue.endPos = 0
  items : s.items.length = 1
  f : s.f.pos = 0 ∧ s.completed = 0 ∨ s.f = s.queue.back ∧ s.completed = 1

theorem start_untouched : Untouched (start (zmqQueue T 1)) where
  f := rfl
  backPos := rfl
  endPos := rfl
  front := rfl
  items := rfl
  completed := rfl
  w := rfl
  c := Or.inl rfl
  r := Or.inl rfl
  writer := rfl
  reader := fun wrong => by cases wrong

theorem Untouched.write (h : Untouched s) (value : T) (incomplete : Bool) :
    (write (zmqQueue T 1) s value incomplete).writer = .undefined ∨
      Overrun (write (zmqQueue T 1) s value incomplete) := by
  rcases write_cases s value incomplete with wrong | ⟨q₁, q, stored, pushed, result⟩
  · exact Or.inl (by rw [wrong])
  obtain ⟨-, eq₁, -⟩ := store_some stored
  obtain ⟨back, endPos, -⟩ := push_some pushed
  have endPos₁ : q₁.endPos = 1 := by
    rw [eq₁]
    exact h.endPos
  rw [endPos₁] at back endPos
  rw [result]
  refine Or.inr ⟨(Cell.mk.inj back).2, endPos, by simp [h.items], ?_⟩
  cases incomplete with
  | true => exact Or.inl ⟨by rw [if_pos rfl, h.f]; exact h.backPos, h.completed⟩
  | false => exact Or.inr ⟨rfl, by simp [h.items]⟩

/-- `check_read` finds no pointer that has left the front. -/
theorem Untouched.checkRead (h : Untouched s) (reading : Bool) :
    Untouched (checkRead (zmqQueue T 1) s reading) := by
  have nothing : ¬ (some ((zmqQueue T 1).front s.queue) ≠ s.r ∧ s.r ≠ none) := by
    rintro ⟨moved, fetched⟩
    exact moved ((congrArg some h.front).trans (h.r.resolve_right fetched).symm)
  rw [LockFreePipe.checkRead, if_neg nothing]
  exact { h with reader := fun wrong => by cases wrong }

theorem Untouched.advanceReader (h : Untouched s) {spurious : Bool}
    (hs : advanceReader (zmqQueue T 1) s spurious = some s') : Untouched s' := by
  have nothing : some ((zmqQueue T 1).front s.queue) = s.r ∨ s.r = none :=
    h.r.imp_left fun here => (congrArg some h.front).trans here.symm
  cases hr : s.reader with
  | load reading =>
    simp only [LockFreePipe.advanceReader, hr] at hs
    obtain rfl := Option.some.inj hs
    exact { h with
      r := h.c
      reader := fun wrong => by cases wrong }
  | exchange reading =>
    simp only [LockFreePipe.advanceReader, hr, if_pos nothing] at hs
    obtain rfl := Option.some.inj hs
    refine { h with
      c := ?_
      reader := ?_ }
    · dsimp only
      split
      · exact Or.inr rfl
      · exact h.c
    · dsimp only
      split <;> exact fun wrong => by cases wrong
  | take => exact absurd hr h.reader
  | _ =>
    simp only [LockFreePipe.advanceReader, hr] at hs
    cases hs

theorem Untouched.next (h : Untouched s) {l : Label T} (meets : TakesNothing s l)
    (hs : next (zmqQueue T 1) s l = some s') :
    s'.writer = .undefined ∨ Untouched s' ∨ Overrun s' := by
  cases next_step _ hs with
  | write rest value incomplete => exact (h.write value incomplete).imp_right Or.inr
  | unwrite rest =>
    rw [unwrite_none (meets rfl)]
    exact Or.inr (Or.inl { h with writer := rfl })
  | flush rest =>
    rw [flush, if_pos h.w]
    exact Or.inr (Or.inl { h with writer := rfl })
  | writerStep moved =>
    have quiet := h.writer
    rcases advanceWriter_cases moved with ⟨busy, -⟩ | ⟨busy, -⟩ | ⟨busy, -⟩ <;>
      (rw [busy] at quiet; cases quiet)
  | checkRead rest => exact Or.inr (Or.inl (h.checkRead false))
  | read rest => exact Or.inr (Or.inl (h.checkRead true))
  | readerStep moved => exact Or.inr (Or.inl (h.advanceReader moved))

/-- `back` is not a cell of its chunk any more. -/
theorem Overrun.write (h : Overrun s) (value : T) (incomplete : Bool) :
    (write (zmqQueue T 1) s value incomplete).writer = .undefined := by
  rcases write_cases s value incomplete with wrong | ⟨q₁, q, stored, -⟩
  · rw [wrong]
  · have inside : s.queue.backPos < 1 := (store_some stored).1
    have := h.backPos
    omega

/-- `end` steps back to the first cell of the chunk, which is its last one. -/
theorem Overrun.unwrite (h : Overrun s) {value : Option T}
    (returned : (unwrite (zmqQueue T 1) s).writer = .unwriteReturn (some value)) :
    (unwrite (zmqQueue T 1) s).queue.endPos = 0 := by
  by_cases complete : s.f = s.queue.back
  · rw [unwrite_none complete] at returned
    cases returned
  rcases unwrite_cases complete with wrong | ⟨q, value', unpushed, -, result⟩
  · rw [wrong] at returned
    cases returned
  rw [result]
  obtain ⟨-, endPos, -⟩ := unpush_some unpushed
  rw [endPos, h.endPos]
  rfl

theorem Overrun.next (h : Overrun s) {l : Label T} (meets : TakesNothing s l)
    (hs : next (zmqQueue T 1) s l = some s') : s'.writer = .undefined ∨ Overrun s' := by
  rcases next_effect meets hs with ⟨value, incomplete, -, rfl⟩ | ⟨f, items, completed, queue⟩
  · exact Or.inl (h.write value incomplete)
  obtain ⟨back, endPos⟩ : s'.queue.back = s.queue.back ∧ s'.queue.endPos = s.queue.endPos := by
    rcases queue with same | popped
    · rw [same]
      exact ⟨rfl, rfl⟩
    · obtain ⟨back, endPos, -⟩ := pop_some popped
      exact ⟨back, endPos⟩
  refine Or.inr ⟨(Cell.mk.inj back).2.trans h.backPos, endPos.trans h.endPos, ?_, ?_⟩
  · rw [items]
    exact h.items
  · rw [f, back, completed]
    exact h.f

/-- A writer that went wrong takes no step. -/
theorem next_undefined {l : Label T} (wrong : s.writer = .undefined)
    (hs : next (zmqQueue T N) s l = some s') : s'.writer = .undefined := by
  have busy : s.writer.atRest ≠ true := by
    rw [wrong]
    exact Bool.false_ne_true
  cases next_step _ hs with
  | write rest value incomplete => exact absurd rest busy
  | unwrite rest => exact absurd rest busy
  | flush rest => exact absurd rest busy
  | writerStep moved =>
    rcases advanceWriter_cases moved with ⟨wrong', -⟩ | ⟨wrong', -⟩ | ⟨wrong', -⟩ <;>
      cases wrong.symm.trans wrong'
  | checkRead rest => exact wrong
  | read rest => exact wrong
  | readerStep moved =>
    obtain ⟨-, -, -, -, same, -⟩ := advanceReader_keeps _ moved
    exact same.trans wrong

theorem single_cases (reached : (machine (zmqQueue T 1)).ReachBy TakesNothing s) :
    s.writer = .undefined ∨ Untouched s ∨ Overrun s := by
  refine Machine.ReachBy.invariant _
    (P := fun s => s.writer = .undefined ∨ Untouched s ∨ Overrun s)
    (Or.inr (Or.inl start_untouched)) ?_ reached
  intro s l s' h meets hs
  rcases h with wrong | untouched | overrun
  · exact Or.inl (next_undefined wrong hs)
  · exact untouched.next meets hs
  · exact (overrun.next meets hs).imp_right Or.inr

/-! ### What is rolled back -/

/-- `unwrite` can tell whether an incomplete item is left. -/
theorem f_back (positive : 1 ≤ N) (reached : (machine (zmqQueue T N)).ReachBy TakesNothing s)
    (rest : s.writer.atRest = true) :
    s.f = s.queue.back ↔ s.completed = s.items.length := by
  rcases Nat.lt_or_eq_of_le positive with two | rfl
  · have contract := zmqQueue_contract T two
    obtain ⟨cells, h⟩ := reachBy_inv contract (fun _ _ meets called => Or.inr (meets called)) reached
    exact h.f_back contract
  · rcases single_cases reached with wrong | untouched | overrun
    · rw [wrong] at rest
      cases rest
    · rw [untouched.items, untouched.completed]
      exact iff_of_true untouched.f rfl
    · rw [overrun.items]
      rcases overrun.f with ⟨behind, none⟩ | ⟨here, all⟩
      · refine iff_of_false (fun same => ?_) (by omega)
        have : s.f.pos = s.queue.backPos := congrArg Cell.pos same
        have := overrun.backPos
        omega
      · exact iff_of_true here all

/-- Taking nothing back after writing nothing. -/
theorem rollsBack_nil (positive : 1 ≤ N)
    (reached : (machine (zmqQueue T N)).ReachBy TakesNothing s) (rest : s.writer.atRest = true) :
    RollsBack N s [] s s where
  written := rfl
  yields := rfl
  beyond := fun n => rfl
  backCell := rfl
  endCell := ⟨rfl, rfl⟩
  pointers := ⟨rfl, rfl, rfl⟩
  reader := ⟨rfl, rfl, fun _ _ => rfl⟩
  later := fun ls => rfl
  refuses := by
    rw [← f_back positive reached rest]
    constructor
    · intro refused
      by_contra moved
      rcases unwrite_cases (N := N) moved with wrong | ⟨q, value, -, -, result⟩
      · rw [wrong] at refused
        cases refused
      · rw [result] at refused
        cases refused
    · intro complete
      rw [unwrite_none complete]
  refused := fun complete => unwrite_none ((f_back positive reached rest).mpr complete)

/-- The first of the calls yields the first of the values. -/
theorem unwrites_succ {n : ℕ} {value : Option T} {values : List (Option T)}
    (yields : unwrites (zmqQueue T N) (n + 1) s = some (value :: values, s')) :
    s.writer.atRest = true ∧ (unwrite (zmqQueue T N) s).writer = .unwriteReturn (some value) ∧
      unwrites (zmqQueue T N) n (unwrite (zmqQueue T N) s) = some (values, s') := by
  obtain ⟨s₂, called, yields⟩ := Option.bind_eq_some_iff.mp yields
  obtain ⟨rest, ⟨⟩⟩ := Option.ite_none_right_eq_some.mp called
  refine ⟨rest, ?_⟩
  split at yields
  · rename_i value' returned
    obtain ⟨⟨values', s₃⟩, more, eq⟩ := Option.map_eq_some_iff.mp yields
    obtain ⟨first, rfl⟩ := Prod.mk.inj eq
    obtain ⟨rfl, rfl⟩ := List.cons.inj first
    exact ⟨returned, more⟩
  · cases yields

theorem exec_undefined {ls : List (Label T)} (wrong : s.writer = .undefined)
    (h : (machine (zmqQueue T N)).exec s ls = some s₁) : s₁.writer = .undefined := by
  induction ls generalizing s with
  | nil => exact Option.some.inj h ▸ wrong
  | cons l ls ih =>
    obtain ⟨s₂, hs, h⟩ := Option.bind_eq_some_iff.mp h
    exact ih (next_undefined wrong hs) h

theorem exec_write {value : T} {ls : List (Label T)}
    (h : (machine (zmqQueue T N)).exec s (.write value true :: ls) = some s₁) :
    (machine (zmqQueue T N)).exec (write (zmqQueue T N) s value true) ls = some s₁ := by
  obtain ⟨s₂, called, h⟩ := Option.bind_eq_some_iff.mp h
  obtain ⟨-, ⟨⟩⟩ := Option.ite_none_right_eq_some.mp called
  exact h

theorem Overrun.exec {values : List T} (h : Overrun s) (more : values ≠ [])
    (hs : (machine (zmqQueue T 1)).exec s (values.map fun value => .write value true) = some s₁) :
    s₁.writer = .undefined := by
  cases values with
  | nil => exact absurd rfl more
  | cons value values => exact exec_undefined (h.write value true) (exec_write hs)

/-- Of values that were written, the last one is what the first call has to yield. -/
theorem RollsBack.first {values : List T} {value : T} (h : RollsBack N s (values ++ [value]) s₁ s') :
    s₁.writer.atRest = true ∧
      (unwrite (zmqQueue T N) s₁).writer = .unwriteReturn (some (some value)) ∧
      unwrites (zmqQueue T N) values.length (unwrite (zmqQueue T N) s₁) =
        some (values.reverse.map some, s') := by
  have yields := h.yields
  rw [List.length_append, List.reverse_append] at yields
  exact unwrites_succ yields

/-- From two cells a chunk on, the value is not where `unwrite` looks for it. -/
theorem RollsBack.nothing_of_two {values : List T} (two : 2 ≤ N)
    (reached : (machine (zmqQueue T N)).ReachBy TakesNothing s) (h : RollsBack N s values s₁ s') :
    values = [] := by
  rcases List.eq_nil_or_concat' values with none | ⟨init, value, rfl⟩
  · exact none
  have writes : ∀ l ∈ (init ++ [value]).map fun value => Label.write value true,
      ∀ s, TakesNothing (T := T) s l := by
    intro l hl s called
    obtain ⟨value', -, rfl⟩ := List.mem_map.mp hl
    cases called
  have reached₁ := Machine.reachBy_exec _ writes reached h.written
  obtain ⟨-, first, -⟩ := h.first
  exact absurd first ((Opening.reach two reached₁).unwrite two value)

/-- With one cell a chunk a second write is undefined, and the first, taken back, leaves
`end` where the chunk begins and not behind it. -/
theorem RollsBack.nothing_of_one {values : List T}
    (reached : (machine (zmqQueue T 1)).ReachBy TakesNothing s) (rest : s.writer.atRest = true)
    (h : RollsBack 1 s values s₁ s') : values = [] := by
  rcases List.eq_nil_or_concat' values with none | ⟨init, value, rfl⟩
  · exact none
  obtain ⟨rest₁, first, taken⟩ := h.first
  have defined : s₁.writer ≠ .undefined := by
    intro wrong
    rw [wrong] at rest₁
    cases rest₁
  have written := h.written
  rcases single_cases reached with wrong | untouched | overrun
  · rw [wrong] at rest
    cases rest
  · cases init with
    | nil =>
      obtain rfl := Option.some.inj (exec_write written)
      have overrun := (untouched.write value true).resolve_left defined
      obtain rfl := (Prod.mk.inj (Option.some.inj taken)).2
      have same := h.endCell.2
      rw [overrun.unwrite first, untouched.endPos] at same
      cases same
    | cons v init =>
      have written := exec_write written
      have some : init ++ [value] ≠ [] := by simp
      rcases untouched.write v true with wrong | overrun
      · exact absurd (exec_undefined wrong written) defined
      · exact absurd (overrun.exec some written) defined
  · exact absurd (overrun.exec (by simp) written) defined

/-- As long as `unwrite` has taken nothing back, nothing that is written could be. -/
theorem rolls_back_iff (positive : 1 ≤ N)
    (reached : (machine (zmqQueue T N)).ReachBy TakesNothing s) (rest : s.writer.atRest = true)
    (values : List T) : (∃ s₁ s', RollsBack N s values s₁ s') ↔ values = [] := by
  constructor
  · rintro ⟨s₁, s', h⟩
    rcases Nat.lt_or_eq_of_le positive with two | rfl
    · exact h.nothing_of_two two reached
    · exact h.nothing_of_one reached rest
  · rintro rfl
    exact ⟨s, s, rollsBack_nil positive reached rest⟩

/-- One item is complete, and another is not. -/
def opened : List (Label ℕ) := [.write 5 false, .write 6 true]

theorem rolls_back_iff_two :
    ∃ s, (machine (zmqQueue ℕ 2)).exec (start (zmqQueue ℕ 2)) opened = some s ∧
      ∃ s₁ s', RollsBack 2 s [] s₁ s' := by
  have enabled : ((machine (zmqQueue ℕ 2)).exec (start (zmqQueue ℕ 2)) opened).isSome = true := rfl
  obtain ⟨s, h⟩ := Option.isSome_iff_exists.mp enabled
  have rest : s.writer.atRest = true := by
    have : ((machine (zmqQueue ℕ 2)).exec (start (zmqQueue ℕ 2)) opened).map
        (fun s => s.writer.atRest) = some true := rfl
    rw [h] at this
    exact Option.some.inj this
  have reached : (machine (zmqQueue ℕ 2)).ReachBy TakesNothing s := by
    refine Machine.reachBy_exec _ ?_ .start h
    intro l hl s called
    subst called
    simp [opened] at hl
  exact ⟨s, h, (rolls_back_iff (Nat.le_succ 1) reached rest []).mpr rfl⟩

/-- With two cells a chunk the first value written is not the one taken back. -/
theorem unwrite_yields_garbage :
    ((machine (zmqQueue ℕ 2)).exec (start (zmqQueue ℕ 2)) [.write 5 true, .unwrite]).map
        State.writer = some (.unwriteReturn (some none)) ∧
      ¬ ∀ N, 1 ≤ N → ∀ s, (machine (zmqQueue ℕ N)).Reach s → s.writer.atRest = true →
        ∀ values : List ℕ, ∃ s₁ s', RollsBack N s values s₁ s' := by
  refine ⟨rfl, fun claim => ?_⟩
  obtain ⟨s₁, s', h⟩ := claim 2 (by decide) _ .start rfl [5]
  cases h.nothing_of_two (Nat.le_refl 2) .start

end LockFreePipe
