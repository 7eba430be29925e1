import CppConcurrency.Machines
import CppConcurrency.WordCounters
import Mathlib.Logic.Function.Basic

/-!
# `LockFreeQueueCpp11`: the ring buffer and the steps of its calls

`size_t` is a 64-bit word and all counter arithmetic wraps. A call is cut at its
accesses to shared memory: the load of the counter, the load of the slot's sequence
number, the compare-exchange, each access to the slot's storage and the final store
are single steps, so other threads can run between any two of them.
`compare_exchange_weak` may fail although the counter is the expected one; a flag
of the step says so. Memory orders are not modelled: steps interleave sequentially.
-/

namespace LockFreeQueue

open Machines

universe u v

abbrev SizeT := BitVec 64

/-- `data` is raw storage: `none` where no `T` is constructed. -/
structure Node (T : Type u) where
  data : Option T
  tail : SizeT
  head : SizeT

structure LockFreeQueueCpp11 (T : Type u) where
  capacityMask : SizeT
  queue : ℕ → Node T
  capacity : SizeT
  tail : SizeT
  head : SizeT

/-- `sizeof(void*)` on the 64-bit target. -/
def sizeofPointer : SizeT := 8

/-- `for(size_t i = 1; i <= sizeof(void*) * 4; i <<= 1) _capacityMask |= _capacityMask >> i;`
The bound on the iterations is never met: `i` doubles, so six are run. -/
def roundMask : ℕ → SizeT → SizeT → SizeT
  | 0, _, mask => mask
  | fuel + 1, i, mask =>
    if i ≤ sizeofPointer * 4 then roundMask fuel (i <<< 1) (mask ||| mask >>> i) else mask

namespace LockFreeQueueCpp11

variable {T : Type u}

/-- The constructor. No access leaves the nodes below `_capacity`, which are the
ones its loop initialises. -/
def new (capacity : SizeT) : LockFreeQueueCpp11 T :=
  let mask := roundMask 64 1 (capacity - 1)
  { capacityMask := mask
    capacity := mask + 1
    queue := fun i => ⟨none, BitVec.ofNat 64 i, -1⟩
    tail := 0
    head := 0 }

variable (q : LockFreeQueueCpp11 T)

def size : SizeT := q.tail - q.head

/-- The index of `_queue[x & _capacityMask]`. -/
def slot (x : SizeT) : ℕ := (x &&& q.capacityMask).toNat

def node (x : SizeT) : Node T := q.queue (q.slot x)

def setNode (x : SizeT) (n : Node T) : LockFreeQueueCpp11 T :=
  { q with queue := Function.update q.queue (q.slot x) n }

def storeData (x : SizeT) (data : Option T) : LockFreeQueueCpp11 T :=
  q.setNode x { q.node x with data := data }

def storeTail (x value : SizeT) : LockFreeQueueCpp11 T :=
  q.setNode x { q.node x with tail := value }

def storeHead (x value : SizeT) : LockFreeQueueCpp11 T :=
  q.setNode x { q.node x with head := value }

/-! Each store changes one field of one node. -/

theorem setNode_queue (x : SizeT) (n : Node T) (i : ℕ) :
    (q.setNode x n).queue i = if i = q.slot x then n else q.queue i := by
  simp only [setNode, Function.update_apply]

@[simp] theorem storeData_capacity (x : SizeT) (data : Option T) :
    (q.storeData x data).capacity = q.capacity := rfl

@[simp] theorem storeData_tail (x : SizeT) (data : Option T) (i : ℕ) :
    ((q.storeData x data).queue i).tail = (q.queue i).tail := by
  rw [storeData, setNode_queue]
  split
  · subst i; rfl
  · rfl

@[simp] theorem storeData_head (x : SizeT) (data : Option T) (i : ℕ) :
    ((q.storeData x data).queue i).head = (q.queue i).head := by
  rw [storeData, setNode_queue]
  split
  · subst i; rfl
  · rfl

theorem storeData_data (x : SizeT) (data : Option T) (i : ℕ) :
    ((q.storeData x data).queue i).data = if i = q.slot x then data else (q.queue i).data := by
  rw [storeData, setNode_queue]
  split <;> rfl

@[simp] theorem storeHead_tail (x value : SizeT) (i : ℕ) :
    ((q.storeHead x value).queue i).tail = (q.queue i).tail := by
  rw [storeHead, setNode_queue]
  split
  · subst i; rfl
  · rfl

theorem storeHead_head (x value : SizeT) (i : ℕ) :
    ((q.storeHead x value).queue i).head = if i = q.slot x then value else (q.queue i).head := by
  rw [storeHead, setNode_queue]
  split <;> rfl

@[simp] theorem storeHead_data (x value : SizeT) (i : ℕ) :
    ((q.storeHead x value).queue i).data = (q.queue i).data := by
  rw [storeHead, setNode_queue]
  split
  · subst i; rfl
  · rfl

theorem storeTail_tail (x value : SizeT) (i : ℕ) :
    ((q.storeTail x value).queue i).tail = if i = q.slot x then value else (q.queue i).tail := by
  rw [storeTail, setNode_queue]
  split <;> rfl

@[simp] theorem storeTail_head (x value : SizeT) (i : ℕ) :
    ((q.storeTail x value).queue i).head = (q.queue i).head := by
  rw [storeTail, setNode_queue]
  split
  · subst i; rfl
  · rfl

@[simp] theorem storeTail_data (x value : SizeT) (i : ℕ) :
    ((q.storeTail x value).queue i).data = (q.queue i).data := by
  rw [storeTail, setNode_queue]
  split
  · subst i; rfl
  · rfl

end LockFreeQueueCpp11

open LockFreeQueueCpp11

/-- Where a call stands, with its local variables: each state is named after the
access it is about to make. `rest` is a thread that has made no call yet. -/
inductive Call (T : Type u) where
  | rest
  | pushLoad (data : T)
  | pushTest (data : T) (tail : SizeT)
  | pushClaim (data : T) (tail : SizeT)
  | pushConstruct (data : T) (tail : SizeT)
  | pushPublish (tail : SizeT)
  | pushReturn (ok : Bool)
  | popLoad
  | popTest (head : SizeT)
  | popClaim (head : SizeT)
  | popCopy (head : SizeT)
  | popDestroy (head : SizeT) (result : Option T)
  | popRelease (head : SizeT) (result : Option T)
  | popReturn (ok : Bool) (result : Option T)
  deriving DecidableEq

variable {T : Type u}

/-- No call is running: none was made, or the last one has returned. -/
def Call.atRest : Call T → Bool
  | .rest | .pushReturn _ | .popReturn _ _ => true
  | _ => false

/-- The returned call reports failure. -/
def Call.refused : Call T → Bool
  | .pushReturn false | .popReturn false _ => true
  | _ => false

/-- One step of a running call. A failed compare-exchange reloads the counter and
goes back to the test, which is the next iteration of `for(;;)`. -/
def advance (q : LockFreeQueueCpp11 T) (spurious : Bool) :
    Call T → LockFreeQueueCpp11 T × Call T
  | .pushLoad data => (q, .pushTest data q.tail)
  | .pushTest data tail =>
    if (q.node tail).tail ≠ tail then (q, .pushReturn false) else (q, .pushClaim data tail)
  | .pushClaim data tail =>
    if q.tail = tail ∧ spurious = false then
      ({ q with tail := tail + 1 }, .pushConstruct data tail)
    else (q, .pushTest data q.tail)
  | .pushConstruct data tail => (q.storeData tail (some data), .pushPublish tail)
  | .pushPublish tail => (q.storeHead tail tail, .pushReturn true)
  | .popLoad => (q, .popTest q.head)
  | .popTest head =>
    if (q.node head).head ≠ head then (q, .popReturn false none) else (q, .popClaim head)
  | .popClaim head =>
    if q.head = head ∧ spurious = false then
      ({ q with head := head + 1 }, .popCopy head)
    else (q, .popTest q.head)
  | .popCopy head => (q, .popDestroy head (q.node head).data)
  | .popDestroy head result => (q.storeData head none, .popRelease head result)
  | .popRelease head result =>
    (q.storeTail head (head + q.capacity), .popReturn true result)
  | call => (q, call)

/-! ### Calls that run alone -/

inductive Op (T : Type u) where
  | push (data : T)
  | pop

def Op.invoke : Op T → Call T
  | .push data => .pushLoad data
  | .pop => .popLoad

/-- Run a call with no other thread in between. The flags say which of its steps
fail spuriously; `none` when they are used up before the call returns. -/
def drive (q : LockFreeQueueCpp11 T) : Call T → List Bool → Option (LockFreeQueueCpp11 T × Call T)
  | call, [] => if call.atRest then some (q, call) else none
  | call, spurious :: rest =>
    if call.atRest then some (q, call)
    else drive (advance q spurious call).1 (advance q spurious call).2 rest

/-- Calls made one after the other: what each returned, and the queue they leave. -/
def runCalls (q : LockFreeQueueCpp11 T) :
    List (Op T × List Bool) → Option (List (Call T) × LockFreeQueueCpp11 T)
  | [] => some ([], q)
  | (op, flags) :: rest =>
    (drive q op.invoke flags).bind fun (q', returned) =>
      (runCalls q' rest).map fun (later, q'') => (returned :: later, q'')

/-! ### Calls of many threads -/

/-- Shared memory, the call of each thread, and what happened so far. The history
is read by no step: `pushes` and `pops` list the successful compare-exchanges, each
with the counter value it took, so the position of a call in the list is the number
of its ticket. `seen t` is how many tickets the counter that `t` holds had issued when
`t` last read it. `filled`, `copied` and `released` record by ticket whose item is
in, which value the pop copied out, and whose slot has been handed on. -/
structure State (Tid : Type v) (T : Type u) where
  q : LockFreeQueueCpp11 T
  call : Tid → Call T
  seen : Tid → ℕ
  pushes : List (SizeT × Tid × T)
  pops : List (SizeT × Tid)
  filled : List ℕ
  copied : List (ℕ × Tid × Option T)
  released : List ℕ

inductive Label (Tid : Type v) (T : Type u) where
  | invoke (t : Tid) (op : Op T)
  | step (t : Tid) (spurious : Bool)

def Label.thread {Tid : Type v} : Label Tid T → Tid
  | .invoke t _ | .step t _ => t

variable {Tid : Type v} [DecidableEq Tid]

def State.setCall (s : State Tid T) (t : Tid) (call : Call T) : State Tid T :=
  { s with call := Function.update s.call t call }

def State.see (s : State Tid T) (t : Tid) (issued : ℕ) : State Tid T :=
  { s with seen := Function.update s.seen t issued }

/-- The history entry of the step that takes `t`'s call to `after`. -/
def record (s : State Tid T) (t : Tid) (after : Call T) : State Tid T :=
  match s.call t, after with
  | .pushLoad _, _ => s.see t s.pushes.length
  | .pushClaim data tail, .pushConstruct _ _ =>
    { s.see t s.pushes.length with pushes := s.pushes ++ [(tail, t, data)] }
  | .pushClaim _ _, _ => s.see t s.pushes.length
  | .pushPublish _, _ => { s with filled := s.filled ++ [s.seen t] }
  | .popLoad, _ => s.see t s.pops.length
  | .popClaim head, .popCopy _ =>
    { s.see t s.pops.length with pops := s.pops ++ [(head, t)] }
  | .popClaim _, _ => s.see t s.pops.length
  | .popCopy _, .popDestroy _ result => { s with copied := s.copied ++ [(s.seen t, t, result)] }
  | .popRelease _ _, _ => { s with released := s.released ++ [s.seen t] }
  | _, _ => s

def next (s : State Tid T) : Label Tid T → Option (State Tid T)
  | .invoke t op => if (s.call t).atRest then some (s.setCall t op.invoke) else none
  | .step t spurious =>
    if (s.call t).atRest then none
    else
      let r := advance s.q spurious (s.call t)
      some { (record s t r.2).setCall t r.2 with q := r.1 }

/-- What a step can be, by its label. -/
inductive Step (s : State Tid T) : Label Tid T → State Tid T → Prop where
  | invoke {t : Tid} (rest : (s.call t).atRest = true) (op : Op T) :
      Step s (.invoke t op) (s.setCall t op.invoke)
  | step {t : Tid} (running : (s.call t).atRest = false) (spurious : Bool) :
      Step s (.step t spurious)
        { (record s t (advance s.q spurious (s.call t)).2).setCall t
            (advance s.q spurious (s.call t)).2 with
          q := (advance s.q spurious (s.call t)).1 }

theorem next_step {s s' : State Tid T} {l : Label Tid T} (hs : next s l = some s') :
    Step s l s' := by
  cases l with
  | invoke t op =>
    obtain ⟨rest, ⟨⟩⟩ := Option.ite_none_right_eq_some.mp hs
    exact .invoke rest op
  | step t spurious =>
    obtain ⟨running, ⟨⟩⟩ := Option.ite_none_left_eq_some.mp hs
    exact .step (Bool.eq_false_iff.mpr running) spurious

/-- A step moves the call of its own thread only. -/
theorem next_other {s s' : State Tid T} {l : Label Tid T} (hs : next s l = some s') {t : Tid}
    (other : t ≠ l.thread) : s'.call t = s.call t ∧ s'.seen t = s.seen t := by
  cases next_step hs with
  | invoke rest op => exact ⟨Function.update_of_ne other _ _, rfl⟩
  | @step u running spurious =>
    change t ≠ u at other
    simp only [State.setCall, record]
    split <;> simp [State.see, Function.update_of_ne other]

/-- Any number of threads, each making any sequence of calls on one queue. -/
def machine (Tid : Type v) [DecidableEq Tid] (T : Type u) (capacity : SizeT) :
    Machine (State Tid T) (Label Tid T) where
  start := ⟨new capacity, fun _ => .rest, fun _ => 0, [], [], [], [], []⟩
  next := next

end LockFreeQueue
