import Mathlib.Data.Nat.Bitwise
import Mathlib.Logic.Function.Basic

/-!
# `LockFreeArrayQueue`: two growing indices over an array

Indices only grow, and an element lies in the slot of its index masked with the size
minus one. Both are exact here, but an index that would pass the largest `long long` has
no value: the addition is undefined. What a `std::move` out of an element leaves behind
is up to the type, so it is a parameter.
-/

namespace LockFreeArray

universe u

structure LockFreeArrayQueue (E : Type u) where
  elementQueue : ℕ → E
  activeQueue : ℕ → ℤ
  maxQueueSize : ℕ
  writeIndex : ℕ
  readIndex : ℕ

/-- `nIndex + 1` in `long long`. -/
def increment (index : ℕ) : Option ℕ := if index + 1 < 2 ^ 63 then some (index + 1) else none

namespace LockFreeArrayQueue

variable {E : Type u} (q : LockFreeArrayQueue E)

/-- `Init(nMode, nQueueSize)`, or the code it fails with; `lock` is what the lock's `Init`
returns. The elements are made by the default constructor. -/
def init (lock : ℤ) (blank : E) (queueSize : ℕ) : Except ℤ (LockFreeArrayQueue E) :=
  let q :=
    { elementQueue := fun _ => blank
      activeQueue := fun _ => 0
      maxQueueSize := queueSize
      writeIndex := 0
      readIndex := 0 }
  if queueSize ≤ 1 then .error (-2)
  else if lock < 0 then .error (-1)
  else .ok q

/-- `LOCK_FREE_ARRAY_QUEUE_DEFAULT_SIZE`. -/
def defaultSize : ℕ := 65535

def size : ℤ :=
  if q.readIndex ≤ q.writeIndex then q.writeIndex - q.readIndex
  else q.writeIndex - q.readIndex + q.maxQueueSize

def isFull (writeIndex readIndex : ℕ) : Bool :=
  decide ((writeIndex : ℤ) - readIndex ≥ q.maxQueueSize)

def isEmpty (writeIndex readIndex : ℕ) : Bool := decide (writeIndex ≤ readIndex)

def transIndex (index : ℕ) : ℕ := index &&& (q.maxQueueSize - 1)

/-- `m_tElementQuque[index] = e`. -/
def setElement (index : ℕ) (e : E) : LockFreeArrayQueue E :=
  { q with elementQueue := Function.update q.elementQueue index e }

/-- `m_tActiveQueue[index] = active`. -/
def setActive (index : ℕ) (active : ℤ) : LockFreeArrayQueue E :=
  { q with activeQueue := Function.update q.activeQueue index active }

/-- `Push_Lock(e)`. -/
def pushLock (e : E) : Option (Bool × LockFreeArrayQueue E) :=
  if q.isFull q.writeIndex q.readIndex then some (false, q)
  else
    (increment q.writeIndex).map fun writeIndex =>
      (true, { q.setElement (q.transIndex q.writeIndex) e with writeIndex := writeIndex })

/-- `Pop_Lock(e)`, which returns false where there is no element. -/
def popLock (moved : E → E) : Option (Option E × LockFreeArrayQueue E) :=
  if isEmpty q.writeIndex q.readIndex then some (none, q)
  else
    let index := q.transIndex q.readIndex
    let e := q.elementQueue index
    (increment q.readIndex).map fun readIndex =>
      (some e, { q.setElement index (moved e) with readIndex := readIndex })

end LockFreeArrayQueue

inductive Op (E : Type u) where
  | push (e : E)
  | pop

end LockFreeArray
