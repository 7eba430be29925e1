import CppConcurrency.Machines
import CppConcurrency.Threads
import Mathlib.Data.Fintype.Basic
import Mathlib.Logic.Function.Basic

/-!
# `ThreadSafeShared_ptr`: handles, counters and objects

A handle has two fields, and every operation reads and writes them one after the other.
The accesses to a counter and the two `delete`s are steps of their own. Constructing
from a pointer or by default, moving and swapping touch nothing that another thread can
reach, so each is one step. The same handle is not destroyed, moved, swapped or assigned
by one thread while another uses it: such a call cannot begin.

A number names a counter and the object it was made for. A block that was deleted is
not handed out again, so that a pointer to it stays dangling. `long` is an integer here:
a handle is two pointers wide, so fewer than 2^63 of them fit into memory.
-/

namespace ThreadSafeSharedPtr

open Machines Threads

universe u v

/-- The fields of a handle; `none` is a null pointer. -/
structure Handle where
  count : Option ℕ
  ptr : Option ℕ
  deriving DecidableEq

inductive Block (V : Type) where
  | unused
  | live (value : V)
  | deleted

/-- Where a call stands, named after the step it is about to make; `h` is the handle
that is being constructed, destroyed or assigned. -/
inductive Call (H : Type u) where
  | rest
  | copyCount (h src : H)
  | copyPtr (h src : H) (count : Option ℕ)
  | copyAdd (h src : H) (count ptr : Option ℕ)
  | destroySub (h : H)
  | deleteCount (h : H) (count ptr : Option ℕ)
  | deletePtr (h : H) (ptr : Option ℕ)
  | assignTest (h src : H)
  | assignSub (h src : H)
  | assignDeleteCount (h src : H)
  | assignDeletePtr (h src : H)
  | assignCount (h src : H)
  | assignPtr (h src : H)
  | assignAdd (h src : H)
  | undefined

/-- The calls. The two constructors that allocate name their new blocks `o`. -/
inductive Op (H : Type u) where
  | construct (h : H) (o : ℕ)
  | constructNull (h : H) (o : ℕ)
  | copy (h src : H)
  | move (h src : H)
  | destroy (h : H)
  | assign (h src : H)
  | swap (h src : H)

namespace Call

variable {H : Type u}

def atRest : Call H → Bool
  | .rest => true
  | _ => false

/-- The handles a running call has to itself, and those it shares. -/
def footprint : Call H → Footprint H
  | .rest | .undefined => ⟨[], []⟩
  | .copyCount h src | .copyPtr h src _ | .copyAdd h src _ _ | .assignTest h src
  | .assignSub h src | .assignDeleteCount h src | .assignDeletePtr h src | .assignCount h src
  | .assignPtr h src | .assignAdd h src => ⟨[h], [src]⟩
  | .destroySub h | .deleteCount h _ _ | .deletePtr h _ => ⟨[h], []⟩

end Call

def Op.footprint {H : Type u} : Op H → Footprint H
  | .construct h _ | .constructNull h _ | .destroy h => ⟨[h], []⟩
  | .copy h src | .assign h src => ⟨[h], [src]⟩
  | .move h src | .swap h src => ⟨[h, src], []⟩

/-- The handles that exist, the blocks, the calls and what happened so far. No step
reads the history: for each counter the threads whose `fetch_sub` on it returned 1, and
for each block the threads that deleted it. -/
structure State (H : Type u) (Tid : Type v) where
  handle : H → Option Handle
  counter : ℕ → Block ℤ
  object : ℕ → Block Unit
  call : Tid → Call H
  dropped : ℕ → List Tid
  countDeletes : ℕ → List Tid
  objectDeletes : ℕ → List Tid

inductive Label (H : Type u) (Tid : Type v) where
  | invoke (t : Tid) (op : Op H)
  | step (t : Tid)

section

variable {H : Type u} {Tid : Type v} [DecidableEq Tid]

def State.setCall (s : State H Tid) (t : Tid) (call : Call H) : State H Tid :=
  { s with call := Function.update s.call t call }

/-- `(*count).fetch_add(1)`. -/
def fetchAdd (s : State H Tid) : Option ℕ → Option (State H Tid)
  | some c =>
    match s.counter c with
    | .live n => some { s with counter := Function.update s.counter c (.live (n + 1)) }
    | _ => none
  | none => none

/-- `(*count).fetch_sub(1)` and whether it returned 1. -/
def fetchSub (s : State H Tid) (t : Tid) : Option ℕ → Option (Bool × State H Tid)
  | some c =>
    match s.counter c with
    | .live n => some (decide (n = 1), { s with
        counter := Function.update s.counter c (.live (n - 1))
        dropped := if n = 1 then Function.update s.dropped c (s.dropped c ++ [t]) else s.dropped })
    | _ => none
  | none => none

/-- `delete count`; deleting null does nothing. -/
def deleteCounter (s : State H Tid) (t : Tid) : Option ℕ → Option (State H Tid)
  | some c =>
    match s.counter c with
    | .live _ => some { s with
        counter := Function.update s.counter c .deleted
        countDeletes := Function.update s.countDeletes c (s.countDeletes c ++ [t]) }
    | _ => none
  | none => some s

/-- `delete ptr`. -/
def deleteObject (s : State H Tid) (t : Tid) : Option ℕ → Option (State H Tid)
  | some o =>
    match s.object o with
    | .live _ => some { s with
        object := Function.update s.object o .deleted
        objectDeletes := Function.update s.objectDeletes o (s.objectDeletes o ++ [t]) }
    | _ => none
  | none => some s

variable [DecidableEq H]

def State.setHandle (s : State H Tid) (h : H) (handle : Option Handle) : State H Tid :=
  { s with handle := Function.update s.handle h handle }

/-- A call that can begin: a handle is constructed where there is none, and every other
handle exists. The destructor of a null handle does nothing. -/
def invoke (s : State H Tid) (t : Tid) : Op H → Option (State H Tid)
  | .construct h o =>
    match s.handle h, s.counter o, s.object o with
    | none, .unused, .unused => some { s.setHandle h (some ⟨some o, some o⟩) with
        counter := Function.update s.counter o (.live 1)
        object := Function.update s.object o (.live ()) }
    | _, _, _ => none
  | .constructNull h o =>
    match s.handle h, s.counter o, s.object o with
    | none, .unused, .unused => some { s.setHandle h (some ⟨some o, none⟩) with
        counter := Function.update s.counter o (.live 0) }
    | _, _, _ => none
  | .copy h src =>
    match s.handle h, s.handle src with
    | none, some _ => some (s.setCall t (.copyCount h src))
    | _, _ => none
  | .move h src =>
    match s.handle h, s.handle src with
    | none, some k => some ((s.setHandle h (some k)).setHandle src (some ⟨none, none⟩))
    | _, _ => none
  | .destroy h =>
    match s.handle h with
    | some ⟨_, none⟩ => some (s.setHandle h none)
    | some ⟨_, some _⟩ => some (s.setCall t (.destroySub h))
    | none => none
  | .assign h src =>
    match s.handle h, s.handle src with
    | some _, some _ => some (s.setCall t (.assignTest h src))
    | _, _ => none
  | .swap h src =>
    match s.handle h, s.handle src with
    | some k, some l => some ((s.setHandle h (some l)).setHandle src (some k))
    | _, _ => none

/-- The next step of a running call, if it is defined. `*this == other` compares the
two handles as booleans. -/
def perform (s : State H Tid) (t : Tid) : Call H → Option (State H Tid)
  | .copyCount h src => (s.handle src).map fun k => s.setCall t (.copyPtr h src k.count)
  | .copyPtr h src count => (s.handle src).map fun k => s.setCall t (.copyAdd h src count k.ptr)
  | .copyAdd h _ count ptr =>
    (fetchAdd s count).map fun s => (s.setHandle h (some ⟨count, ptr⟩)).setCall t .rest
  | .destroySub h => (s.handle h).bind fun k => (fetchSub s t k.count).map fun (last, s) =>
      (s.setHandle h none).setCall t (if last then .deleteCount h k.count k.ptr else .rest)
  | .deleteCount h count ptr =>
    (deleteCounter s t count).map fun s => s.setCall t (.deletePtr h ptr)
  | .deletePtr _ ptr => (deleteObject s t ptr).map fun s => s.setCall t .rest
  | .assignTest h src => (s.handle h).bind fun k => (s.handle src).map fun l =>
      s.setCall t (if k.ptr.isSome = l.ptr.isSome then .rest else .assignSub h src)
  | .assignSub h src => (s.handle h).bind fun k => (fetchSub s t k.count).map fun (last, s) =>
      s.setCall t (if last then .assignDeleteCount h src else .assignCount h src)
  | .assignDeleteCount h src => (s.handle h).bind fun k =>
      (deleteCounter s t k.count).map fun s => s.setCall t (.assignDeletePtr h src)
  | .assignDeletePtr h src => (s.handle h).bind fun k =>
      (deleteObject s t k.ptr).map fun s => s.setCall t (.assignCount h src)
  | .assignCount h src => (s.handle h).bind fun k => (s.handle src).map fun l =>
      (s.setHandle h (some { k with count := l.count })).setCall t (.assignPtr h src)
  | .assignPtr h src => (s.handle h).bind fun k => (s.handle src).map fun l =>
      (s.setHandle h (some { k with ptr := l.ptr })).setCall t (.assignAdd h src)
  | .assignAdd h _ => (s.handle h).bind fun k =>
      (fetchAdd s k.count).map fun s => s.setCall t .rest
  | .rest | .undefined => none

def next [Fintype Tid] (s : State H Tid) : Label H Tid → Option (State H Tid)
  | .invoke t op =>
    if (s.call t).atRest = true ∧ ∀ u, u ≠ t → op.footprint.Apart (s.call u).footprint then
      invoke s t op
    else none
  | .step t =>
    match s.call t with
    | .rest | .undefined => none
    | call => some ((perform s t call).getD (s.setCall t .undefined))

/-- No handle exists and nothing is allocated. -/
def machine (H : Type u) [DecidableEq H] (Tid : Type v) [DecidableEq Tid] [Fintype Tid] :
    Machine (State H Tid) (Label H Tid) where
  start :=
    { handle := fun _ => none
      counter := fun _ => .unused
      object := fun _ => .unused
      call := fun _ => .rest
      dropped := fun _ => []
      countDeletes := fun _ => []
      objectDeletes := fun _ => [] }
  next := next

end

end ThreadSafeSharedPtr
