import CppConcurrency.Machines
import CppConcurrency.Threads
import CppConcurrency.LinkedChains
import Mathlib.Data.Fintype.Basic
import Mathlib.Logic.Function.Basic

/-!
# `ThreadSafeQueue`: two mutexes, a dummy node and a condition variable

Producers work on the tail under `tail_mutex`, consumers on the head under
`head_mutex`, and `get_tail` takes the tail mutex inside the head's critical section.
Every lock operation and every write to a node is a step of its own. `cond.wait`
releases `head_mutex` and blocks in one step; a notification or a spurious wake-up
sends the thread back to reacquire the mutex. Both overloads of `push` run the same
code; the four pops are one call with a parameter.
-/

namespace ThreadSafeQueue

open Machines

universe u v

abbrev Addr := ℕ

/-- `data` and `next` are owning pointers, null when `none`. -/
structure Node (T : Type u) where
  data : Option T
  next : Option Addr

/-- `new node`. -/
def Node.fresh {T : Type u} : Node T := ⟨none, none⟩

/-- `try_pop()`, `try_pop(T&)`, `wait_and_pop()` and `wait_and_pop(T&)`. -/
inductive Pop where
  | tryPop
  | tryPopInto
  | waitAndPop
  | waitAndPopInto
  deriving DecidableEq

def Pop.waits : Pop → Bool
  | .waitAndPop | .waitAndPopInto => true
  | .tryPop | .tryPopInto => false

/-- The element goes to the caller's variable, out of the node at the head. -/
def Pop.into : Pop → Bool
  | .tryPopInto | .waitAndPopInto => true
  | .tryPop | .waitAndPop => false

/-- Where a call stands: each state is named after the step it is about to make.
`block` is the consumer whose predicate was false and that has not blocked yet. -/
inductive Call (T : Type u) where
  | rest
  | pushAlloc (data : T)
  | pushLock (data : T) (p : Addr)
  | pushData (data : T) (p : Addr)
  | pushNext (data : T) (p : Addr)
  | pushTail (data : T) (p : Addr)
  | pushNotify
  | pushReturn
  | lockHead (pop : Pop)
  | lockTail (pop : Pop)
  | readTail (pop : Pop)
  | refuse
  | block (pop : Pop)
  | blocked (pop : Pop)
  | woken (pop : Pop)
  | copy (pop : Pop)
  | takeHead (pop : Pop) (value : Option T)
  | relink (pop : Pop) (old : Addr) (value : Option T)
  | finish (pop : Pop) (old : Addr) (value : Option T)
  | popReturn (ok : Bool) (value : Option T)
  | undefined
  deriving DecidableEq

inductive Op (T : Type u) where
  | push (data : T)
  | pop (kind : Pop)

def Op.invoke {T : Type u} : Op T → Call T
  | .push data => .pushAlloc data
  | .pop kind => .lockHead kind

namespace Call

variable {T : Type u}

def atRest : Call T → Bool
  | .rest | .pushReturn | .popReturn _ _ => true
  | _ => false

def isBlocked : Call T → Bool
  | .blocked _ => true
  | _ => false

/-- Inside the critical section of `head_mutex`. -/
def holdsHead : Call T → Bool
  | .lockTail _ | .readTail _ | .refuse | .block _ | .copy _ | .takeHead _ _ | .relink _ _ _ => true
  | _ => false

/-- Inside the critical section of `tail_mutex`. -/
def holdsTail : Call T → Bool
  | .pushData _ _ | .pushNext _ _ | .pushTail _ _ | .readTail _ => true
  | _ => false

/-- The node only this call can reach: allocated and not yet the tail, or unlinked. -/
def node : Call T → Option Addr
  | .pushLock _ p | .pushData _ p | .pushNext _ p | .pushTail _ p => some p
  | .relink _ old _ | .finish _ old _ => some old
  | _ => none

/-- Some writes of the critical section are done and some are not. -/
def halfDone : Call T → Bool
  | .pushNext _ _ | .pushTail _ _ | .relink _ _ _ => true
  | _ => false

end Call

/-- The queue, its mutexes, the calls and what happened so far. No step reads the
history: `pushed` and `popped` are in the order of the critical sections, a pop with
the data its node held, and `sawEmpty t` tells whether every element pushed had been
popped when `t` last read `tail`. -/
structure State (Tid : Type v) (T : Type u) where
  heap : Addr → Option (Node T)
  head : Option Addr
  tail : Addr
  headMutex : Option Tid
  tailMutex : Option Tid
  call : Tid → Call T
  pushed : List (Tid × T)
  popped : List (Tid × Option T)
  sawEmpty : Tid → Bool

/-- `alloc` and `notify` carry the address the allocator picks and the thread the
condition variable wakes. -/
inductive Label (Tid : Type v) (T : Type u) where
  | invoke (t : Tid) (op : Op T)
  | alloc (t : Tid) (p : Addr)
  | notify (t : Tid) (wake : Option Tid)
  | spurious (t : Tid)
  | step (t : Tid)

section

variable {Tid : Type v} [DecidableEq Tid] {T : Type u}

def State.setCall (s : State Tid T) (t : Tid) (call : Call T) : State Tid T :=
  { s with call := Function.update s.call t call }

def State.setNode (s : State Tid T) (a : Addr) (n : Option (Node T)) : State Tid T :=
  { s with heap := Function.update s.heap a n }

/-- One step of a running call that leaves no choice open. A dereferenced null or
dangling pointer, and an assignment that would free a node still linked, go to
`undefined`. -/
def advance (s : State Tid T) (t : Tid) : Option (State Tid T) :=
  match s.call t with
  | .pushLock data p =>
    if s.tailMutex.isSome then none
    else some ({ s with tailMutex := some t }.setCall t (.pushData data p))
  | .pushData data p =>
    match s.heap s.tail with
    | some n => some ((s.setNode s.tail (some { n with data := some data })).setCall t
        (.pushNext data p))
    | none => some (s.setCall t .undefined)
  | .pushNext data p =>
    match s.heap s.tail with
    | some ⟨held, none⟩ => some ((s.setNode s.tail (some ⟨held, some p⟩)).setCall t
        (.pushTail data p))
    | _ => some (s.setCall t .undefined)
  | .pushTail data p =>
    some ({ s with
      tail := p
      tailMutex := none
      pushed := s.pushed ++ [(t, data)] }.setCall t .pushNotify)
  | .lockHead pop | .woken pop =>
    if s.headMutex.isSome then none
    else some ({ s with headMutex := some t }.setCall t (.lockTail pop))
  | .lockTail pop =>
    if s.tailMutex.isSome then none
    else some ({ s with tailMutex := some t }.setCall t (.readTail pop))
  | .readTail pop =>
    let after : Call T :=
      if s.head = some s.tail then (if pop.waits then .block pop else .refuse)
      else if pop.into then .copy pop else .takeHead pop none
    some ({ s with
      tailMutex := none
      sawEmpty := Function.update s.sawEmpty t (decide (s.popped.length = s.pushed.length)) }.setCall
        t after)
  | .refuse => some ({ s with headMutex := none }.setCall t (.popReturn false none))
  | .block pop => some ({ s with headMutex := none }.setCall t (.blocked pop))
  -- the moved-from element stays in its node, which `finish` frees unread
  | .copy pop =>
    match s.head.bind s.heap with
    | some ⟨some value, _⟩ => some (s.setCall t (.takeHead pop (some value)))
    | _ => some (s.setCall t .undefined)
  | .takeHead pop value =>
    match s.head with
    | some old => some ({ s with
        head := none
        popped := s.popped ++ [(t, (s.heap old).bind Node.data)] }.setCall t (.relink pop old value))
    | none => some (s.setCall t .undefined)
  | .relink pop old value =>
    match s.heap old with
    | some n => some (({ s with head := n.next, headMutex := none }.setNode old
        (some { n with next := none })).setCall t (.finish pop old value))
    | none => some (s.setCall t .undefined)
  | .finish pop old value =>
    match s.heap old with
    | some ⟨data, none⟩ =>
      some ((s.setNode old none).setCall t (.popReturn true (if pop.into then value else data)))
    | _ => some (s.setCall t .undefined)
  | .rest | .pushAlloc _ | .pushNotify | .pushReturn | .blocked _ | .popReturn _ _ | .undefined =>
    none

/-- `cond.notify_one()`: one of the threads blocked at this moment, or nobody when
there is none. -/
def notify [Fintype Tid] (s : State Tid T) (t : Tid) : Option Tid → Option (State Tid T)
  | some u =>
    match s.call t, s.call u with
    | .pushNotify, .blocked pop => some ((s.setCall t .pushReturn).setCall u (.woken pop))
    | _, _ => none
  | none =>
    match s.call t with
    | .pushNotify =>
      if ∀ u, (s.call u).isBlocked = false then some (s.setCall t .pushReturn) else none
    | _ => none

def next [Fintype Tid] (s : State Tid T) : Label Tid T → Option (State Tid T)
  | .invoke t op => if (s.call t).atRest then some (s.setCall t op.invoke) else none
  | .alloc t p =>
    match s.call t with
    | .pushAlloc data =>
      if (s.heap p).isSome then none
      else some ((s.setNode p (some .fresh)).setCall t (.pushLock data p))
    | _ => none
  | .notify t wake => notify s t wake
  | .spurious t =>
    match s.call t with
    | .blocked pop => some (s.setCall t (.woken pop))
    | _ => none
  | .step t => advance s t

end

/-- `ThreadSafeQueue():head(new node), tail(head.get())`, and threads that call it. -/
def machine (Tid : Type v) [DecidableEq Tid] [Fintype Tid] (T : Type u) :
    Machine (State Tid T) (Label Tid T) where
  start :=
    { heap := Function.update (fun _ => none) 0 (some .fresh)
      head := some 0
      tail := 0
      headMutex := none
      tailMutex := none
      call := fun _ => .rest
      pushed := []
      popped := []
      sawEmpty := fun _ => false }
  next := next

/-! ### Calls at rest -/

section AtRest

variable {Tid : Type v} [DecidableEq Tid] {T : Type u} {s s' : State Tid T} {t u : Tid}

/-- The thread that makes the step. -/
def Label.thread : Label Tid T → Tid
  | .invoke t _ | .alloc t _ | .notify t _ | .spurious t | .step t => t

def Label.isInvoke : Label Tid T → Bool
  | .invoke _ _ => true
  | _ => false

theorem advance_other (hs : advance s t = some s') (other : u ≠ t) : s'.call u = s.call u := by
  unfold advance at hs
  split at hs
  all_goals try split at hs
  all_goals try cases hs
  all_goals exact Function.update_of_ne other _ _

theorem advance_atRest (rest : (s.call t).atRest = true) : advance s t = none := by
  cases hc : s.call t with
  | rest | pushReturn | popReturn => simp only [advance, hc]
  | _ =>
    rw [hc] at rest
    cases rest

variable [Fintype Tid]

/-- What a step can be, by its label. -/
inductive Step (s : State Tid T) : Label Tid T → State Tid T → Prop where
  | invoke {t : Tid} (rest : (s.call t).atRest = true) (op : Op T) :
      Step s (.invoke t op) (s.setCall t op.invoke)
  | alloc {t : Tid} {p : Addr} {data : T} (hc : s.call t = .pushAlloc data) (free : s.heap p = none) :
      Step s (.alloc t p) ((s.setNode p (some .fresh)).setCall t (.pushLock data p))
  | notifyOne {t u : Tid} {pop : Pop} (hc : s.call t = .pushNotify) (hu : s.call u = .blocked pop) :
      Step s (.notify t (some u)) ((s.setCall t .pushReturn).setCall u (.woken pop))
  | notifyNobody {t : Tid} (hc : s.call t = .pushNotify) (nobody : ∀ u, (s.call u).isBlocked = false) :
      Step s (.notify t none) (s.setCall t .pushReturn)
  | spurious {t : Tid} {pop : Pop} (hc : s.call t = .blocked pop) :
      Step s (.spurious t) (s.setCall t (.woken pop))
  | step {t : Tid} {s' : State Tid T} (moved : advance s t = some s') : Step s (.step t) s'

theorem next_step {l : Label Tid T} (hs : next s l = some s') : Step s l s' := by
  cases l with
  | invoke t op =>
    obtain ⟨rest, ⟨⟩⟩ := Option.ite_none_right_eq_some.mp hs
    exact .invoke rest op
  | alloc t p =>
    simp only [next] at hs
    split at hs
    · rename_i data hc
      split at hs
      · cases hs
      · rename_i free
        obtain rfl := Option.some.inj hs
        exact .alloc hc (Option.not_isSome_iff_eq_none.mp free)
    · cases hs
  | notify t wake =>
    cases wake with
    | some u =>
      simp only [next, notify] at hs
      split at hs
      · rename_i pop hc hu
        obtain rfl := Option.some.inj hs
        exact .notifyOne hc hu
      · cases hs
    | none =>
      simp only [next, notify] at hs
      split at hs
      · rename_i hc
        obtain ⟨nobody, ⟨⟩⟩ := Option.ite_none_right_eq_some.mp hs
        exact .notifyNobody hc nobody
      · cases hs
  | spurious t =>
    simp only [next] at hs
    split at hs
    · rename_i pop hc
      obtain rfl := Option.some.inj hs
      exact .spurious hc
    · cases hs
  | step t => exact .step hs

/-- Only an invocation starts a call. -/
theorem next_atRest {l : Label Tid T} (rest : (s.call l.thread).atRest = true)
    (inside : l.isInvoke = false) : next s l = none := by
  cases hs : next s l with
  | none => rfl
  | some s' =>
    cases next_step hs with
    | invoke => cases inside
    | alloc hc | notifyOne hc | notifyNobody hc | spurious hc =>
      simp only [Label.thread, hc] at rest
      cases rest
    | step moved =>
      have := (advance_atRest rest).symm.trans moved
      cases this

/-- No thread touches a call of another thread that is at rest. -/
theorem next_other {l : Label Tid T} (hs : next s l = some s') (other : u ≠ l.thread)
    (rest : (s.call u).atRest = true) : s'.call u = s.call u := by
  cases next_step hs with
  | invoke | alloc | notifyNobody | spurious => exact Function.update_of_ne other _ _
  | notifyOne hc hu =>
    refine (Function.update_of_ne ?_ _ _).trans (Function.update_of_ne other _ _)
    rintro rfl
    rw [hu] at rest
    cases rest
  | step moved => exact advance_other moved other

end AtRest

end ThreadSafeQueue
