import CppConcurrency.Machines
import CppConcurrency.OrderedSets
import Mathlib.Logic.Function.Basic

/-!
# `Timer`: pending callbacks in a set ordered by expiry

All `Timer` objects take their ids from one counter. `checkTimer` calls the first
callback while its node is still in the set, and erases the node when the callback has
returned. What a callback does is left open: while it runs, any member function of any
object may be called, so that running callbacks form a stack. The clock reading of
each call stands in its label. Times and ids are integers here.
-/

namespace Timers

open Machines OrderedSets

universe u v

structure TimerNodeBase where
  expireTime : ℤ
  id : ℤ
  deriving DecidableEq

structure TimerNode (Task : Type u) extends TimerNodeBase where
  callback : Task

/-- `operator<` on the base part of two nodes. -/
def TimerNodeBase.lt (lhd rhd : TimerNodeBase) : Bool :=
  if lhd.expireTime < rhd.expireTime then true
  else if lhd.expireTime > rhd.expireTime then false
  else decide (lhd.id < rhd.id)

theorem TimerNodeBase.lt_iff {a b : TimerNodeBase} :
    a.lt b = true ↔ a.expireTime < b.expireTime ∨ a.expireTime = b.expireTime ∧ a.id < b.id := by
  unfold TimerNodeBase.lt
  split
  · rename_i before
    exact iff_of_true rfl (Or.inl before)
  · split
    · exact iff_of_false Bool.false_ne_true (by omega)
    · rw [decide_eq_true_iff]
      omega

theorem comparator : Comparator TimerNodeBase.lt where
  irrefl a := by
    rw [Bool.eq_false_iff, ne_eq, TimerNodeBase.lt_iff]
    omega
  trans h h' := by
    rw [TimerNodeBase.lt_iff] at h h' ⊢
    omega
  total h h' := by
    rw [Bool.eq_false_iff, ne_eq, TimerNodeBase.lt_iff] at h h'
    rename_i a b
    obtain ⟨ha, hb⟩ : a.expireTime = b.expireTime ∧ a.id = b.id := by omega
    cases a
    cases b
    simp_all

/-- The nodes as the set compares them. -/
def sliced {Task : Type u} (n : TimerNode Task) : TimerNodeBase := n.toTimerNodeBase

/-- The shared counter, the set of each object, the callbacks that are running, the
innermost first, and what happened so far. No step reads the history: the timers that
were added and deleted, the nodes whose callback was called with the tick that was read
for it, and the latest clock reading. -/
structure State (Obj : Type v) (Task : Type u) where
  gid : ℤ
  map : Obj → List (TimerNode Task)
  firing : List (Obj × TimerNode Task)
  created : List (Obj × TimerNodeBase)
  deleted : List (Obj × TimerNodeBase)
  fired : List (Obj × ℤ × TimerNode Task)
  clock : ℤ

/-- The calls, and the end of the callback that is running. -/
inductive Label (Obj : Type v) (Task : Type u) where
  | addTimer (o : Obj) (tick msec : ℤ) (callback : Task)
  | delTimer (o : Obj) (node : TimerNodeBase)
  | checkTimer (o : Obj) (tick : ℤ)
  | callbackReturns
  | callbackThrows

section

variable {Obj : Type v} [DecidableEq Obj] {Task : Type u}

def State.setMap (s : State Obj Task) (o : Obj) (set : List (TimerNode Task)) : State Obj Task :=
  { s with map := Function.update s.map o set }

/-- The node that `addTimer` makes. -/
def State.newNode (s : State Obj Task) (tick msec : ℤ) (callback : Task) : TimerNode Task :=
  { expireTime := tick + msec, id := s.gid + 1, callback := callback }

/-- `addTimer(msec, f)`, which returns the base part of the new node. -/
def addTimer (s : State Obj Task) (o : Obj) (tick msec : ℤ) (callback : Task) :
    TimerNodeBase × State Obj Task :=
  let tnode := s.newNode tick msec callback
  (sliced tnode,
    { s.setMap o (insert TimerNodeBase.lt sliced tnode (s.map o)) with
      gid := s.gid + 1
      created := s.created ++ [(o, sliced tnode)]
      clock := tick })

/-- `delTimer(node)`. -/
def delTimer (s : State Obj Task) (o : Obj) (node : TimerNodeBase) : Bool × State Obj Task :=
  match find TimerNodeBase.lt sliced node (s.map o) with
  | some it =>
    (true, { s.setMap o (erase TimerNodeBase.lt sliced (sliced it) (s.map o)) with
      deleted := s.deleted ++ [(o, sliced it)] })
  | none => (false, s)

/-- `checkTimer()` up to its return, if it returns false, or to the call of the callback.
An empty set is not compared with the clock. -/
def checkTimer (s : State Obj Task) (o : Obj) (tick : ℤ) : Bool × State Obj Task :=
  match s.map o with
  | it :: _ =>
    if it.expireTime ≤ tick then
      (true, { s with
        firing := (o, it) :: s.firing
        fired := s.fired ++ [(o, tick, it)]
        clock := tick })
    else (false, { s with clock := tick })
  | [] => (false, { s with clock := tick })

/-- The rest of `checkTimer()`; erasing a node that is gone is undefined. -/
def callbackReturns (s : State Obj Task) : Option (State Obj Task) :=
  match s.firing with
  | (o, it) :: outer =>
    if (find TimerNodeBase.lt sliced (sliced it) (s.map o)).isSome then
      some { s.setMap o (erase TimerNodeBase.lt sliced (sliced it) (s.map o)) with firing := outer }
    else none
  | [] => none

def next (s : State Obj Task) : Label Obj Task → Option (State Obj Task)
  | .addTimer o tick msec callback => some (addTimer s o tick msec callback).2
  | .delTimer o node => some (delTimer s o node).2
  | .checkTimer o tick => some (checkTimer s o tick).2
  | .callbackReturns => callbackReturns s
  | .callbackThrows => if s.firing.isEmpty then none else some { s with firing := s.firing.tail }

/-- What a step can be, by its label and by what the call finds. -/
inductive Step (s : State Obj Task) : Label Obj Task → State Obj Task → Prop where
  | adds (o : Obj) (tick msec : ℤ) (callback : Task) :
      Step s (.addTimer o tick msec callback) (addTimer s o tick msec callback).2
  | deletes {o : Obj} {node : TimerNodeBase} {it : TimerNode Task}
      (found : find TimerNodeBase.lt sliced node (s.map o) = some it) :
      Step s (.delTimer o node)
        { s.setMap o (erase TimerNodeBase.lt sliced (sliced it) (s.map o)) with
          deleted := s.deleted ++ [(o, sliced it)] }
  | misses {o : Obj} {node : TimerNodeBase}
      (missing : find TimerNodeBase.lt sliced node (s.map o) = none) : Step s (.delTimer o node) s
  | fires {o : Obj} {tick : ℤ} {it : TimerNode Task} {rest : List (TimerNode Task)}
      (first : s.map o = it :: rest) (due : it.expireTime ≤ tick) :
      Step s (.checkTimer o tick)
        { s with
          firing := (o, it) :: s.firing
          fired := s.fired ++ [(o, tick, it)]
          clock := tick }
  | rests {o : Obj} {tick : ℤ} (early : ∀ it ∈ (s.map o).head?, tick < it.expireTime) :
      Step s (.checkTimer o tick) { s with clock := tick }
  | returns {o : Obj} {it : TimerNode Task} {outer : List (Obj × TimerNode Task)}
      (running : s.firing = (o, it) :: outer)
      (pending : (find TimerNodeBase.lt sliced (sliced it) (s.map o)).isSome = true) :
      Step s .callbackReturns
        { s.setMap o (erase TimerNodeBase.lt sliced (sliced it) (s.map o)) with firing := outer }
  | throws {e : Obj × TimerNode Task} {outer : List (Obj × TimerNode Task)}
      (running : s.firing = e :: outer) : Step s .callbackThrows { s with firing := outer }

omit [DecidableEq Obj] in
theorem checkTimer_rests {s : State Obj Task} {o : Obj} {tick : ℤ}
    (h : (checkTimer s o tick).1 = false) :
    (∀ it ∈ (s.map o).head?, tick < it.expireTime) ∧
      (checkTimer s o tick).2 = { s with clock := tick } := by
  unfold checkTimer at h ⊢
  split at h
  · rename_i it rest first
    split at h
    · cases h
    · rename_i early
      rw [first]
      refine ⟨fun n hn => ?_, if_neg early ▸ rfl⟩
      obtain rfl := Option.some.inj hn
      exact Int.not_le.mp early
  · rename_i empty
    rw [empty]
    exact ⟨fun n hn => (by cases hn), rfl⟩

theorem next_step {s s' : State Obj Task} {l : Label Obj Task} (hs : next s l = some s') :
    Step s l s' := by
  cases l with
  | addTimer o tick msec callback =>
    obtain rfl := Option.some.inj hs
    exact .adds o tick msec callback
  | delTimer o node =>
    obtain rfl := Option.some.inj hs
    unfold delTimer
    split
    · rename_i it found
      exact .deletes found
    · rename_i missing
      exact .misses missing
  | checkTimer o tick =>
    obtain rfl := Option.some.inj hs
    cases answer : (checkTimer s o tick).1 with
    | false =>
      obtain ⟨early, after⟩ := checkTimer_rests answer
      rw [after]
      exact .rests early
    | true =>
      unfold checkTimer at answer ⊢
      split at answer
      · rename_i it rest first
        split at answer
        · rename_i due
          simp only [if_pos due]
          exact .fires first due
        · cases answer
      · cases answer
  | callbackReturns =>
    simp only [next, callbackReturns] at hs
    split at hs
    · rename_i o it outer running
      obtain ⟨pending, ⟨⟩⟩ := Option.ite_none_right_eq_some.mp hs
      exact .returns running pending
    · cases hs
  | callbackThrows =>
    obtain ⟨running, ⟨⟩⟩ := Option.ite_none_left_eq_some.mp hs
    cases firing : s.firing with
    | nil => simp [firing] at running
    | cons e outer => exact .throws firing

/-- Any number of `Timer` objects, none of which has a timer yet. -/
def machine (Obj : Type v) [DecidableEq Obj] (Task : Type u) (clock : ℤ) :
    Machine (State Obj Task) (Label Obj Task) where
  start := ⟨0, fun _ => [], [], [], [], [], clock⟩
  next := next

end

end Timers
