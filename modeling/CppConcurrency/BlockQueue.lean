import CppConcurrency.Machines
import Mathlib.Data.Fintype.Basic
import Mathlib.Logic.Function.Basic

/-!
# `BlockQueue`: one mutex, one condition variable and an abort flag

A critical section is one step, up to its end or to the wait in `wait_for`. A waiter is
woken by a notification, or by its timeout or spuriously, and then has to get the mutex
back. That step also tells it whether its timeout has passed, which a notified waiter
can find as well. Any of this may come at any time, so the timeout itself is left out.
-/

namespace BlockQueue

open Machines

universe v

/-- Where a thread stands. `blocked` is inside `wait_for`, where `notified` has been notified
since, and `woken` has been woken in another way. -/
inductive Call where
  | rest
  | enqueue (val : ℤ)
  | dequeue
  | abort
  | empty
  | blocked
  | notified
  | woken
  | dequeued (code : ℤ)
  | answered (code : ℤ)
  deriving DecidableEq

def Call.atRest : Call → Bool
  | .rest | .dequeued _ | .answered _ => true
  | _ => false

/-- The members, the calls and the callers' variables, and what happened so far. No step
reads the history: the values enqueued and delivered, in the order of the critical
sections, and what the variable of a caller of `Dequeue` held before the call. -/
structure State (Tid : Type v) where
  queue : List ℤ
  abortRequest : Bool
  call : Tid → Call
  val : Tid → ℤ
  enqueued : List ℤ
  delivered : List ℤ
  given : Tid → ℤ

/-- The calls, the critical sections, and the ends of a wait. A critical section of
`Enqueue` also names the waiter that it notifies. -/
inductive Label (Tid : Type v) where
  | callEnqueue (t : Tid) (val : ℤ)
  | callDequeue (t : Tid) (val : ℤ)
  | callAbort (t : Tid)
  | callEmpty (t : Tid)
  | enqueue (t : Tid) (wake : Option Tid)
  | enter (t : Tid)
  | wake (t : Tid)
  | resume (t : Tid) (timedOut : Bool)

section

variable {Tid : Type v} [DecidableEq Tid]

def State.setCall (s : State Tid) (t : Tid) (call : Call) : State Tid :=
  { s with call := Function.update s.call t call }

/-- The predicate of `wait_for`. -/
def State.ready (s : State Tid) : Bool := !s.queue.isEmpty || s.abortRequest

/-- `cond_.notify_one()`: one of the waiters, or nobody when there is none. -/
def notifyOne [Fintype Tid] (s : State Tid) : Option Tid → Option (State Tid)
  | some u => if s.call u = .blocked then some (s.setCall u .notified) else none
  | none => if ∀ u, s.call u ≠ .blocked then some s else none

/-- `cond_.notify_all()`. -/
def notifyAll (s : State Tid) : State Tid :=
  { s with call := fun u => if s.call u = .blocked then .notified else s.call u }

/-- The rest of `Dequeue` behind the wait. -/
def decided (s : State Tid) (t : Tid) : State Tid :=
  if s.abortRequest then s.setCall t (.dequeued (-1))
  else
    match s.queue with
    | [] => s.setCall t (.dequeued 0)
    | val :: rest =>
      { s with
        queue := rest
        val := Function.update s.val t val
        delivered := s.delivered ++ [val] }.setCall t (.dequeued 1)

/-- `Dequeue(val)` up to its end or to its wait. -/
def dequeue (s : State Tid) (t : Tid) : State Tid :=
  if s.queue.isEmpty then
    if s.ready then decided s t else s.setCall t .blocked
  else decided s t

/-- The end of a wait under the mutex: `wait_for` returns, or it goes on waiting. -/
def resume (s : State Tid) (t : Tid) (timedOut : Bool) : State Tid :=
  if timedOut || s.ready then decided s t else s.setCall t .blocked

def next [Fintype Tid] (s : State Tid) : Label Tid → Option (State Tid)
  | .callEnqueue t val => if (s.call t).atRest then some (s.setCall t (.enqueue val)) else none
  | .callDequeue t val =>
    if (s.call t).atRest then
      some ({ s with
        val := Function.update s.val t val
        given := Function.update s.given t val }.setCall t .dequeue)
    else none
  | .callAbort t => if (s.call t).atRest then some (s.setCall t .abort) else none
  | .callEmpty t => if (s.call t).atRest then some (s.setCall t .empty) else none
  | .enqueue t wake =>
    match s.call t with
    | .enqueue val =>
      notifyOne ({ s with
        queue := s.queue ++ [val]
        enqueued := s.enqueued ++ [val] }.setCall t (.answered 0)) wake
    | _ => none
  | .enter t =>
    match s.call t with
    | .dequeue => some (dequeue s t)
    | .abort => some ((notifyAll { s with abortRequest := true }).setCall t .rest)
    | .empty => some (s.setCall t (.answered (if s.queue.isEmpty then 1 else 0)))
    | _ => none
  | .wake t => if s.call t = .blocked then some (s.setCall t .woken) else none
  | .resume t timedOut =>
    if s.call t = .notified ∨ s.call t = .woken then some (resume s t timedOut) else none

end

def machine (Tid : Type v) [DecidableEq Tid] [Fintype Tid] : Machine (State Tid) (Label Tid) where
  start :=
    { queue := []
      abortRequest := false
      call := fun _ => .rest
      val := fun _ => 0
      enqueued := []
      delivered := []
      given := fun _ => 0 }
  next := next

/-! ### What a step can be -/

section Steps

variable {Tid : Type v} [DecidableEq Tid] {s s' : State Tid} {t u : Tid}

/-- What becomes of a `Dequeue` under the mutex: one of its return codes, or a wait. -/
inductive Outcome (s : State Tid) (t : Tid) : State Tid → Prop where
  | aborts (aborted : s.abortRequest = true) : Outcome s t (s.setCall t (.dequeued (-1)))
  | expires (goesOn : s.abortRequest = false) (empty : s.queue = []) :
      Outcome s t (s.setCall t (.dequeued 0))
  | takes {val : ℤ} {rest : List ℤ} (goesOn : s.abortRequest = false) (first : s.queue = val :: rest) :
      Outcome s t ({ s with
        queue := rest
        val := Function.update s.val t val
        delivered := s.delivered ++ [val] }.setCall t (.dequeued 1))
  | waits (goesOn : s.abortRequest = false) (empty : s.queue = []) :
      Outcome s t (s.setCall t .blocked)

theorem decided_outcome (s : State Tid) (t : Tid) : Outcome s t (decided s t) := by
  unfold decided
  split
  · rename_i aborted
    exact .aborts aborted
  · rename_i goesOn
    have goesOn := Bool.eq_false_iff.mpr goesOn
    split
    · rename_i empty
      exact .expires goesOn empty
    · rename_i first
      exact .takes goesOn first

omit [DecidableEq Tid] in
theorem not_ready (h : ¬ s.ready = true) : s.abortRequest = false ∧ s.queue = [] := by
  simp only [State.ready, Bool.or_eq_true, Bool.not_eq_true', not_or, Bool.not_eq_false,
    Bool.not_eq_true, List.isEmpty_iff] at h
  exact ⟨h.2, h.1⟩

theorem dequeue_outcome (s : State Tid) (t : Tid) : Outcome s t (dequeue s t) := by
  unfold dequeue
  split
  · split
    · exact decided_outcome s t
    · rename_i unready
      obtain ⟨goesOn, empty⟩ := not_ready unready
      exact .waits goesOn empty
  · exact decided_outcome s t

theorem resume_outcome (s : State Tid) (t : Tid) (timedOut : Bool) :
    Outcome s t (resume s t timedOut) := by
  unfold resume
  split
  · exact decided_outcome s t
  · rename_i unready
    rw [Bool.or_eq_true, not_or] at unready
    obtain ⟨goesOn, empty⟩ := not_ready unready.2
    exact .waits goesOn empty

variable [Fintype Tid]

inductive Step (s : State Tid) : Label Tid → State Tid → Prop where
  | callEnqueue {t : Tid} (rest : (s.call t).atRest = true) (val : ℤ) :
      Step s (.callEnqueue t val) (s.setCall t (.enqueue val))
  | callDequeue {t : Tid} (rest : (s.call t).atRest = true) (val : ℤ) :
      Step s (.callDequeue t val) ({ s with
        val := Function.update s.val t val
        given := Function.update s.given t val }.setCall t .dequeue)
  | callAbort {t : Tid} (rest : (s.call t).atRest = true) : Step s (.callAbort t) (s.setCall t .abort)
  | callEmpty {t : Tid} (rest : (s.call t).atRest = true) : Step s (.callEmpty t) (s.setCall t .empty)
  | notifies {t u : Tid} {val : ℤ} (hc : s.call t = .enqueue val) (hu : s.call u = .blocked) :
      Step s (.enqueue t (some u)) (({ s with
        queue := s.queue ++ [val]
        enqueued := s.enqueued ++ [val] }.setCall t (.answered 0)).setCall u .notified)
  | unheard {t : Tid} {val : ℤ} (hc : s.call t = .enqueue val) (nobody : ∀ u, s.call u ≠ .blocked) :
      Step s (.enqueue t none) ({ s with
        queue := s.queue ++ [val]
        enqueued := s.enqueued ++ [val] }.setCall t (.answered 0))
  | dequeue {t : Tid} {s' : State Tid} (hc : s.call t = .dequeue) (outcome : Outcome s t s') :
      Step s (.enter t) s'
  | abort {t : Tid} (hc : s.call t = .abort) :
      Step s (.enter t) ((notifyAll { s with abortRequest := true }).setCall t .rest)
  | empty {t : Tid} (hc : s.call t = .empty) :
      Step s (.enter t) (s.setCall t (.answered (if s.queue.isEmpty then 1 else 0)))
  | wake {t : Tid} (hc : s.call t = .blocked) : Step s (.wake t) (s.setCall t .woken)
  | resume {t : Tid} {timedOut : Bool} {s' : State Tid}
      (hc : s.call t = .notified ∨ s.call t = .woken) (outcome : Outcome s t s') :
      Step s (.resume t timedOut) s'

theorem next_step {l : Label Tid} (hs : next s l = some s') : Step s l s' := by
  cases l with
  | callEnqueue t val =>
    obtain ⟨rest, ⟨⟩⟩ := Option.ite_none_right_eq_some.mp hs
    exact .callEnqueue rest val
  | callDequeue t val =>
    obtain ⟨rest, ⟨⟩⟩ := Option.ite_none_right_eq_some.mp hs
    exact .callDequeue rest val
  | callAbort t =>
    obtain ⟨rest, ⟨⟩⟩ := Option.ite_none_right_eq_some.mp hs
    exact .callAbort rest
  | callEmpty t =>
    obtain ⟨rest, ⟨⟩⟩ := Option.ite_none_right_eq_some.mp hs
    exact .callEmpty rest
  | enqueue t wake =>
    simp only [next] at hs
    split at hs
    · rename_i val hc
      have called : ∀ u, ({ s with queue := s.queue ++ [val], enqueued := s.enqueued ++ [val] }.setCall
          t (.answered 0)).call u = .blocked ↔ s.call u = .blocked := by
        intro u
        by_cases here : u = t
        · subst here
          simp [State.setCall, hc]
        · simp [State.setCall, here]
      cases wake with
      | some u =>
        obtain ⟨hu, ⟨⟩⟩ := Option.ite_none_right_eq_some.mp hs
        exact .notifies hc ((called u).mp hu)
      | none =>
        obtain ⟨nobody, ⟨⟩⟩ := Option.ite_none_right_eq_some.mp hs
        exact .unheard hc fun u hu => nobody u ((called u).mpr hu)
    · cases hs
  | enter t =>
    simp only [next] at hs
    split at hs
    · rename_i hc
      exact .dequeue hc (Option.some.inj hs ▸ dequeue_outcome s t)
    · rename_i hc
      obtain rfl := Option.some.inj hs
      exact .abort hc
    · rename_i hc
      obtain rfl := Option.some.inj hs
      exact .empty hc
    · cases hs
  | wake t =>
    obtain ⟨hc, ⟨⟩⟩ := Option.ite_none_right_eq_some.mp hs
    exact .wake hc
  | resume t timedOut =>
    obtain ⟨hc, hs⟩ := Option.ite_none_right_eq_some.mp hs
    exact .resume hc (Option.some.inj hs ▸ resume_outcome s t timedOut)

end Steps

end BlockQueue
