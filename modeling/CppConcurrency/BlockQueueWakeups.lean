import CppConcurrency.BlockQueue
import CppConcurrency.Threads

/-!
# No waiter of `BlockQueue` is forgotten

While a waiter has not been notified, each element of the queue has a waiter that has
been notified and will look at the queue again. An element that comes in notifies a
waiter, and a waiter that resumes leaves the count with an element in its hands, or it
has found the queue empty.
-/

namespace BlockQueue

open Machines Threads

universe v

variable {Tid : Type v} [DecidableEq Tid] [Fintype Tid] {s s' : State Tid} {t u : Tid}

def Call.isNotified : Call → Bool
  | .notified => true
  | _ => false

/-- While a waiter is not notified, no element is without a waiter that is. -/
def Attended (s : State Tid) : Prop :=
  ∀ u, s.call u = .blocked →
    s.abortRequest = false ∧ s.queue.length ≤ census Call.isNotified s.call

/-- A thread that is not notified goes on to another place where it does not wait. -/
theorem Attended.moves (h : Attended s) {c : Call} (before : s.call t ≠ .notified)
    (after : c ≠ .blocked) : Attended (s.setCall t c) := by
  intro u hu
  have other : u ≠ t := by
    rintro rfl
    exact after ((Function.update_self ..).symm.trans hu)
  obtain ⟨goesOn, covered⟩ := h u ((Function.update_of_ne other _ _).symm.trans hu)
  refine ⟨goesOn, Nat.le_trans covered ?_⟩
  have count := census_update Call.isNotified s.call t c
  have none : (s.call t).isNotified = false := by
    cases hc : s.call t with
    | notified => exact absurd hc before
    | _ => rfl
  rw [none] at count
  exact Nat.le_of_add_right_le (Nat.le_of_eq count.symm)

theorem Attended.outcome (h : Attended s) (outcome : Outcome s t s') : Attended s' := by
  have other : ∀ {u c}, c ≠ .blocked → Function.update s.call t c u = .blocked → s.call u = .blocked := by
    intro u c after hu
    by_cases here : u = t
    · subst here
      rw [Function.update_self] at hu
      exact absurd hu after
    · exact (Function.update_of_ne here _ _).symm.trans hu
  intro u hu
  cases outcome with
  | aborts aborted =>
    have goesOn := (h u (other (fun wrong => by cases wrong) hu)).1
    rw [aborted] at goesOn
    cases goesOn
  | expires goesOn empty =>
    exact ⟨goesOn, by simp [State.setCall, empty]⟩
  | takes goesOn first =>
    have covered := (h u (other (fun wrong => by cases wrong) hu)).2
    have count := census_update Call.isNotified s.call t (.dequeued 1)
    have one := Bool.toNat_le (s.call t).isNotified
    have none : (Call.dequeued 1).isNotified.toNat = 0 := rfl
    rw [first, List.length_cons] at covered
    refine ⟨goesOn, ?_⟩
    simp only [State.setCall]
    omega
  | waits goesOn empty =>
    exact ⟨goesOn, by simp [State.setCall, empty]⟩

theorem Attended.next (h : Attended s) {l : Label Tid} (hs : next s l = some s') : Attended s' := by
  have resting : ∀ {t}, (s.call t).atRest = true → s.call t ≠ .notified := by
    intro t rest wrong
    rw [wrong] at rest
    cases rest
  cases next_step hs with
  | callEnqueue rest | callAbort rest | callEmpty rest =>
    exact h.moves (resting rest) fun wrong => by cases wrong
  | @callDequeue t rest val =>
    exact h.moves (c := .dequeue) (resting rest) fun wrong => by cases wrong
  | @notifies t u val hc hu =>
    -- the element that came in and the waiter it notified balance out
    intro w hw
    have waits : s.call w = .blocked := by
      by_cases here : w = u
      · exact here ▸ hu
      · by_cases there : w = t
        · subst there
          simp [State.setCall, here] at hw
        · simpa [State.setCall, here, there] using hw
    obtain ⟨goesOn, covered⟩ := h w waits
    have different : u ≠ t := by
      rintro rfl
      rw [hu] at hc
      cases hc
    have first := census_update Call.isNotified s.call t (.answered 0)
    have second := census_update Call.isNotified (Function.update s.call t (.answered 0)) u .notified
    rw [Function.update_of_ne different, hu] at second
    rw [hc] at first
    simp only [Call.isNotified, Bool.toNat_false, Bool.toNat_true] at first second
    refine ⟨goesOn, ?_⟩
    simp only [State.setCall, List.length_append, List.length_singleton]
    omega
  | @unheard t val hc nobody =>
    intro w hw
    refine absurd ?_ (nobody w)
    by_cases here : w = t
    · subst here
      simp [State.setCall] at hw
    · simpa [State.setCall, here] using hw
  | dequeue hc outcome => exact h.outcome outcome
  | @abort t hc =>
    intro w hw
    apply absurd hw
    by_cases here : w = t
    · subst here
      simp [State.setCall]
    · simp only [State.setCall, notifyAll, Function.update_of_ne here]
      split
      · exact fun wrong => by cases wrong
      · rename_i awake
        exact awake
  | empty hc => exact h.moves (by simp [hc]) fun wrong => by cases wrong
  | wake hc => exact h.moves (by simp [hc]) fun wrong => by cases wrong
  | resume hc outcome => exact h.outcome outcome

/-- While a waiter has not been notified, the queue has not been aborted and holds no more
elements than there are waiters that have been notified and have not resumed. -/
theorem no_waiter_forgotten (reached : (machine Tid).Reach s) (blocked : s.call u = .blocked) :
    s.abortRequest = false ∧ s.queue.length ≤ census Call.isNotified s.call := by
  have attended : Attended s :=
    reached.invariant _ (fun u wrong => by cases wrong) fun _ _ _ h _ hs => h.next hs
  exact attended u blocked

/-- Two consumers wait, and the element that comes in notifies the first one. -/
def twoWaiters : List (Label (Fin 3)) :=
  [.callDequeue 1 7, .enter 1, .callDequeue 2 8, .enter 2, .callEnqueue 0 5, .enqueue 0 (some 1)]

def twoWaitersRun : (machine (Fin 3)).Run := .ofSchedule _ (.enter 0) twoWaiters (by decide)

theorem no_waiter_forgotten_two : (twoWaitersRun.state 6).queue = [5] ∧
    (twoWaitersRun.state 6).queue.length ≤ census Call.isNotified (twoWaitersRun.state 6).call :=
  ⟨by decide, (no_waiter_forgotten (twoWaitersRun.reach (i := 6) (by decide))
    (u := 2) (by decide)).2⟩

end BlockQueue
