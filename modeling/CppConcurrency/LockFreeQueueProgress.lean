import CppConcurrency.LockFreeQueue
import CppConcurrency.Contention

/-!
# `LockFreeQueueCpp11`: what delays a call

No step of a call waits. A compare-exchange that does not fail spuriously fails only
because another call has taken a ticket since the counter was read, and it costs two steps
to come back to it. So the steps of a call are paid for by the tickets of the others,
and all the steps of a run by the calls that were made.
-/

namespace LockFreeQueue

open Machines Machine LockFreeQueueCpp11

universe u v

variable {T : Type u}

/-- The call is at its compare-exchange and expects the value the counter has. -/
def claims (q : LockFreeQueueCpp11 T) : Call T → Bool
  | .pushClaim _ tail => q.tail = tail
  | .popClaim head => q.head = head
  | _ => false

/-- A compare-exchange that fails comes back after two steps. -/
def stale (counter held : SizeT) : ℕ := if counter = held then 0 else 2

/-- The steps that are left to a call with no one in its way, when its compare-exchange is
priced at `price`. -/
def work (price : ℕ) (q : LockFreeQueueCpp11 T) : Call T → ℕ
  | .pushLoad _ | .popLoad => price + 2
  | .pushTest _ tail => price + 1 + stale q.tail tail
  | .pushClaim _ tail => price + stale q.tail tail
  | .popTest head => price + 1 + stale q.head head
  | .popClaim head => price + stale q.head head
  | .popCopy _ => 3
  | .pushConstruct _ _ | .popDestroy _ _ => 2
  | .pushPublish _ | .popRelease _ _ => 1
  | .rest | .pushReturn _ | .popReturn _ _ => 0

variable {q : LockFreeQueueCpp11 T} {price : ℕ} {spurious : Bool} {call : Call T}

theorem stale_self (counter : SizeT) : stale counter counter = 0 := if_pos rfl

theorem stale_le (counter held : SizeT) : stale counter held ≤ 2 := by
  unfold stale
  split <;> omega

theorem work_invoke (op : Op T) : work price q op.invoke = price + 2 := by
  cases op <;> rfl

theorem work_le (enough : 3 ≤ price) (call : Call T) : work price q call ≤ price + 3 := by
  cases call with
  | pushTest data tail | pushClaim data tail =>
    have := stale_le q.tail tail
    simp only [work]
    omega
  | popTest head | popClaim head =>
    have := stale_le q.head head
    simp only [work]
    omega
  | _ =>
    simp only [work]
    omega

/-- Only a successful compare-exchange moves a counter. -/
theorem advance_counters (waits : claims q call = false ∨ spurious = true) :
    (advance q spurious call).1.tail = q.tail ∧ (advance q spurious call).1.head = q.head := by
  cases call with
  | pushTest data tail | popTest head =>
    simp only [advance]
    split <;> exact ⟨rfl, rfl⟩
  | pushClaim data tail | popClaim head =>
    simp only [claims, decide_eq_false_iff_not] at waits
    rw [advance, if_neg (by grind)]
    exact ⟨rfl, rfl⟩
  | _ => exact ⟨rfl, rfl⟩

theorem work_congr {q' : LockFreeQueueCpp11 T} (tail : q'.tail = q.tail) (head : q'.head = q.head)
    (call : Call T) : work price q' call = work price q call := by
  cases call <;> simp only [work, tail, head]

/-- A step that takes no ticket brings its own call nearer to its return, unless its
compare-exchange fails spuriously. -/
theorem work_advance (running : call.atRest = false) (enough : 3 ≤ price)
    (waits : claims q call = false ∨ spurious = true) :
    work price (advance q spurious call).1 (advance q spurious call).2 + 1 ≤
      work price q call + 2 * (claims q call && spurious).toNat := by
  obtain ⟨tail, head⟩ := advance_counters waits
  rw [work_congr tail head]
  cases call with
  | rest | pushReturn | popReturn => cases running
  | pushLoad | popLoad => simp [advance, work, stale_self]
  | pushTest | popTest =>
    simp only [advance]
    split <;> simp only [work] <;> omega
  | pushClaim data held | popClaim held =>
    simp only [advance, claims] at waits ⊢
    split
    · rename_i succeeds
      grind
    · simp only [work, stale_self]
      grind [stale]
  | pushConstruct | pushPublish | popCopy | popDestroy | popRelease => simp [advance, work]

/-- A ticket is worth its price. -/
theorem work_claim (price : ℕ) (claim : claims q call = true) :
    work price (advance q false call).1 (advance q false call).2 + price ≤ work price q call + 3 := by
  cases call with
  | pushClaim data held | popClaim held =>
    have same := of_decide_eq_true claim
    simp only [advance, same, true_and, if_true, work]
    omega
  | _ => cases claim

/-- Whatever happens to the counters, a call comes back to its compare-exchange. -/
theorem work_other (q' : LockFreeQueueCpp11 T) (other : Call T) :
    work price q' other ≤ work price q other + 2 := by
  have tail := stale_le q'.tail
  have head := stale_le q'.head
  cases other with
  | pushTest data held | pushClaim data held =>
    have := tail held
    simp only [work]
    omega
  | popTest held | popClaim held =>
    have := head held
    simp only [work]
    omega
  | _ => exact Nat.le_add_right _ _

/-! ### The steps of a run -/

variable {Tid : Type v} [DecidableEq Tid]

def Label.isInvoke : Label Tid T → Bool
  | .invoke _ _ => true
  | .step _ _ => false

/-- The step takes a ticket. -/
def takesTicket (s : State Tid T) : Label Tid T → Bool
  | .invoke _ _ => false
  | .step t spurious => claims s.q (s.call t) && !spurious

/-- The compare-exchange of the step fails although the counter is the expected one. -/
def failsSpuriously (s : State Tid T) : Label Tid T → Bool
  | .invoke _ _ => false
  | .step t spurious => claims s.q (s.call t) && spurious

variable {s s' : State Tid T} {l : Label Tid T} {u : Tid}

theorem next_work_own (enough : 4 ≤ price) (hs : next s l = some s') :
    work price s'.q (s'.call l.thread) + (1 + (price - 4) * (takesTicket s l).toNat) ≤
      work price s.q (s.call l.thread) +
        ((price + 3) * l.isInvoke.toNat + 2 * (failsSpuriously s l).toNat) := by
  cases next_step hs with
  | @invoke t rest op =>
    simp only [Label.thread, State.setCall, Function.update_self, takesTicket, failsSpuriously,
      Label.isInvoke, work_invoke, Bool.toNat_false, Bool.toNat_true]
    omega
  | @step t running spurious =>
    simp only [Label.thread, State.setCall, Function.update_self, takesTicket, failsSpuriously,
      Label.isInvoke, Bool.toNat_false]
    by_cases claim : claims s.q (s.call t) = true ∧ spurious = false
    · obtain ⟨claim, rfl⟩ := claim
      have paid := work_claim price claim
      simp only [claim, Bool.not_false, Bool.and_self, Bool.toNat_true, Bool.and_false,
        Bool.toNat_false]
      omega
    · have waits : claims s.q (s.call t) = false ∨ spurious = true := by grind
      have paid := work_advance running (by omega : 3 ≤ price) waits
      have none : (claims s.q (s.call t) && !spurious) = false := by grind
      rw [none, Bool.toNat_false]
      omega

theorem next_work_other (hs : next s l = some s') (other : u ≠ l.thread) :
    work price s'.q (s'.call u) ≤ work price s.q (s.call u) + 2 * (takesTicket s l).toNat := by
  obtain ⟨same, -⟩ := next_other hs other
  rw [same]
  cases next_step hs with
  | invoke rest op => exact Nat.le_add_right _ _
  | @step t running spurious =>
    by_cases claim : claims s.q (s.call t) = true ∧ spurious = false
    · obtain ⟨claim, rfl⟩ := claim
      simp only [takesTicket, claim, Bool.not_false, Bool.and_self, Bool.toNat_true]
      exact work_other _ _
    · have waits : claims s.q (s.call t) = false ∨ spurious = true := by grind
      obtain ⟨tail, head⟩ := advance_counters waits
      exact (work_congr tail head _).le.trans (Nat.le_add_right _ _)

theorem work_start (call : Call T) : work 4 q call ≤ if call.atRest then 0 else 7 := by
  have few := work_le (q := q) (by decide : 3 ≤ 4) call
  cases call <;> first | exact few | exact Nat.le_refl 0

def contention (Tid : Type v) [DecidableEq Tid] (T : Type u) (capacity : SizeT) :
    Contention (machine Tid T capacity) Tid where
  thread := Label.thread
  useful _ _ := true
  invokes _ := Label.isInvoke
  claims := takesTicket
  fails := failsSpuriously
  base := 4
  setup := 3
  delay := 2
  retry := 2
  work price s u := work price s.q (s.call u)
  start _ _ := rfl
  own _ _ _ _ enough := next_work_own enough
  other _ _ _ _ _ _ hs other := next_work_other hs other

variable {capacity : SizeT}

/-- No schedule delays a call but by letting others finish theirs: the steps of a thread
are bounded by the tickets that others take, and the steps of all threads by the calls. -/
theorem calls_are_lock_free [Fintype Tid] (run : (machine Tid T capacity).Run) :
    (∀ u i j, i ≤ j → j ≤ run.length →
      run.count (ofThread Label.thread u fun _ _ => true) i j ≤
        (if ((run.state i).call u).atRest then 0 else 7) +
          7 * run.count (ofThread Label.thread u fun _ => Label.isInvoke) i j +
          2 * run.count (ofThread Label.thread u failsSpuriously) i j +
          2 * run.count (ofOthers Label.thread u takesTicket) i j) ∧
    run.length ≤
      (2 * (Fintype.card Tid - 1) + 7) * run.count (fun _ => Label.isInvoke) 0 run.length +
        2 * run.count failsSpuriously 0 run.length := by
  constructor
  · intro u i j hij hj
    have few := (contention Tid T capacity).steps_of_thread run u hij hj
    have start := work_start (q := (run.state i).q) ((run.state i).call u)
    simp only [contention] at few
    omega
  · have all := (contention Tid T capacity).steps_of_all run
    have steps : run.count (contention Tid T capacity).useful 0 run.length = run.length :=
      run.count_all 0 run.length
    rw [steps] at all
    exact all

/-- Thread 1 has read the counter when thread 0 takes the ticket. -/
def delayed : List (Label (Fin 2) ℕ) :=
  [.invoke 1 (.push 6), .step 1 false, .step 1 false, .invoke 0 (.push 5), .step 0 false,
    .step 0 false, .step 0 true, .step 0 false, .step 0 false, .step 1 false, .step 1 false,
    .step 1 false, .step 1 false, .step 1 false]

def delayedRun : (machine (Fin 2) ℕ 2).Run :=
  .ofSchedule _ (.step 0 false) delayed (by decide +kernel)

theorem calls_are_lock_free_delayed :
    delayedRun.count (ofThread Label.thread 1 fun _ _ => true) 3 14 ≤ 7 + 7 * 0 + 2 * 0 + 2 * 1 ∧
      delayedRun.length ≤ 9 * 2 + 2 * 1 := by
  obtain ⟨thread, all⟩ := calls_are_lock_free delayedRun
  have invoked : delayedRun.count (ofThread Label.thread 1 fun _ => Label.isInvoke) 3 14 = 0 := by
    decide +kernel
  have failed : delayedRun.count (ofThread Label.thread 1 failsSpuriously) 3 14 = 0 := by
    decide +kernel
  have taken : delayedRun.count (ofOthers Label.thread 1 takesTicket) 3 14 = 1 := by
    decide +kernel
  have calls : delayedRun.count (fun _ => Label.isInvoke) 0 14 = 2 := by decide +kernel
  have failures : delayedRun.count failsSpuriously 0 14 = 1 := by decide +kernel
  have running : ((delayedRun.state 3).call 1).atRest = false := by decide +kernel
  have few := thread 1 3 14 (by decide) (by decide)
  rw [invoked, failed, taken, running] at few
  change _ ≤ (2 * (2 - 1) + 7) * delayedRun.count _ 0 14 + 2 * delayedRun.count _ 0 14 at all
  rw [calls, failures] at all
  exact ⟨few, all⟩

end LockFreeQueue
