import CppConcurrency.LockFreeArrayQueueRefusals
import CppConcurrency.Contention

/-!
# `LockFreeArrayQueue` in CAS mode: what delays a call

A compare-exchange that fails sends its call back to the loads, and it fails only because
another call has claimed an index. So the steps that do not spin are paid for by the
claims. A call that spins waits for another one, but with a size that is a power of two
never do all the calls that run.
-/

namespace LockFreeArray

open Machines Machine

universe u v

variable {E : Type u}

/-- The call has claimed an index whose marker is not there yet. -/
def spins (q : LockFreeArrayQueue E) : Call E → Bool
  | .pushWait _ write => q.activeQueue (q.transIndex write) ≠ pushMarker q.maxQueueSize write
  | .popWait read => q.activeQueue (q.transIndex read) ≠ popMarker read
  | .undefined => true
  | _ => false

/-- The call is at its compare-exchange and expects the value the index has. -/
def claims (q : LockFreeArrayQueue E) : Call E → Bool
  | .pushClaim _ write => q.writeIndex = write
  | .popClaim read => q.readIndex = read
  | _ => false

/-- A compare-exchange that fails comes back after three steps. -/
def stale (index held : ℕ) : ℕ := if index = held then 0 else 3

/-- The steps that are left to a call with no one in its way, when its compare-exchange is
priced at `price`. -/
def work (price : ℕ) (q : LockFreeArrayQueue E) : Call E → ℕ
  | .pushLoadWrite _ | .popLoadWrite => price + 2
  | .pushLoadRead _ write => price + 1 + stale q.writeIndex write
  | .popLoadRead _ => price + 1
  | .pushClaim _ write => price + stale q.writeIndex write
  | .popClaim read => price + stale q.readIndex read
  | .popWait _ => 4
  | .pushWait _ _ | .popTake _ => 3
  | .pushStore _ _ | .popLeave _ _ => 2
  | .pushMark _ | .popMark _ _ => 1
  | .rest | .pushReturn _ | .popReturn _ | .undefined => 0

variable {q : LockFreeArrayQueue E} {price : ℕ} {call : Call E} {moved : E → E}

theorem stale_self (index : ℕ) : stale index index = 0 := if_pos rfl

theorem stale_le (index held : ℕ) : stale index held ≤ 3 := by
  unfold stale
  split <;> omega

theorem work_invoke (op : Op E) : work price q op.invoke = price + 2 := by
  cases op <;> rfl

theorem work_le (enough : 4 ≤ price) (call : Call E) :
    work price q call ≤ if call.atRest then 0 else price + 4 := by
  have write := stale_le q.writeIndex
  have read := stale_le q.readIndex
  cases call with
  | rest | pushReturn | popReturn => exact Nat.le_refl 0
  | pushLoadRead e held | pushClaim e held =>
    have := write held
    simp only [work, Call.atRest, Bool.false_eq_true, if_false]
    omega
  | popClaim held =>
    have := read held
    simp only [work, Call.atRest, Bool.false_eq_true, if_false]
    omega
  | _ =>
    simp only [work, Call.atRest, Bool.false_eq_true, if_false]
    omega

/-- Only a successful compare-exchange moves an index. -/
theorem advance_indices (moved : E → E) (waits : claims q call = false) :
    (advance q moved call).1.writeIndex = q.writeIndex ∧
      (advance q moved call).1.readIndex = q.readIndex := by
  cases call with
  | pushLoadRead e write | popLoadRead write =>
    simp only [advance]
    split
    · exact ⟨rfl, rfl⟩
    · split <;> exact ⟨rfl, rfl⟩
  | pushClaim e held | popClaim held =>
    rw [advance, if_neg (of_decide_eq_false waits)]
    exact ⟨rfl, rfl⟩
  | pushWait e held | popWait held =>
    simp only [advance]
    split <;> exact ⟨rfl, rfl⟩
  | _ => exact ⟨rfl, rfl⟩

theorem work_congr {q' : LockFreeArrayQueue E} (write : q'.writeIndex = q.writeIndex)
    (read : q'.readIndex = q.readIndex) (call : Call E) : work price q' call = work price q call := by
  cases call <;> simp only [work, write, read]

/-- A step that claims nothing brings its own call nearer to its return, unless it spins. -/
theorem work_advance (moved : E → E) (running : call.atRest = false) (enough : 4 ≤ price)
    (waits : claims q call = false) :
    work price (advance q moved call).1 (advance q moved call).2 + (!spins q call).toNat ≤
      work price q call := by
  obtain ⟨write, read⟩ := advance_indices moved waits
  rw [work_congr write read]
  cases call with
  | rest | pushReturn | popReturn => cases running
  | pushLoadWrite | popLoadWrite => simp [advance, work, spins, stale_self]
  | pushLoadRead e held =>
    simp only [advance, spins, Bool.not_false, Bool.toNat_true]
    split
    · simp only [work]
      omega
    · split <;> simp only [work] <;> omega
  | popLoadRead held =>
    simp only [advance, spins, Bool.not_false, Bool.toNat_true]
    split
    · simp only [work]
      omega
    · split <;> simp only [work, stale_self] <;> omega
  | pushClaim e held | popClaim held =>
    have other := of_decide_eq_false waits
    simp only [advance, if_neg other, work, spins, stale, Bool.not_false, Bool.toNat_true]
    omega
  | pushWait e held | popWait held =>
    simp only [advance, spins]
    split
    · rename_i mismatch
      simp [mismatch, work]
    · rename_i marked
      simp [marked, work]
  | undefined => simp [advance, work, spins]
  | _ => simp [advance, work, spins]

/-- A claim is worth its price. -/
theorem work_claim (price : ℕ) (moved : E → E) (claim : claims q call = true) :
    work price (advance q moved call).1 (advance q moved call).2 + price ≤ work price q call + 4 := by
  cases call with
  | pushClaim e held | popClaim held =>
    have same := of_decide_eq_true claim
    simp only [advance, same, if_true, work]
    omega
  | _ => cases claim

/-- Whatever happens to the indices, a call comes back to its compare-exchange. -/
theorem work_other (q' : LockFreeArrayQueue E) (other : Call E) :
    work price q' other ≤ work price q other + 3 := by
  have write := stale_le q'.writeIndex
  have read := stale_le q'.readIndex
  cases other with
  | pushLoadRead e held | pushClaim e held =>
    have := write held
    simp only [work]
    omega
  | popClaim held =>
    have := read held
    simp only [work]
    omega
  | _ => exact Nat.le_add_right _ _

/-! ### The steps of a run -/

variable {Tid : Type v} [DecidableEq Tid]

def Label.isInvoke : Label Tid E → Bool
  | .invoke _ _ => true
  | .step _ => false

/-- The step claims an index. -/
def claimsIndex (s : State Tid E) : Label Tid E → Bool
  | .invoke _ _ => false
  | .step t => claims s.q (s.call t)

/-- The step is no turn of a wait loop. -/
def moves (s : State Tid E) : Label Tid E → Bool
  | .invoke _ _ => true
  | .step t => !spins s.q (s.call t)

variable {s s' : State Tid E} {l : Label Tid E} {u : Tid}

/-- What a step does to the queue and to its own call. -/
theorem next_own (hs : next moved s (.step u) = some s') :
    (s.call u).atRest = false ∧ s'.q = (advance s.q moved (s.call u)).1 ∧
      s'.call u = (advance s.q moved (s.call u)).2 := by
  obtain ⟨running, ⟨⟩⟩ := Option.ite_none_left_eq_some.mp hs
  exact ⟨Bool.eq_false_iff.mpr running, rfl, Function.update_self ..⟩

theorem next_work_own (enough : 5 ≤ price) (hs : next moved s l = some s') :
    work price s'.q (s'.call l.thread) +
        ((moves s l).toNat + (price - 5) * (claimsIndex s l).toNat) ≤
      work price s.q (s.call l.thread) + (price + 3) * l.isInvoke.toNat := by
  cases l with
  | invoke t op =>
    obtain ⟨-, ⟨⟩⟩ := Option.ite_none_right_eq_some.mp hs
    simp only [Label.thread, State.setCall, Function.update_self, moves, claimsIndex,
      Label.isInvoke, work_invoke, Bool.toNat_false, Bool.toNat_true]
    omega
  | step t =>
    obtain ⟨running, queue, call⟩ := next_own hs
    simp only [Label.thread, queue, call, moves, claimsIndex, Label.isInvoke, Bool.toNat_false]
    cases claim : claims s.q (s.call t) with
    | true =>
      have paid := work_claim price moved claim
      have few := Bool.toNat_le (!spins s.q (s.call t))
      rw [Bool.toNat_true]
      omega
    | false =>
      have paid := work_advance moved running (by omega : 4 ≤ price) claim
      rw [Bool.toNat_false]
      omega

theorem next_work_other (hs : next moved s l = some s') (other : u ≠ l.thread) :
    work price s'.q (s'.call u) ≤ work price s.q (s.call u) + 3 * (claimsIndex s l).toNat := by
  rw [next_other hs other]
  cases l with
  | invoke t op =>
    obtain ⟨-, ⟨⟩⟩ := Option.ite_none_right_eq_some.mp hs
    exact Nat.le_add_right _ _
  | step t =>
    obtain ⟨-, queue, -⟩ := next_own hs
    rw [queue]
    cases claim : claims s.q (s.call t) with
    | true =>
      simp only [claimsIndex, claim, Bool.toNat_true]
      exact work_other _ _
    | false =>
      obtain ⟨write, read⟩ := advance_indices moved claim
      exact (work_congr write read _).le.trans (Nat.le_add_right _ _)

def contention (Tid : Type v) [DecidableEq Tid] (moved : E → E) (q : LockFreeArrayQueue E) :
    Contention (machine Tid moved q) Tid where
  thread := Label.thread
  useful := moves
  invokes _ := Label.isInvoke
  claims := claimsIndex
  fails _ _ := false
  base := 5
  setup := 3
  delay := 3
  retry := 0
  work price s u := work price s.q (s.call u)
  start _ _ := rfl
  own _ _ _ _ enough := next_work_own enough
  other _ _ _ _ _ _ hs other := next_work_other hs other

omit [DecidableEq Tid] in
/-- While a call runs, some call that runs makes a step that is no turn of a wait loop. -/
theorem Inv.someone_moves {k : ℕ} {R : PhasedRings.PhasedRing (2 ^ k)} (h : Inv R s) {t : Tid}
    (running : (s.call t).atRest = false) (defined : s.call t ≠ .undefined) :
    ∃ u, (s.call u).atRest = false ∧ spins s.q (s.call u) = false := by
  by_cases waits : (s.call t).awaits (2 ^ k) = none
  · refine ⟨t, running, ?_⟩
    cases hc : s.call t with
    | pushWait | popWait =>
      rw [hc] at waits
      cases waits
    | undefined => exact absurd hc defined
    | _ => rfl
  · obtain ⟨u, index, marker, awaits, marked⟩ := h.exists_ready ⟨t, waits⟩
    refine ⟨u, ?_, ?_⟩
    · cases hc : s.call u with
      | rest | pushReturn | popReturn =>
        rw [hc] at awaits
        cases awaits
      | _ => rfl
    · cases hc : s.call u with
      | pushWait e write =>
        rw [hc] at awaits
        cases awaits
        rw [spins, h.size, decide_eq_false_iff_not, not_not]
        exact marked
      | popWait read =>
        rw [hc] at awaits
        cases awaits
        rw [spins, decide_eq_false_iff_not, not_not]
        exact marked
      | undefined =>
        rw [hc] at awaits
        cases awaits
      | _ => rfl

variable {lock : ℤ} {blank : E} {q : LockFreeArrayQueue E} {k : ℕ}

/-- The steps of a call outside its wait loop are bounded by the indices that others claim,
all such steps are bounded by the calls, and while a call runs some thread can make one. -/
theorem claims_delay_calls [Fintype Tid]
    (accepted : LockFreeArrayQueue.init lock blank (2 ^ k) = .ok q) (moved : E → E)
    (run : (machine Tid moved q).Run) :
    (∀ u i j, i ≤ j → j ≤ run.length →
      run.count (ofThread Label.thread u moves) i j ≤
        (if ((run.state i).call u).atRest then 0 else 9) +
          8 * run.count (ofThread Label.thread u fun _ => Label.isInvoke) i j +
          3 * run.count (ofOthers Label.thread u claimsIndex) i j) ∧
    run.count moves 0 run.length ≤
      (3 * (Fintype.card Tid - 1) + 8) * run.count (fun _ => Label.isInvoke) 0 run.length ∧
    ∀ i, i ≤ run.length → ∀ t, ((run.state i).call t).atRest = false →
      (run.state i).call t ≠ .undefined →
        ∃ u, ((run.state i).call u).atRest = false ∧
          spins (run.state i).q ((run.state i).call u) = false := by
  refine ⟨fun u i j hij hj => ?_, ?_, fun i hi t running defined => ?_⟩
  · have few := (contention Tid moved q).steps_of_thread run u hij hj
    have start : work 5 (run.state i).q ((run.state i).call u) ≤
        if ((run.state i).call u).atRest then 0 else 9 := work_le (by decide) _
    simp only [contention] at few
    omega
  · have all := (contention Tid moved q).steps_of_all run
    simp only [contention, Nat.zero_mul, Nat.add_zero] at all
    exact all
  · obtain ⟨R, h⟩ := reach_inv accepted (run.reach hi)
    exact h.someone_moves running defined

theorem claims_delay_calls_early : popsEarlyRun.count moves 0 16 ≤ 11 * 2 ∧
    ∃ u, ((popsEarlyRun.state 9).call u).atRest = false ∧
      spins (popsEarlyRun.state 9).q ((popsEarlyRun.state 9).call u) = false := by
  have accepted : LockFreeArrayQueue.init 0 0 (2 ^ 1) = .ok twoSlots := rfl
  obtain ⟨-, all, moving⟩ := claims_delay_calls accepted id popsEarlyRun
  have calls : popsEarlyRun.count (fun _ => Label.isInvoke) 0 16 = 2 := by decide +kernel
  change _ ≤ (3 * (2 - 1) + 8) * popsEarlyRun.count _ 0 16 at all
  rw [calls] at all
  have waits : (popsEarlyRun.state 9).call 1 = .popWait 0 := rfl
  exact ⟨all, moving 9 (by decide) 1 (by rw [waits]; rfl) (by simp [waits])⟩

end LockFreeArray
