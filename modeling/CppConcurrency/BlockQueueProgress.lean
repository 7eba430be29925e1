import CppConcurrency.BlockQueueWakeups
import CppConcurrency.Potentials

/-!
# `BlockQueue`: calls end, or wait on an empty queue

A critical section never waits for another one inside it, so each call ends or goes to
sleep. An `Enqueue` sends one waiter back to the queue and an `Abort` all of them, and
timeouts and spurious wake-ups send more. Between these a sleeping consumer has nothing
to wait for but an element or an `Abort`.
-/

namespace BlockQueue

open Machines Threads

universe v

variable {Tid : Type v}

/-- The steps that are left to a call, where an `Abort` is priced at the waiters it wakes. -/
def Call.work (price : ℕ) : Call → ℕ
  | .enqueue _ => 2
  | .abort => price
  | .dequeue | .empty | .notified | .woken => 1
  | .rest | .blocked | .dequeued _ | .answered _ => 0

def Label.isCall : Label Tid → Bool
  | .callEnqueue _ _ | .callDequeue _ _ | .callAbort _ | .callEmpty _ => true
  | _ => false

def Label.isAbort : Label Tid → Bool
  | .callAbort _ => true
  | _ => false

/-- A timeout or a spurious wake-up. -/
def Label.isWake : Label Tid → Bool
  | .wake _ => true
  | _ => false

/-- Nothing can happen but new calls, timeouts and spurious wake-ups. -/
def Quiet [DecidableEq Tid] [Fintype Tid] (s : State Tid) : Prop :=
  ∀ l s', next s l = some s' → l.isCall = true ∨ l.isWake = true

section Steps

variable [DecidableEq Tid] {s s' : State Tid} {t : Tid} {price : ℕ}

theorem Call.work_atRest {c : Call} (rest : c.atRest = true) : c.work price = 0 := by
  cases c with
  | rest | dequeued | answered => rfl
  | _ => cases rest

/-- Where a `Dequeue` decides or goes to sleep, nothing is left to it. -/
theorem Outcome.call (price : ℕ) (outcome : Outcome s t s') :
    ∃ c, s'.call = Function.update s.call t c ∧ c.work price = 0 := by
  cases outcome with
  | aborts | expires | takes | waits => exact ⟨_, rfl, rfl⟩

variable [Fintype Tid] {l : Label Tid}

theorem next_work (hs : next s l = some s') :
    ∑ u, (s'.call u).work (Fintype.card Tid) + 1 ≤
      ∑ u, (s.call u).work (Fintype.card Tid) +
        (3 * l.isCall.toNat + Fintype.card Tid * l.isAbort.toNat + 2 * l.isWake.toNat) := by
  have moves := sum_update (Call.work (Fintype.card Tid)) s.call
  cases next_step hs with
  | @callEnqueue t rest val =>
    have moved := moves t (.enqueue val)
    change _ + _ = _ + 2 at moved
    simp only [State.setCall, Label.isCall, Label.isAbort, Label.isWake, Bool.toNat_true,
      Bool.toNat_false]
    omega
  | @callDequeue t rest val =>
    have moved := moves t .dequeue
    change _ + _ = _ + 1 at moved
    simp only [State.setCall, Label.isCall, Label.isAbort, Label.isWake, Bool.toNat_true,
      Bool.toNat_false]
    omega
  | @callAbort t rest =>
    have moved := moves t .abort
    change _ + _ = _ + Fintype.card Tid at moved
    simp only [State.setCall, Label.isCall, Label.isAbort, Label.isWake, Bool.toNat_true,
      Bool.toNat_false]
    omega
  | @callEmpty t rest =>
    have moved := moves t .empty
    change _ + _ = _ + 1 at moved
    simp only [State.setCall, Label.isCall, Label.isAbort, Label.isWake, Bool.toNat_true,
      Bool.toNat_false]
    omega
  | @notifies t u val hc hu =>
    have other : u ≠ t := fun same => by
      rw [same, hc] at hu
      cases hu
    have answered := moves t (.answered 0)
    have woken := sum_update (Call.work (Fintype.card Tid))
      (Function.update s.call t (.answered 0)) u .notified
    rw [hc] at answered
    rw [Function.update_of_ne other, hu] at woken
    change _ + 2 = _ + 0 at answered
    change _ + 0 = _ + 1 at woken
    simp only [State.setCall, Label.isCall, Label.isAbort, Label.isWake, Bool.toNat_false]
    omega
  | @unheard t val hc nobody =>
    have moved := moves t (.answered 0)
    rw [hc] at moved
    change _ + 2 = _ + 0 at moved
    simp only [State.setCall, Label.isCall, Label.isAbort, Label.isWake, Bool.toNat_false]
    omega
  | @dequeue t s' hc outcome =>
    obtain ⟨c, call, none⟩ := outcome.call (Fintype.card Tid)
    have moved := moves t c
    rw [hc, none] at moved
    change _ + 1 = _ + 0 at moved
    rw [call]
    omega
  | @abort t hc =>
    have moved : ∑ u, (((notifyAll { s with abortRequest := true }).setCall t .rest).call u).work
        (Fintype.card Tid) + Fintype.card Tid ≤ ∑ u, (s.call u).work (Fintype.card Tid) + 0 +
          (Fintype.card Tid - 1) * 1 := by
      refine sum_step t ?_ fun u other => ?_
      · simp only [State.setCall, Function.update_self, hc, Call.work]
        omega
      · simp only [State.setCall, Function.update_of_ne other, notifyAll]
        split
        · exact Nat.le_add_left 1 _
        · exact Nat.le_add_right _ _
    have somebody : 0 < Fintype.card Tid := Fintype.card_pos_iff.mpr ⟨t⟩
    omega
  | @empty t hc =>
    have moved := moves t (.answered (if s.queue.isEmpty then 1 else 0))
    rw [hc] at moved
    change _ + 1 = _ + 0 at moved
    simp only [State.setCall, Label.isCall, Label.isAbort, Label.isWake, Bool.toNat_false]
    omega
  | @wake t hc =>
    have moved := moves t .woken
    rw [hc] at moved
    change _ + 0 = _ + 1 at moved
    simp only [State.setCall, Label.isCall, Label.isAbort, Label.isWake, Bool.toNat_true,
      Bool.toNat_false]
    omega
  | @resume t timedOut s' hc outcome =>
    obtain ⟨c, call, none⟩ := outcome.call (Fintype.card Tid)
    have moved := moves t c
    have one : (s.call t).work (Fintype.card Tid) = 1 := by
      rcases hc with hc | hc
      · rw [hc]; rfl
      · rw [hc]; rfl
    rw [none, one] at moved
    rw [call]
    omega

/-- A call that has neither returned nor gone to sleep can go on. -/
theorem goes_on (running : (s.call t).atRest = false) (awake : s.call t ≠ .blocked) :
    ∃ l s', next s l = some s' ∧ l.isCall = false ∧ l.isWake = false := by
  cases hc : s.call t with
  | rest | dequeued | answered =>
    rw [hc] at running
    cases running
  | blocked => exact absurd hc awake
  | dequeue =>
    refine ⟨.enter t, dequeue s t, ?_, rfl, rfl⟩
    simp only [next, hc]
  | abort =>
    refine ⟨.enter t, (notifyAll { s with abortRequest := true }).setCall t .rest, ?_, rfl, rfl⟩
    simp only [next, hc]
  | empty =>
    refine ⟨.enter t, s.setCall t (.answered (if s.queue.isEmpty then 1 else 0)), ?_, rfl, rfl⟩
    simp only [next, hc]
  | notified | woken => exact ⟨.resume t true, _, if_pos (by simp [hc]), rfl, rfl⟩
  | enqueue val =>
    let q := { s with
      queue := s.queue ++ [val]
      enqueued := s.enqueued ++ [val] }.setCall t (.answered 0)
    by_cases sleeper : ∃ u, q.call u = .blocked
    · obtain ⟨u, asleep⟩ := sleeper
      refine ⟨.enqueue t (some u), q.setCall u .notified, ?_, rfl, rfl⟩
      simp only [next, hc, notifyOne]
      exact if_pos asleep
    · refine ⟨.enqueue t none, q, ?_, rfl, rfl⟩
      simp only [next, hc, notifyOne]
      exact if_pos fun u asleep => sleeper ⟨u, asleep⟩

theorem quiet_iff : Quiet s ↔ ∀ t, (s.call t).atRest = true ∨ s.call t = .blocked := by
  constructor
  · intro quiet t
    by_contra busy
    obtain ⟨running, awake⟩ := not_or.mp busy
    obtain ⟨l, s', hs, noCall, noWake⟩ := goes_on (Bool.eq_false_iff.mpr running) awake
    rcases quiet l s' hs with call | wake
    · exact Bool.false_ne_true (noCall.symm.trans call)
    · exact Bool.false_ne_true (noWake.symm.trans wake)
  · intro settled l s' hs
    have busy : ∀ {t c}, s.call t = c → c.atRest = false → c ≠ .blocked → False := by
      rintro t c rfl running awake
      rcases settled t with rest | asleep
      · exact Bool.false_ne_true (running.symm.trans rest)
      · exact awake asleep
    cases next_step hs with
    | callEnqueue | callDequeue | callAbort | callEmpty => exact Or.inl rfl
    | wake => exact Or.inr rfl
    | notifies hc | unheard hc | dequeue hc | abort hc | empty hc =>
      exact (busy hc rfl Call.noConfusion).elim
    | resume hc =>
      rcases hc with hc | hc
      · exact (busy hc rfl Call.noConfusion).elim
      · exact (busy hc rfl Call.noConfusion).elim

end Steps

/-- A run has at most three steps for each call, one more for each thread on an `Abort`,
and two for each timeout or spurious wake-up. Where only these are left every call has
returned or sleeps, and a call sleeps only on an empty queue that was not aborted. -/
theorem calls_settle [DecidableEq Tid] [Fintype Tid] (run : (machine Tid).Run) :
    run.length ≤ 3 * run.count (fun _ => Label.isCall) 0 run.length +
      Fintype.card Tid * run.count (fun _ => Label.isAbort) 0 run.length +
      2 * run.count (fun _ => Label.isWake) 0 run.length ∧
    ∀ i, i ≤ run.length →
      (Quiet (run.state i) ↔ ∀ t,
        ((run.state i).call t).atRest = true ∨ (run.state i).call t = .blocked) ∧
      (Quiet (run.state i) → (∃ t, (run.state i).call t = .blocked) →
        (run.state i).queue = [] ∧ (run.state i).abortRequest = false) := by
  refine ⟨?_, fun i hi => ⟨quiet_iff, fun quiet ⟨t, asleep⟩ => ?_⟩⟩
  · have paid := run.total_le (fun s => ∑ u, (s.call u).work (Fintype.card Tid))
      (fun _ _ => true.toNat)
      (fun _ l => 3 * l.isCall.toNat + Fintype.card Tid * l.isAbort.toNat + 2 * l.isWake.toNat)
      (fun s l s' _ hs => next_work hs) (Nat.zero_le _) (Nat.le_refl _)
    have steps : run.total (fun _ _ => true.toNat) 0 run.length = run.length := run.count_all 0 _
    have start : ∑ u, ((run.state 0).call u).work (Fintype.card Tid) = 0 := by
      rw [run.start]
      exact Finset.sum_eq_zero fun u _ => rfl
    rw [Machine.Run.total_add, Machine.Run.total_add, Machine.Run.total_mul, Machine.Run.total_mul,
      Machine.Run.total_mul, steps, start] at paid
    omega
  · have attended : Attended (run.state i) :=
      (run.reach hi).invariant _ (fun u wrong => by cases wrong) fun _ _ _ h _ hs => h.next hs
    obtain ⟨goesOn, few⟩ := attended t asleep
    have none : census Call.isNotified (run.state i).call = 0 := by
      refine (census_eq_zero _).mpr fun u => ?_
      rcases quiet_iff.mp quiet u with rest | blocked
      · cases hc : (run.state i).call u with
        | notified =>
          rw [hc] at rest
          cases rest
        | _ => rfl
      · rw [blocked]
        rfl
    exact ⟨List.length_eq_zero_iff.mp (by omega), goesOn⟩

/-- The two waiters resume, one of them behind an element and the other to wait on. -/
def resumedRun : (machine (Fin 3)).Run := .ofSchedule _ (.enter 0)
  (twoWaiters ++ [.resume 1 false, .wake 2, .resume 2 false]) (by decide)

theorem calls_settle_resumed : resumedRun.length ≤ 3 * 3 + 3 * 0 + 2 * 1 ∧
    (resumedRun.state 9).queue = [] ∧ (resumedRun.state 9).abortRequest = false := by
  obtain ⟨all, settled⟩ := calls_settle resumedRun
  have calls : resumedRun.count (fun _ => Label.isCall) 0 9 = 3 := by decide
  have aborts : resumedRun.count (fun _ => Label.isAbort) 0 9 = 0 := by decide
  have wakes : resumedRun.count (fun _ => Label.isWake) 0 9 = 1 := by decide
  change _ ≤ 3 * resumedRun.count _ 0 9 + 3 * resumedRun.count _ 0 9 +
    2 * resumedRun.count _ 0 9 at all
  rw [calls, aborts, wakes] at all
  obtain ⟨quiet, empty⟩ := settled 9 (by decide)
  exact ⟨all, empty (quiet.mpr (by decide)) ⟨2, by decide⟩⟩

end BlockQueue
