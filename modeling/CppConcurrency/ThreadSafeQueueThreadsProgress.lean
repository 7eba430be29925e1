import CppConcurrency.ThreadSafeQueueThreads
import Mathlib.Data.Fintype.BigOperators

/-!
# The test of `ThreadSafeQueue` returns, or hangs beside elements

A run of the test is bounded. Where it has come to rest without having returned, `main`
joins a consumer that sleeps in `cond.wait`, every producer has returned, and at least as
many elements lie in the queue as consumers sleep. No notification is left that could wake
one of them; a spurious wake-up could.
-/

namespace ThreadSafeQueue

open Machines Threads LinkedChains

universe u v

variable {Tid : Type v} [DecidableEq Tid] [Fintype Tid] {T : Type u} {s : State Tid T} {t : Tid}
  {front : Addr} {nodes : List (Addr × T)}

/-- A `wait_and_pop()` that wakes up beside an element, with nobody in its way, takes it. -/
theorem Inv.woken_takes (h : Inv front nodes s) (hc : s.call t = .woken .waitAndPop)
    (others : ∀ u, u ≠ t → (s.call u).holdsHead = false ∧ (s.call u).holdsTail = false)
    (waiting : nodes ≠ []) :
    ∃ s', (machine Tid T).exec s (List.replicate 4 (.step t)) = some s' ∧
      s'.popped.length = s.popped.length + 1 := by
  have outside : ∀ u, (s.call u).holdsHead = false ∧ (s.call u).holdsTail = false := by
    intro u
    by_cases here : u = t
    · rw [here, hc]
      exact ⟨rfl, rfl⟩
    · exact others u here
  obtain ⟨headFree, tailFree⟩ := h.mutexes_free outside
  have head := h.head headFree
  have nonempty : front ≠ s.tail := fun same => waiting ((h.chain.eq_iff h.dummy).mp same)
  simp [Machine.exec, machine, ThreadSafeQueue.next, ThreadSafeQueue.advance, State.setCall, hc,
    headFree, tailFree, head, nonempty, Pop.into, List.replicate]

end ThreadSafeQueue

namespace ThreadSafeQueueThreads

open Machines Threads ThreadSafeQueue

variable {k n : ℕ} {s s' : State k}

/-- The steps that are left. -/
def left (n : ℕ) (s : State k) : ℕ :=
  ∑ t, (s.queue.call t).work + 14 * ∑ t, (n - s.i t) + (4 * k - s.main)

theorem next_left {l : Label k} (hs : next n s l = some s') :
    left n s' + 1 ≤ left n s + 8 * l.isSpurious.toNat := by
  cases next_step hs with
  | starts more =>
    simp only [left, Label.isSpurious, Bool.toNat_false]
    omega
  | joins t turn done =>
    have := place_lt t
    simp only [left, Label.isSpurious, Bool.toNat_false]
    omega
  | call t started more rest =>
    have invoked : ThreadSafeQueue.next s.queue (.invoke t (operation s t)) =
        some (s.queue.setCall t (operation s t).invoke) := if_pos rest
    have paid := next_work invoked
    have counted := sum_update (fun i => n - i) s.i t (s.i t + 1)
    simp only [ThreadSafeQueue.Label.isInvoke, ThreadSafeQueue.Label.isSpurious, Bool.toNat_true,
      Bool.toNat_false] at paid
    simp only [left, Label.isSpurious, Bool.toNat_false]
    omega
  | @queue l q inside moved =>
    have paid := next_work moved
    rw [inside, Bool.toNat_false] at paid
    simp only [left, Label.isSpurious]
    omega

/-! ### At rest -/

theorem begun_eq {i : Worker k → ℕ} {pops : Bool} (all : ∀ t, t.2 = pops → i t = n) :
    begun i pops = k * n := by
  have each : ∀ j : Fin k, (∑ b : Bool, if b = pops then i (j, b) else 0) = n := by
    intro j
    rw [Fintype.sum_bool, ← all (j, pops) rfl]
    cases pops with
    | false => exact Nat.zero_add _
    | true => exact Nat.add_zero _
  rw [begun, Fintype.sum_prod_type, Finset.sum_congr rfl fun j _ => each j, Finset.sum_const,
    Finset.card_univ, Fintype.card_fin, nsmul_eq_mul, Nat.cast_id]

theorem begun_le {i : Worker k → ℕ} (pops : Bool) (all : ∀ t, i t ≤ n) : begun i pops ≤ k * n := by
  have most : begun (fun _ : Worker k => n) pops = k * n := begun_eq fun _ _ => rfl
  rw [← most]
  apply Finset.sum_le_sum
  intro t _
  split
  · exact all t
  · exact Nat.le_refl 0

/-- Nobody is inside a call but to sleep. -/
def Settled (n : ℕ) (s : State k) : Prop :=
  ∀ t, finished n s t = true ∨ (s.queue.call t).isBlocked = true

theorem Settled.calls (settled : Settled n s) (t : Worker k) :
    (s.queue.call t).atRest = true ∨ (s.queue.call t).isBlocked = true :=
  (settled t).imp_left finished_rest

theorem blocked_busy {c : Call ℕ} (asleep : c.isBlocked = true) : c.atRest = false := by
  cases c with
  | blocked => rfl
  | _ => cases asleep

/-- All elements have come in, and the consumers that sleep have not taken theirs. -/
theorem Inv.elements (h : Inv n s) (settled : Settled n s) :
    s.queue.pushed.length = k * n ∧
      s.queue.popped.length + census Call.isBlocked s.queue.call ≤ s.queue.pushed.length := by
  have nothing : ∑ t, (s.queue.call t).pushing.length = 0 := by
    refine Finset.sum_eq_zero fun t _ => ?_
    rcases settled.calls t with rest | asleep
    · rw [Call.pushing_atRest rest]
      rfl
    · rw [(Call.onSide_blocked (h.side t) asleep).1]
      rfl
  have sleepers : ∑ t, (s.queue.call t).owes = census Call.isBlocked s.queue.call := by
    refine Finset.sum_congr rfl fun t _ => ?_
    rcases settled.calls t with rest | asleep
    · have awake : (s.queue.call t).isBlocked = false :=
        Bool.eq_false_iff.mpr fun asleep => Bool.false_ne_true ((blocked_busy asleep).symm.trans rest)
      rw [Call.owes_atRest rest, awake]
      rfl
    · rw [(Call.onSide_blocked (h.side t) asleep).1]
      rfl
  have all : begun s.i false = k * n := by
    refine begun_eq fun t produces => ?_
    rcases settled t with done | asleep
    · exact finished_all done
    · rw [(Call.onSide_blocked (h.side t) asleep).2] at produces
      cases produces
  have pushed := h.pushed
  have popped := h.popped
  have most := begun_le true h.atMost
  rw [nothing] at pushed
  rw [sleepers] at popped
  exact ⟨by omega, by omega⟩

/-- A thread that is neither done nor asleep, or a `main` that has not started all
threads, means that something can go on. -/
theorem Inv.goes_on (h : Inv n s) (busy : ¬ Settled n s) :
    ∃ l s', ThreadSafeQueueThreads.next n s l = some s' ∧ l.isSpurious = false := by
  by_cases starting : s.main < 2 * k
  · exact ⟨.main, _, if_pos starting, rfl⟩
  obtain ⟨t, unsettled⟩ := not_forall.mp busy
  obtain ⟨unfinished, awake⟩ := not_or.mp unsettled
  by_cases rest : (s.queue.call t).atRest = true
  · have more : s.i t < n := by
      refine Nat.lt_of_le_of_ne (h.atMost t) fun all => unfinished ?_
      exact Bool.and_eq_true_iff.mpr ⟨rest, decide_eq_true all⟩
    have started : place t < s.main := Nat.lt_of_lt_of_le (place_lt t) (Nat.not_lt.mp starting)
    exact ⟨.call t, _, next_call started more rest, rfl⟩
  · obtain ⟨front, nodes, inv⟩ := ThreadSafeQueue.reach_inv h.reach
    obtain ⟨l, q, moved, noCall, noWake⟩ := inv.progress (reach_room h.reach)
      (Bool.eq_false_iff.mpr rest) (Bool.eq_false_iff.mpr awake)
    exact ⟨.queue l, _, next_queue noCall moved, noWake⟩

theorem Inv.quiet_settled (h : Inv n s) (quiet : Quiet n s) : Settled n s := by
  by_contra busy
  obtain ⟨l, s', hs, noWake⟩ := h.goes_on busy
  exact Bool.false_ne_true (noWake.symm.trans (quiet l s' hs))

/-- With all threads settled only `main` can move, and not beyond a thread that sleeps. -/
theorem Settled.quiet (settled : Settled n s)
    (stopped : Returned s ∨ ∃ t, s.main = 2 * k + place t ∧ (s.queue.call t).isBlocked = true) :
    Quiet n s := by
  intro l s' hs
  cases next_step hs with
  | starts more =>
    rcases stopped with returned | ⟨t, turn, -⟩
    · rw [Returned] at returned
      omega
    · omega
  | joins u turn done =>
    have inside := place_lt u
    rcases stopped with returned | ⟨t, turn', asleep⟩
    · rw [Returned] at returned
      omega
    · obtain rfl : u = t := place_inj (by omega)
      exact absurd ((blocked_busy asleep).symm.trans (finished_rest done)) Bool.false_ne_true
  | call t started more rest =>
    rcases settled t with done | asleep
    · have all := finished_all done
      omega
    · exact absurd ((blocked_busy asleep).symm.trans rest) Bool.false_ne_true
  | queue inside moved =>
    rcases quiet_of_settled settled.calls _ _ moved with call | wake
    · exact absurd (inside.symm.trans call) Bool.false_ne_true
    · exact wake

theorem Inv.quiet_iff (h : Inv n s) : Quiet n s ↔ Returned s ∨ Hung n s := by
  constructor
  · intro quiet
    have settled := h.quiet_settled quiet
    rcases Nat.lt_or_eq_of_le h.main_le with before | returned
    · right
      have started : 2 * k ≤ s.main := by
        by_contra starting
        have := quiet .main _ (if_pos (Nat.not_le.mp starting))
        cases this
      have inside : (s.main - 2 * k) / 2 < k := by omega
      have found : threadAt k (s.main - 2 * k) = some _ := dif_pos inside
      refine ⟨settled, ⟨_, by rw [place_threadAt found]; omega, ?_⟩, (h.elements settled).2⟩
      refine (settled _).resolve_left fun done => ?_
      have hs : ThreadSafeQueueThreads.next n s .main = some { s with main := s.main + 1 } := by
        simp only [ThreadSafeQueueThreads.next, advanceMain, if_neg (Nat.not_lt.mpr started), found, done,
          if_true]
      have := quiet .main _ hs
      cases this
    · exact Or.inl returned
  · rintro (returned | hung)
    · refine Settled.quiet (fun t => Or.inl (h.joined t ?_)) (Or.inl returned)
      have := place_lt t
      rw [Returned] at returned
      omega
    · exact Settled.quiet hung.settled (Or.inr hung.joining)

/-! ### Notifications that are heard -/

/-- The notifications of the run are heard. -/
def Heard (s : State k) : Label k → Prop
  | .queue l => ThreadSafeQueue.Heard s.queue l
  | _ => True

theorem reachBy_covered (reached : (machine k n).ReachBy Heard s) : Covered s.queue := by
  have both : Inv n s ∧ Covered s.queue := by
    refine reached.invariant (P := fun s => Inv n s ∧ Covered s.queue) _ ?_ ?_
    · refine ⟨start_inv k n, ?_⟩
      rintro ⟨u, hu⟩
      cases hu
    · rintro s l s' ⟨h, covered⟩ heard hs
      refine ⟨h.next hs, ?_⟩
      obtain ⟨front, nodes, inv⟩ := ThreadSafeQueue.reach_inv h.reach
      cases next_step hs with
      | starts | joins => exact covered
      | call t started more rest =>
        exact covered.next inv (l := .invoke t (operation s t)) trivial (if_pos rest)
      | queue inside moved => exact covered.next inv heard moved
  exact both.2

/-- A consumer does not sleep beside an element if every notification was heard. -/
theorem Hung.unheard (hung : Hung n s) (covered : Covered s.queue) : False := by
  obtain ⟨t, -, asleep⟩ := hung.joining
  have settled : ∀ u, (s.queue.call u).atRest = false → (s.queue.call u).isBlocked = true := fun u busy =>
    (Settled.calls hung.settled u).resolve_left (Bool.eq_false_iff.mp busy)
  have waiting : (s.queue.call t).waiting = true := by
    cases hc : s.queue.call t with
    | blocked => rfl
    | _ =>
      rw [hc] at asleep
      cases asleep
  have none : census Call.coming s.queue.call = 0 :=
    (census_eq_zero _).mpr fun u => (Call.settled (settled u)).2
  have some := census_pos Call.isBlocked asleep
  have attended := covered ⟨t, waiting⟩
  have elements := hung.elements
  omega

/-- A run of the test has at most 28 steps for each element, four for each pair of threads
and eight for each spurious wake-up. It comes to rest where `main` has joined all threads,
or joins a consumer that sleeps beside elements that nobody will take; the latter only if
some notification was not heard. -/
theorem test_settles (run : (machine k n).Run) :
    run.length ≤ 28 * (k * n) + 4 * k + 8 * run.count (fun _ => Label.isSpurious) 0 run.length ∧
      (∀ i, i ≤ run.length →
        (Quiet n (run.state i) ↔ Returned (run.state i) ∨ Hung n (run.state i))) ∧
      (run.Meets Heard → ∀ i, i ≤ run.length → Quiet n (run.state i) → Returned (run.state i)) := by
  refine ⟨?_, fun i hi => (reach_inv (run.reach hi)).quiet_iff, fun heard i hi quiet => ?_⟩
  · have paid := run.total_le (left n) (fun _ _ => true.toNat) (fun _ l => 8 * l.isSpurious.toNat)
      (fun s l s' _ hs => next_left hs) (Nat.zero_le _) (Nat.le_refl _)
    have steps : run.total (fun _ _ => true.toNat) 0 run.length = run.length := run.count_all 0 _
    have start : left n (run.state 0) = 28 * (k * n) + 4 * k := by
      have idle : ∑ t : Worker k, (((machine k n).start).queue.call t).work = 0 :=
        Finset.sum_eq_zero fun t _ => rfl
      have owing : ∑ _t : Worker k, (n - 0) = 2 * (k * n) := by
        rw [Finset.sum_const, Finset.card_univ, Fintype.card_prod, Fintype.card_fin, Fintype.card_bool,
          nsmul_eq_mul, Nat.cast_id, Nat.sub_zero, Nat.mul_comm k 2, Nat.mul_assoc]
      rw [run.start, left, idle]
      change 0 + 14 * ∑ _t : Worker k, (n - 0) + (4 * k - 0) = _
      omega
    rw [Machine.Run.total_mul, steps, start] at paid
    omega
  · refine ((reach_inv (run.reach hi)).quiet_iff.mp quiet).resolve_right fun hung => ?_
    exact hung.unheard (reachBy_covered (run.reachBy heard hi))

/-- One pair of threads and one element; the consumer sleeps before the producer pushes. -/
def onePair : List (Label 1) :=
  let p : Worker 1 := (⟨0, Nat.one_pos⟩, false)
  let c : Worker 1 := (⟨0, Nat.one_pos⟩, true)
  [.main, .main, .call c] ++ List.replicate 4 (.queue (.step c)) ++
    [.call p, .queue (.alloc p 1)] ++ List.replicate 4 (.queue (.step p)) ++
    [.queue (.notify p (some c)), .main] ++ List.replicate 6 (.queue (.step c)) ++ [.main]

def onePairRun : (machine 1 1).Run := .ofSchedule _ .main onePair (by decide +kernel)

theorem test_settles_onePair : onePairRun.length ≤ 28 * (1 * 1) + 4 * 1 + 8 * 0 ∧
    (Quiet 1 (onePairRun.state 22) ↔ Returned (onePairRun.state 22) ∨ Hung 1 (onePairRun.state 22)) ∧
    (Quiet 1 (onePairRun.state 22) → Returned (onePairRun.state 22)) := by
  obtain ⟨all, rest, heard⟩ := test_settles onePairRun
  have wakes : onePairRun.count (fun _ => Label.isSpurious) 0 22 = 0 := by decide +kernel
  change _ ≤ _ + 8 * onePairRun.count _ 0 22 at all
  rw [wakes] at all
  refine ⟨all, rest 22 (by decide), heard ?_ 22 (by decide)⟩
  have each : ∀ l ∈ onePair, ∀ s, Heard s l := by
    simp [onePair, Heard, ThreadSafeQueue.Heard, List.replicate]
  intro i hi
  refine each _ ?_ _
  change onePair.getD i _ ∈ onePair
  rw [List.getD_eq_getElem?_getD, List.getElem?_eq_getElem hi]
  exact List.getElem_mem hi

/-- A spurious wake-up of `t`, and the four steps of its own that take an element. -/
def rescue (t : Worker k) : List (Label k) :=
  .queue (.spurious t) :: List.replicate 4 (.queue (.step t))

/-- A consumer that `main` joins wakes up for no reason and takes an element. -/
theorem Inv.rescued (h : Inv n s) (hung : Hung n s) {t : Worker k}
    (asleep : (s.queue.call t).isBlocked = true) :
    ∃ s', (machine k n).exec s (rescue t) = some s' ∧
      s'.queue.popped.length = s.queue.popped.length + 1 := by
  obtain ⟨hc, -⟩ := Call.onSide_blocked (h.side t) asleep
  have woken : (ThreadSafeQueue.machine (Worker k) ℕ).next s.queue (.spurious t) =
      some (s.queue.setCall t (.woken .waitAndPop)) := by
    simp only [ThreadSafeQueue.machine, ThreadSafeQueue.next, hc]
  obtain ⟨front, nodes, inv⟩ := ThreadSafeQueue.reach_inv (h.reach.next trivial woken)
  have waiting : nodes ≠ [] := by
    rintro rfl
    have len := inv.length
    have some := census_pos Call.isBlocked asleep
    have elements := hung.elements
    change s.queue.popped.length + 0 = s.queue.pushed.length at len
    omega
  have others : ∀ u, u ≠ t → ((s.queue.setCall t (.woken .waitAndPop)).call u).holdsHead = false ∧
      ((s.queue.setCall t (.woken .waitAndPop)).call u).holdsTail = false := by
    intro u other
    rw [setCall_other _ other]
    rcases Settled.calls hung.settled u with rest | sleeps
    · exact Call.outside rest
    · rw [(Call.onSide_blocked (h.side u) sleeps).1]
      exact ⟨rfl, rfl⟩
  obtain ⟨q, run, took⟩ := inv.woken_takes (setCall_self ..) others waiting
  have wakes : (machine k n).next s (.queue (.spurious t)) =
      some { s with queue := s.queue.setCall t (.woken .waitAndPop) } :=
    next_queue (n := n) (s := s) (l := .spurious t) rfl woken
  have inside : ∀ l ∈ List.replicate 4 (.step t : ThreadSafeQueue.Label (Worker k) ℕ),
      l.isInvoke = false := fun l hl => by rw [List.eq_of_mem_replicate hl]; rfl
  have steps := (ThreadSafeQueue.machine (Worker k) ℕ).exec_embed (N := machine k n)
    (fun q => { s with queue := q }) Label.queue (fun l => l.isInvoke = false)
    (fun q l inside => by
      simp only [machine, ThreadSafeQueue.machine, ThreadSafeQueueThreads.next, inside,
        Bool.false_eq_true, if_false])
    inside (s.queue.setCall t (.woken .waitAndPop))
  rw [run] at steps
  exact ⟨_, ((machine k n).exec_step wakes _).trans steps, took⟩

theorem next_popped {l : Label k} (hs : next n s l = some s') :
    s.queue.popped.length ≤ s'.queue.popped.length := by
  cases next_step hs with
  | starts | joins | call => exact Nat.le_refl _
  | queue inside moved =>
    cases ThreadSafeQueue.next_step moved with
    | step advanced =>
      obtain ⟨new, popped, -⟩ := advance_popped advanced
      rw [popped, List.length_append]
      exact Nat.le_add_right ..
    | _ => exact Nat.le_refl _

/-- Where the run has not come to rest, a step brings it nearer. -/
theorem unquiet_step (unquiet : ¬ Quiet n s) :
    ∃ l s', next n s l = some s' ∧ l.isSpurious = false ∧ left n s' < left n s := by
  obtain ⟨l, moves⟩ := not_forall.mp unquiet
  obtain ⟨s', moves⟩ := not_forall.mp moves
  obtain ⟨hs, noWake⟩ := Classical.not_imp.mp moves
  have noWake := Bool.eq_false_iff.mpr noWake
  have paid := next_left hs
  rw [noWake, Bool.toNat_false] at paid
  exact ⟨l, s', hs, noWake, by omega⟩

theorem comes_to_rest (reached : (machine k n).Reach s) :
    ∃ ls s', (machine k n).exec s ls = some s' ∧ (machine k n).Reach s' ∧ Quiet n s' := by
  refine reached.finish (left n) (Quiet n) fun s _ unquiet => ?_
  obtain ⟨l, s', hs, -, lower⟩ := unquiet_step unquiet
  exact ⟨l, s', trivial, hs, lower⟩

/-- From every reachable state the test can return, and where it is stuck, `main` joins a
consumer that sleeps: a spurious wake-up and four of its own steps take an element. -/
theorem test_can_return (reached : (machine k n).Reach s) :
    (∃ ls s', (machine k n).exec s ls = some s' ∧ Returned s') ∧
      (Hung n s → ∃ t, s.main = 2 * k + place t ∧ (s.queue.call t).isBlocked = true ∧
        ∃ s', (machine k n).exec s (rescue t) = some s' ∧
          s'.queue.popped.length = s.queue.popped.length + 1) := by
  constructor
  · induction owed : k * n - s.queue.popped.length using Nat.strong_induction_on generalizing s with
    | h m ih =>
      obtain ⟨ls, s₁, run, reached₁, quiet⟩ := comes_to_rest reached
      have h := reach_inv reached₁
      rcases h.quiet_iff.mp quiet with returned | hung
      · exact ⟨ls, s₁, run, returned⟩
      · obtain ⟨t, -, asleep⟩ := hung.joining
        obtain ⟨s₂, run', took⟩ := h.rescued hung asleep
        have grew : s.queue.popped.length ≤ s₁.queue.popped.length :=
          (machine k n).exec_invariant (P := fun s' => s.queue.popped.length ≤ s'.queue.popped.length)
            (fun _ _ _ now hs => Nat.le_trans now (next_popped hs)) (Nat.le_refl _) run
        have some := census_pos Call.isBlocked asleep
        obtain ⟨pushed, elements⟩ := h.elements hung.settled
        obtain ⟨ls'', s', run'', returned⟩ := ih _ (by omega) ((machine k n).reach_exec reached₁ run') rfl
        exact ⟨ls ++ (rescue t ++ ls''), s',
          (machine k n).exec_trans run ((machine k n).exec_trans run' run''), returned⟩
  · intro hung
    obtain ⟨t, joins, asleep⟩ := hung.joining
    exact ⟨t, joins, asleep, (reach_inv reached).rescued hung asleep⟩

/-- One pair of threads and one element; the producer pushes while the consumer holds
`head_mutex` and does not sleep yet. -/
def stuckPair : List (Label 1) :=
  let p : Worker 1 := (⟨0, Nat.one_pos⟩, false)
  let c : Worker 1 := (⟨0, Nat.one_pos⟩, true)
  [.main, .main, .call c] ++ List.replicate 3 (.queue (.step c)) ++
    [.call p, .queue (.alloc p 1)] ++ List.replicate 4 (.queue (.step p)) ++
    [.queue (.notify p none), .queue (.step c), .main]

def stuckPairRun : (machine 1 1).Run := .ofSchedule _ .main stuckPair (by decide +kernel)

theorem test_can_return_stuckPair :
    (∃ ls s', (machine 1 1).exec (stuckPairRun.state 15) ls = some s' ∧ Returned s') ∧
      ∃ t, (stuckPairRun.state 15).main = 2 * 1 + place t ∧
        ((stuckPairRun.state 15).queue.call t).isBlocked = true ∧
        ∃ s', (machine 1 1).exec (stuckPairRun.state 15) (rescue t) = some s' ∧
          s'.queue.popped.length = (stuckPairRun.state 15).queue.popped.length + 1 := by
  have inside : 15 ≤ stuckPairRun.length := by decide
  obtain ⟨returns, rescued⟩ := test_can_return (stuckPairRun.reach inside)
  refine ⟨returns, rescued ⟨?_, ⟨(⟨0, Nat.one_pos⟩, true), ?_, ?_⟩, ?_⟩⟩
  · decide +kernel
  · decide +kernel
  · decide +kernel
  · decide +kernel

end ThreadSafeQueueThreads
