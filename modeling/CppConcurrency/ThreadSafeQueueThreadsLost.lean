import CppConcurrency.ThreadSafeQueueThreadsProgress

/-!
# The test of `ThreadSafeQueue` can hang

A consumer that has found the queue empty holds `head_mutex` until it sleeps, and the
producers do not need that mutex. They can push all their elements meanwhile and notify
nobody. The consumer goes to sleep after the last notification, and `main` waits for it.
-/

namespace ThreadSafeQueueThreads

open Machines Threads ThreadSafeQueue

variable {k n : ℕ} {s s' : State k} {c : Worker k}

/-- The step is no spurious wake-up. -/
def NoWake (_ : State k) (l : Label k) : Prop := l.isSpurious = false

/-- `c` has found the queue empty and does not sleep yet, and the other consumers have not
begun a call. -/
structure AboutToSleep (c : Worker k) (s : State k) : Prop where
  started : s.main = 2 * k
  here : s.queue.call c = .block .waitAndPop
  others : ∀ u, u ≠ c → u.2 = true → (s.queue.call u).atRest = true

theorem AboutToSleep.move (h : AboutToSleep c s) {q : ThreadSafeQueue.State (Worker k) ℕ}
    {i : Worker k → ℕ} {t : Worker k} (produces : t.2 = false)
    (other : ∀ u, u ≠ t → q.call u = s.queue.call u) (consumer : c.2 = true) :
    AboutToSleep c { s with queue := q, i := i } where
  started := h.started
  here := by
    rw [other c fun same => by rw [same, produces] at consumer; cases consumer]
    exact h.here
  others := fun u different pops => by
    rw [other u fun same => by rw [same, produces] at pops; cases pops]
    exact h.others u different pops

/-- Nothing holds a producer up: nobody but a producer can be inside the critical section
of `tail_mutex`, and nobody sleeps. -/
theorem AboutToSleep.producer_moves (h : AboutToSleep c s) (inv : Inv n s) (consumer : c.2 = true)
    {t : Worker k} (produces : t.2 = false) (unfinished : finished n s t = false) :
    ∃ l s', next n s l = some s' ∧ l.isSpurious = false ∧ AboutToSleep c s' := by
  have side := inv.side t
  rw [produces] at side
  have pushes : (s.queue.call t).pushes = true := side
  have started : place t < s.main := by
    rw [h.started]
    exact place_lt t
  obtain ⟨front, nodes, queue⟩ := ThreadSafeQueue.reach_inv inv.reach
  have awake : ∀ u, (s.queue.call u).isBlocked = false := by
    intro u
    rw [Bool.eq_false_iff]
    intro asleep
    have pops := (Call.onSide_blocked (inv.side u) asleep).2
    by_cases same : u = c
    · rw [same, h.here] at asleep
      cases asleep
    · exact Bool.false_ne_true ((blocked_busy asleep).symm.trans (h.others u same pops))
  have inside : ∀ {l : ThreadSafeQueue.Label (Worker k) ℕ} {u : Worker k}
      {q : ThreadSafeQueue.State (Worker k) ℕ}, u.2 = false → l.isInvoke = false →
      l.isSpurious = false → ThreadSafeQueue.next s.queue l = some q →
      (∀ v, v ≠ u → q.call v = s.queue.call v) →
      ∃ l s', next n s l = some s' ∧ l.isSpurious = false ∧ AboutToSleep c s' := by
    intro l u q writes noCall noWake moved other
    exact ⟨.queue l, _, next_queue noCall moved, noWake, h.move writes other consumer⟩
  have steps : ∀ {u : Worker k}, u.2 = false →
      (∃ q, ThreadSafeQueue.advance s.queue u = some q) →
      ∃ l s', next n s l = some s' ∧ l.isSpurious = false ∧ AboutToSleep c s' := by
    rintro u writes ⟨q, moved⟩
    exact inside (l := .step u) writes rfl rfl moved fun v other => advance_other moved other
  cases hc : s.queue.call t with
  | rest | pushReturn | popReturn =>
    have rest : (s.queue.call t).atRest = true := by
      rw [hc]
      rfl
    have more : s.i t < n := by
      refine Nat.lt_of_le_of_ne (inv.atMost t) fun all => ?_
      have done : finished n s t = true := Bool.and_eq_true_iff.mpr ⟨rest, decide_eq_true all⟩
      exact Bool.false_ne_true (unfinished.symm.trans done)
    exact ⟨.call t, _, next_call started more rest, rfl,
      h.move produces (fun u other => setCall_other _ other _) consumer⟩
  | pushAlloc data =>
    obtain ⟨p, free⟩ := reach_room inv.reach
    have moved : ThreadSafeQueue.next s.queue (.alloc t p) =
        some ((s.queue.setNode p (some .fresh)).setCall t (.pushLock data p)) := by
      simp only [ThreadSafeQueue.next, hc, free, Option.isSome_none, Bool.false_eq_true, if_false]
    exact inside produces rfl rfl moved fun u other => setCall_other _ other _
  | pushLock data p =>
    cases owned : s.queue.tailMutex with
    | none =>
      refine steps produces ?_
      simp only [ThreadSafeQueue.advance, hc, owned]
      exact ⟨_, rfl⟩
    | some u =>
      have holds := (queue.tailLock u).mp owned
      have writes : u.2 = false := by
        rw [Bool.eq_false_iff]
        intro pops
        by_cases same : u = c
        · rw [same, h.here] at holds
          cases holds
        · have outside := (Call.outside (h.others u same pops)).2
          exact Bool.false_ne_true (outside.symm.trans holds)
      exact steps writes (tail_goes_on holds)
  | pushNotify =>
    have moved : ThreadSafeQueue.next s.queue (.notify t none) =
        some (s.queue.setCall t .pushReturn) := by
      simp only [ThreadSafeQueue.next, notify, hc]
      exact if_pos awake
    exact inside produces rfl rfl moved fun u other => setCall_other _ other _
  | pushData | pushNext | pushTail =>
    refine steps produces (tail_goes_on ?_)
    rw [hc]
    rfl
  | _ =>
    rw [hc] at pushes
    cases pushes

/-- `main` starts all threads, and the first consumer looks at the empty queue. -/
theorem about_to_sleep (items : 0 < n) (c : Worker k) (consumer : c.2 = true) :
    ∃ s, (machine k n).ReachBy NoWake s ∧ AboutToSleep c s := by
  have starts : ∀ m, m ≤ 2 * k →
      (machine k n).ReachBy NoWake { (machine k n).start with main := m } := by
    intro m
    induction m with
    | zero => exact fun _ => .start
    | succ m ih =>
      intro more
      have hs : (machine k n).next { (machine k n).start with main := m } .main =
          some { (machine k n).start with main := m + 1 } := if_pos more
      exact (ih (Nat.le_of_succ_le more)).next (l := .main) rfl hs
  have looks : ∃ s, (machine k n).exec { (machine k n).start with main := 2 * k }
      (.call c :: List.replicate 3 (.queue (.step c))) = some s ∧ AboutToSleep c s := by
    have started := place_lt c
    refine ⟨{ (machine k n).start with
      queue := { (machine k n).start.queue with
        headMutex := some c
        call := Function.update (fun _ => .rest) c (.block .waitAndPop)
        sawEmpty := Function.update (fun _ => false) c true }
      i := Function.update (fun _ => 0) c 1
      main := 2 * k }, ?_, ?_⟩
    · simp [machine, Machine.exec, next, ThreadSafeQueue.next, ThreadSafeQueue.advance, List.replicate,
        ThreadSafeQueue.machine, State.setCall, operation, consumer, started, items, Call.atRest,
        Op.invoke, ThreadSafeQueue.Label.isInvoke, Pop.waits]
    · exact {
        started := rfl
        here := by simp
        others := fun u other _ => by simp [Function.update_of_ne other, Call.atRest] }
  obtain ⟨s, run, about⟩ := looks
  refine ⟨s, (machine k n).reachBy_exec ?_ (starts _ (Nat.le_refl _)) run, about⟩
  intro l hl s
  rcases List.mem_cons.mp hl with rfl | later
  · rfl
  · rw [List.eq_of_mem_replicate later]
    rfl

/-- `c` sleeps, and no producer is left to wake it. -/
structure Forsaken (n : ℕ) (c : Worker k) (s : State k) : Prop where
  asleep : s.queue.call c = .blocked .waitAndPop
  returned : ∀ t : Worker k, t.2 = false → finished n s t = true

theorem Forsaken.next (h : Forsaken n c s) (inv : Inv n s) {l : Label k}
    (hs : next n s l = some s') (noWake : l.isSpurious = false) : Forsaken n c s' := by
  refine ⟨?_, fun t produces => finished_next hs (h.returned t produces)⟩
  have busy : (s.queue.call c).atRest = false := by
    rw [h.asleep]
    rfl
  have notThis : ∀ {t : Worker k} {call : Call ℕ}, s.queue.call t = call →
      call ≠ .blocked .waitAndPop → c ≠ t := by
    rintro t call hc different rfl
    exact different (hc.symm.trans h.asleep)
  cases next_step hs with
  | starts | joins => exact h.asleep
  | call t started more rest =>
    have other : c ≠ t := fun same => by
      rw [same, rest] at busy
      cases busy
    exact (setCall_other _ other _).trans h.asleep
  | queue inside moved =>
    cases ThreadSafeQueue.next_step moved with
    | invoke => cases inside
    | spurious => cases noWake
    | alloc hc =>
      exact (setCall_other _ (notThis hc (fun wrong => by cases wrong)) _).trans h.asleep
    | notifyNobody hc =>
      exact (setCall_other _ (notThis hc (fun wrong => by cases wrong)) _).trans h.asleep
    | @notifyOne t u pop hc hu =>
      -- no producer is left, and a consumer notifies nobody
      exfalso
      have side := inv.side t
      rw [hc] at side
      cases produces : t.2 with
      | false =>
        have rest := finished_rest (h.returned t produces)
        rw [hc] at rest
        cases rest
      | true =>
        rw [produces] at side
        exact Bool.false_ne_true side
    | @step t q advanced =>
      refine (advance_other advanced ?_).trans h.asleep
      rintro rfl
      simp only [ThreadSafeQueue.advance, h.asleep] at advanced
      cases advanced

/-- The test of `ThreadSafeQueue` can hang without any spurious wake-up, with any number of
threads and of elements. -/
theorem test_can_hang_iff (k n : ℕ) :
    (∃ s, (machine k n).ReachBy NoWake s ∧ Hung n s) ↔ 0 < k ∧ 0 < n := by
  constructor
  · rintro ⟨s, reached, hung⟩
    obtain ⟨t, -, asleep⟩ := hung.joining
    have some := census_pos Call.isBlocked asleep
    obtain ⟨pushed, elements⟩ := (reach_inv reached.reach).elements hung.settled
    have product : 0 < k * n := by omega
    exact ⟨Nat.pos_of_mul_pos_right product, Nat.pos_of_mul_pos_left product⟩
  · rintro ⟨threads, items⟩
    let c : Worker k := (⟨0, threads⟩, true)
    obtain ⟨s, reached, about⟩ := about_to_sleep items c rfl
    -- the producers push all their elements
    obtain ⟨-, s₁, -, reached₁, about₁, returned⟩ := reached.finish_keeping (left n) (AboutToSleep c)
      (fun s => ∀ t : Worker k, t.2 = false → finished n s t = true)
      (fun s reached about unfinished => by
        obtain ⟨t, missing⟩ := not_forall.mp unfinished
        obtain ⟨produces, missing⟩ := Classical.not_imp.mp missing
        obtain ⟨l, s', hs, noWake, about'⟩ := about.producer_moves (reach_inv reached.reach) rfl produces
          (Bool.eq_false_iff.mpr missing)
        have paid := next_left hs
        rw [noWake, Bool.toNat_false] at paid
        exact ⟨l, s', noWake, hs, about', by omega⟩) about
    -- the consumer goes to sleep
    have sleeps : next n s₁ (.queue (.step c)) = some { s₁ with
        queue := { s₁.queue with headMutex := none }.setCall c (.blocked .waitAndPop) } := by
      simp only [next, ThreadSafeQueue.next, ThreadSafeQueue.advance,
        about₁.here, ThreadSafeQueue.Label.isInvoke, Bool.false_eq_true, if_false, Option.map_some]
    have forsaken : Forsaken n c { s₁ with
        queue := { s₁.queue with headMutex := none }.setCall c (.blocked .waitAndPop) } :=
      ⟨setCall_self .., fun t produces => finished_next sleeps (returned t produces)⟩
    -- and the others come to rest
    have own : NoWake s₁ (.queue (.step c)) := rfl
    obtain ⟨-, s₂, -, reached₂, forsaken₂, quiet⟩ := (reached₁.next own sleeps).finish_keeping
      (left n) (Forsaken n c) (Quiet n)
      (fun s reached forsaken unquiet => by
        obtain ⟨l, s', hs, noWake, lower⟩ := unquiet_step unquiet
        exact ⟨l, s', noWake, hs, forsaken.next (reach_inv reached.reach) hs noWake, lower⟩) forsaken
    have h := reach_inv reached₂.reach
    refine ⟨s₂, reached₂, (h.quiet_iff.mp quiet).resolve_left fun ended => ?_⟩
    have inside := place_lt c
    have rest := finished_rest (h.joined c (by rw [ended]; omega))
    rw [forsaken₂.asleep] at rest
    cases rest

end ThreadSafeQueueThreads
