import CppConcurrency.Potentials
import CppConcurrency.ThreadSafeQueueWakeups

/-!
# `ThreadSafeQueue`: no call is held up for ever

`get_tail` takes `tail_mutex` inside the critical section of `head_mutex`, and nothing is
taken inside that of `tail_mutex`, so whoever holds a mutex can go on. Only a wake-up
sends a call back, and a push wakes at most one. A run therefore has at most as many
steps as its calls and its spurious wake-ups pay for, and when no step is left every
call has returned or waits for data.
-/

namespace ThreadSafeQueue

open Machines Threads

universe u v

variable {Tid : Type v} {T : Type u}

/-- The steps that are left to a call, where a notification is priced at the way of the
call it wakes. -/
def Call.work : Call T → ℕ
  | .pushAlloc _ => 13
  | .pushLock _ _ => 12
  | .pushData _ _ => 11
  | .pushNext _ _ => 10
  | .pushTail _ _ => 9
  | .pushNotify => 8
  | .lockHead _ | .woken _ => 7
  | .lockTail _ => 6
  | .readTail _ => 5
  | .copy _ => 4
  | .takeHead _ _ => 3
  | .relink _ _ _ => 2
  | .finish _ _ _ | .refuse | .block _ => 1
  | .rest | .pushReturn | .popReturn _ _ | .blocked _ | .undefined => 0

theorem Call.work_atRest {c : Call T} (rest : c.atRest = true) : c.work = 0 := by
  cases c with
  | rest | pushReturn | popReturn => rfl
  | _ => cases rest

theorem Call.outside {c : Call T} (rest : c.atRest = true) : c.holdsHead = false ∧ c.holdsTail = false := by
  cases c with
  | rest | pushReturn | popReturn => exact ⟨rfl, rfl⟩
  | _ => cases rest

section Steps

variable [DecidableEq Tid] {s s' : State Tid T} {t u : Tid} {front : Addr} {nodes : List (Addr × T)}

theorem advance_work (hs : advance s t = some s') :
    (s'.call t).work + 1 ≤ (s.call t).work := by
  unfold advance at hs
  cases hc : s.call t with
  | rest | pushAlloc | pushNotify | pushReturn | blocked | popReturn | undefined =>
    simp only [hc] at hs
    cases hs
  | pushLock | lockHead | woken | lockTail =>
    simp only [hc] at hs
    obtain ⟨-, ⟨⟩⟩ := Option.ite_none_left_eq_some.mp hs
    simp [State.setCall, Call.work]
  | pushTail | refuse | block =>
    simp only [hc] at hs
    obtain rfl := Option.some.inj hs
    simp [State.setCall, Call.work]
  | readTail pop =>
    simp only [hc] at hs
    obtain rfl := Option.some.inj hs
    simp only [State.setCall, Function.update_self]
    split
    · split <;> simp [Call.work]
    · split <;> simp [Call.work]
  | pushData | pushNext | copy | takeHead | relink | finish =>
    simp only [hc] at hs
    split at hs
    all_goals
      obtain rfl := Option.some.inj hs
      simp [State.setCall, State.setNode, Call.work]

/-- A step moves the call of its thread and no other. -/
theorem advance_call (hs : advance s t = some s') :
    s'.call = Function.update s.call t (s'.call t) := by
  funext u
  by_cases here : u = t
  · rw [here, Function.update_self]
  · rw [Function.update_of_ne here, advance_other hs here]

omit [DecidableEq Tid] in
theorem setNode_free {a b : Addr} {n : Node T} (there : s.heap b = some n) (m : Option (Node T))
    (free : s.heap a = none) : (s.setNode b m).heap a = none := by
  have other : a ≠ b := fun same => by
    rw [same, there] at free
    cases free
  exact (Function.update_of_ne other _ _).trans free

/-- Only `alloc` makes a node. -/
theorem advance_heap (hs : advance s t = some s') {a : Addr} (free : s.heap a = none) :
    s'.heap a = none := by
  unfold advance at hs
  cases hc : s.call t with
  | rest | pushAlloc | pushNotify | pushReturn | blocked | popReturn | undefined =>
    simp only [hc] at hs
    cases hs
  | pushLock | lockHead | woken | lockTail =>
    simp only [hc] at hs
    obtain ⟨-, ⟨⟩⟩ := Option.ite_none_left_eq_some.mp hs
    exact free
  | pushTail | readTail | refuse | block =>
    simp only [hc] at hs
    obtain rfl := Option.some.inj hs
    exact free
  | pushData | pushNext | relink | finish =>
    simp only [hc] at hs
    split at hs
    · rename_i there
      obtain rfl := Option.some.inj hs
      exact setNode_free there _ free
    · obtain rfl := Option.some.inj hs
      exact free
  | copy | takeHead =>
    simp only [hc] at hs
    split at hs
    all_goals
      obtain rfl := Option.some.inj hs
      exact free

/-- Inside the critical section of `tail_mutex` nothing holds a call up. -/
theorem tail_goes_on (inside : (s.call t).holdsTail = true) : ∃ s', advance s t = some s' := by
  cases hc : s.call t with
  | pushData | pushNext =>
    simp only [advance, hc]
    split <;> exact ⟨_, rfl⟩
  | pushTail | readTail =>
    simp only [advance, hc]
    exact ⟨_, rfl⟩
  | _ =>
    rw [hc] at inside
    cases inside

/-- Whoever wants `tail_mutex` gets it, or its owner can go on. -/
theorem Inv.tail_progress (h : Inv front nodes s) :
    s.tailMutex = none ∨ ∃ u s', ThreadSafeQueue.advance s u = some s' := by
  cases owned : s.tailMutex with
  | none => exact Or.inl rfl
  | some u =>
    obtain ⟨s', hs⟩ := tail_goes_on ((h.tailLock u).mp owned)
    exact Or.inr ⟨u, s', hs⟩

/-- Inside the critical section of `head_mutex` only `tail_mutex` holds a call up. -/
theorem Inv.head_progress (h : Inv front nodes s) :
    s.headMutex = none ∨ ∃ u s', ThreadSafeQueue.advance s u = some s' := by
  cases owned : s.headMutex with
  | none => exact Or.inl rfl
  | some t =>
    have inside := (h.headLock t).mp owned
    right
    cases hc : s.call t with
    | lockTail pop =>
      rcases h.tail_progress with free | moving
      · refine ⟨t, ?_⟩
        simp only [ThreadSafeQueue.advance, hc, free]
        exact ⟨_, rfl⟩
      · exact moving
    | copy | takeHead | relink =>
      refine ⟨t, ?_⟩
      simp only [ThreadSafeQueue.advance, hc]
      split <;> exact ⟨_, rfl⟩
    | readTail | refuse | block =>
      refine ⟨t, ?_⟩
      simp only [ThreadSafeQueue.advance, hc]
      exact ⟨_, rfl⟩
    | _ =>
      rw [hc] at inside
      cases inside

def Label.isSpurious : Label Tid T → Bool
  | .spurious _ => true
  | _ => false

/-- A call that has neither returned nor gone to sleep means that some call can go on. -/
theorem Inv.progress [Fintype Tid] (h : Inv front nodes s) (room : ∃ p, s.heap p = none)
    (running : (s.call t).atRest = false) (awake : (s.call t).isBlocked = false) :
    ∃ l s', ThreadSafeQueue.next s l = some s' ∧ l.isInvoke = false ∧ l.isSpurious = false := by
  have steps : (∃ u s', ThreadSafeQueue.advance s u = some s') →
      ∃ l s', ThreadSafeQueue.next s l = some s' ∧ l.isInvoke = false ∧ l.isSpurious = false := by
    rintro ⟨u, s', hs⟩
    exact ⟨.step u, s', hs, rfl, rfl⟩
  cases hc : s.call t with
  | rest | pushReturn | popReturn =>
    rw [hc] at running
    cases running
  | blocked =>
    rw [hc] at awake
    cases awake
  | undefined =>
    have fact := h.facts t
    rw [hc] at fact
    exact fact.elim
  | pushAlloc data =>
    obtain ⟨p, free⟩ := room
    refine ⟨.alloc t p, (s.setNode p (some .fresh)).setCall t (.pushLock data p), ?_, rfl, rfl⟩
    simp only [ThreadSafeQueue.next, hc, free, Option.isSome_none, Bool.false_eq_true, if_false]
  | pushNotify =>
    by_cases sleeper : ∃ u, (s.call u).isBlocked = true
    · obtain ⟨u, asleep⟩ := sleeper
      obtain ⟨pop, hu⟩ : ∃ pop, s.call u = .blocked pop := by
        cases hu : s.call u with
        | blocked pop => exact ⟨pop, rfl⟩
        | _ =>
          rw [hu] at asleep
          cases asleep
      refine ⟨.notify t (some u), (s.setCall t .pushReturn).setCall u (.woken pop), ?_, rfl, rfl⟩
      simp only [ThreadSafeQueue.next, notify, hc, hu]
    · have nobody : ∀ u, (s.call u).isBlocked = false := fun u =>
        Bool.eq_false_iff.mpr fun asleep => sleeper ⟨u, asleep⟩
      refine ⟨.notify t none, s.setCall t .pushReturn, ?_, rfl, rfl⟩
      simp only [ThreadSafeQueue.next, notify, hc]
      exact if_pos nobody
  | pushLock | lockTail =>
    rcases h.tail_progress with free | moving
    · refine steps ⟨t, ?_⟩
      simp only [ThreadSafeQueue.advance, hc, free]
      exact ⟨_, rfl⟩
    · exact steps moving
  | lockHead | woken =>
    rcases h.head_progress with free | moving
    · refine steps ⟨t, ?_⟩
      simp only [ThreadSafeQueue.advance, hc, free]
      exact ⟨_, rfl⟩
    · exact steps moving
  | pushData | pushNext | copy | takeHead | relink | finish =>
    refine steps ⟨t, ?_⟩
    simp only [ThreadSafeQueue.advance, hc]
    split <;> exact ⟨_, rfl⟩
  | pushTail | readTail | refuse | block =>
    refine steps ⟨t, ?_⟩
    simp only [ThreadSafeQueue.advance, hc]
    exact ⟨_, rfl⟩

/-! ### Runs -/

variable [Fintype Tid] {l : Label Tid T}

/-- A call costs its own steps, and a push the way of the call it wakes. -/
theorem next_work (hs : next s l = some s') :
    ∑ u, (s'.call u).work + 1 ≤
      ∑ u, (s.call u).work + (14 * l.isInvoke.toNat + 8 * l.isSpurious.toNat) := by
  cases next_step hs with
  | @invoke t rest op =>
    have moved := sum_update Call.work s.call t op.invoke
    have start : op.invoke.work ≤ 13 := by
      cases op with
      | push data => exact Nat.le_refl 13
      | pop kind => exact (by decide : 7 ≤ 13)
    simp only [State.setCall, Label.isInvoke, Label.isSpurious, Bool.toNat_true, Bool.toNat_false]
    omega
  | @alloc t p data hc free =>
    have moved := sum_update Call.work s.call t (.pushLock data p)
    rw [hc] at moved
    change _ + 13 = _ + 12 at moved
    simp only [State.setCall, State.setNode, Label.isInvoke, Label.isSpurious, Bool.toNat_false]
    omega
  | @notifyOne t u pop hc hu =>
    have other : u ≠ t := fun same => by
      rw [same, hc] at hu
      cases hu
    have returned := sum_update Call.work s.call t .pushReturn
    have woken := sum_update Call.work (Function.update s.call t .pushReturn) u (.woken pop)
    rw [hc] at returned
    rw [Function.update_of_ne other, hu] at woken
    change _ + 8 = _ + 0 at returned
    change _ + 0 = _ + 7 at woken
    simp only [State.setCall, Label.isInvoke, Label.isSpurious, Bool.toNat_false]
    omega
  | @notifyNobody t hc nobody =>
    have moved := sum_update Call.work s.call t .pushReturn
    rw [hc] at moved
    change _ + 8 = _ + 0 at moved
    simp only [State.setCall, Label.isInvoke, Label.isSpurious, Bool.toNat_false]
    omega
  | @spurious t pop hc =>
    have moved := sum_update Call.work s.call t (.woken pop)
    rw [hc] at moved
    change _ + 0 = _ + 7 at moved
    simp only [State.setCall, Label.isInvoke, Label.isSpurious, Bool.toNat_false, Bool.toNat_true]
    omega
  | @step t s' moved =>
    have less := advance_work moved
    have total := sum_update Call.work s.call t (s'.call t)
    rw [← advance_call moved] at total
    simp only [Label.isInvoke, Label.isSpurious, Bool.toNat_false]
    omega

omit [Fintype Tid] in
theorem advance_pushed (hs : advance s t = some s') : s.pushed <+: s'.pushed := by
  unfold advance at hs
  split at hs
  all_goals try split at hs
  all_goals try cases hs
  all_goals first
    | exact List.prefix_rfl
    | exact List.prefix_append _ _

/-- What was pushed stays pushed. -/
theorem next_pushed (hs : next s l = some s') : s.pushed <+: s'.pushed := by
  cases next_step hs with
  | step moved => exact advance_pushed moved
  | _ => exact List.prefix_rfl

/-- The allocator never runs out of addresses. -/
theorem reach_room (reached : (machine Tid T).Reach s) : ∃ p, s.heap p = none := by
  have bounded : ∃ n : ℕ, ∀ a : ℕ, n ≤ a → s.heap a = none := by
    refine reached.invariant (P := fun s => ∃ n : ℕ, ∀ a : ℕ, n ≤ a → s.heap a = none) _ ?_ ?_
    · refine ⟨1, fun a ha => ?_⟩
      have other : a ≠ 0 := Nat.ne_of_gt ha
      simp [machine, Function.update_of_ne other]
    · rintro s l s' ⟨n, free⟩ - hs
      cases next_step hs with
      | invoke | notifyOne | notifyNobody | spurious => exact ⟨n, free⟩
      | @alloc t p =>
        refine ⟨n + (p + 1), fun a ha => ?_⟩
        have other : p < a := Nat.le_trans (Nat.le_add_left ..) ha
        exact (Function.update_of_ne (Nat.ne_of_gt other) _ _).trans
          (free a (Nat.le_trans (Nat.le_add_right ..) ha))
      | step moved => exact ⟨n, fun a ha => advance_heap moved (free a ha)⟩
  obtain ⟨n, free⟩ := bounded
  exact ⟨n, free n (Nat.le_refl n)⟩

theorem reachBy_covered (reached : (machine Tid T).ReachBy Heard s) :
    (∃ front nodes, Inv front nodes s) ∧ Covered s := by
  refine reached.invariant (P := fun s => (∃ front nodes, Inv front nodes s) ∧ Covered s) _ ?_ ?_
  · refine ⟨⟨_, _, start_inv Tid T⟩, ?_⟩
    rintro ⟨u, hu⟩
    cases hu
  · rintro s l s' ⟨⟨front, nodes, h⟩, cov⟩ heard hs
    exact ⟨h.next hs, cov.next h heard hs⟩

/-- Nothing can happen but new calls and spurious wake-ups. -/
def Quiet (s : State Tid T) : Prop :=
  ∀ l s', next s l = some s' → l.isInvoke = true ∨ l.isSpurious = true

theorem quiet_of_settled (settled : ∀ t, (s.call t).atRest = true ∨ (s.call t).isBlocked = true) :
    Quiet s := by
  have busy : ∀ {t c}, s.call t = c → c.atRest = false → c.isBlocked = false → False := by
    rintro t c rfl running awake
    rcases settled t with rest | asleep
    · exact Bool.false_ne_true (running.symm.trans rest)
    · exact Bool.false_ne_true (awake.symm.trans asleep)
  intro l s' hs
  cases next_step hs with
  | invoke => exact Or.inl rfl
  | spurious => exact Or.inr rfl
  | alloc hc | notifyOne hc | notifyNobody hc => exact (busy hc rfl rfl).elim
  | @step t s' moved =>
    rcases settled t with rest | asleep
    · cases (advance_atRest rest).symm.trans moved
    · cases hc : s.call t with
      | blocked pop =>
        simp only [advance, hc] at moved
        cases moved
      | _ =>
        rw [hc] at asleep
        cases asleep

/-- The calls that run can be run to their end, or until they wait for data. -/
theorem settle (reached : (machine Tid T).Reach s) :
    ∃ ls s', (machine Tid T).exec s ls = some s' ∧ (∀ l ∈ ls, l.isInvoke = false) ∧
      ∀ t, (s'.call t).atRest = true ∨ (s'.call t).isBlocked = true := by
  induction left : ∑ u, (s.call u).work using Nat.strong_induction_on generalizing s with
  | h k ih =>
    by_cases settled : ∀ t, (s.call t).atRest = true ∨ (s.call t).isBlocked = true
    · exact ⟨[], s, rfl, List.forall_mem_nil _, settled⟩
    · obtain ⟨t, busy⟩ := not_forall.mp settled
      obtain ⟨running, awake⟩ := not_or.mp busy
      obtain ⟨front, nodes, h⟩ := reach_inv reached
      obtain ⟨l, r, hs, noCall, noWake⟩ := h.progress (reach_room reached)
        (Bool.eq_false_iff.mpr running) (Bool.eq_false_iff.mpr awake)
      have paid := next_work hs
      rw [noCall, noWake, Bool.toNat_false] at paid
      obtain ⟨ls, s', run, inside, settled'⟩ := ih _ (by omega) (reached.next trivial hs) rfl
      refine ⟨l :: ls, s', ((machine Tid T).exec_step hs ls).trans run, ?_, settled'⟩
      intro l' hl
      rcases List.mem_cons.mp hl with rfl | later
      · exact noCall
      · exact inside l' later

omit [Fintype Tid] in
/-- Where no call is inside a critical section both mutexes are free. -/
theorem Inv.mutexes_free (h : Inv front nodes s)
    (outside : ∀ u, (s.call u).holdsHead = false ∧ (s.call u).holdsTail = false) :
    s.headMutex = none ∧ s.tailMutex = none := by
  constructor
  · cases owned : s.headMutex with
    | none => rfl
    | some u => exact (Bool.false_ne_true ((outside u).1.symm.trans ((h.headLock u).mp owned))).elim
  · cases owned : s.tailMutex with
    | none => rfl
    | some u => exact (Bool.false_ne_true ((outside u).2.symm.trans ((h.tailLock u).mp owned))).elim

/-- A `try_pop(T&)` that nobody disturbs takes the first element. -/
theorem Inv.pop_alone (h : Inv front nodes s) (hc : s.call t = .lockHead .tryPopInto)
    (others : ∀ u, u ≠ t → (s.call u).atRest = true) (waiting : nodes ≠ []) :
    ∃ s' value, (machine Tid T).exec s (List.replicate 7 (.step t)) = some s' ∧
      s'.call = Function.update s.call t (.popReturn true (some value)) ∧
      s'.pushed = s.pushed ∧ s'.popped = s.popped ++ [(t, some value)] := by
  obtain ⟨e, rest, rfl⟩ := List.exists_cons_of_ne_nil waiting
  obtain ⟨c, -, first, node, -⟩ := h.first (e := e) rfl
  have outside : ∀ u, (s.call u).holdsHead = false ∧ (s.call u).holdsTail = false := by
    intro u
    by_cases here : u = t
    · rw [here, hc]
      exact ⟨rfl, rfl⟩
    · exact Call.outside (others u here)
  obtain ⟨headFree, tailFree⟩ := h.mutexes_free outside
  have head := h.head headFree
  have nonempty : front ≠ s.tail := fun same =>
    List.cons_ne_nil _ _ ((h.chain.eq_iff h.dummy).mp same)
  simp [Machine.exec, machine, ThreadSafeQueue.next, ThreadSafeQueue.advance, State.setCall, State.setNode, hc, headFree, tailFree, head,
    nonempty, node, Pop.into, List.replicate]

/-- A run has at most fourteen steps for each call and eight for each spurious wake-up.
Where only these are left, every call has returned or waits for data, and if every
notification of the run was heard, a call that waits finds the queue empty. -/
theorem calls_end (run : (machine Tid T).Run) :
    run.length ≤ 14 * run.count (fun _ => Label.isInvoke) 0 run.length +
      8 * run.count (fun _ => Label.isSpurious) 0 run.length ∧
    (∀ i, i ≤ run.length → (Quiet (run.state i) ↔ ∀ t,
      ((run.state i).call t).atRest = true ∨ ((run.state i).call t).isBlocked = true)) ∧
    (run.Meets Heard → ∀ i, i ≤ run.length → Quiet (run.state i) →
      (∃ t, ((run.state i).call t).isBlocked = true) →
        (run.state i).head = some (run.state i).tail) := by
  have settled : ∀ i, i ≤ run.length → Quiet (run.state i) → ∀ t,
      ((run.state i).call t).atRest = true ∨ ((run.state i).call t).isBlocked = true := by
    intro i hi quiet t
    by_contra busy
    obtain ⟨running, awake⟩ := not_or.mp busy
    obtain ⟨front, nodes, h⟩ := reach_inv (run.reach hi)
    obtain ⟨l, s', hs, noCall, noWake⟩ := h.progress (reach_room (run.reach hi))
      (Bool.eq_false_iff.mpr running) (Bool.eq_false_iff.mpr awake)
    rcases quiet l s' hs with call | wake
    · exact Bool.false_ne_true (noCall.symm.trans call)
    · exact Bool.false_ne_true (noWake.symm.trans wake)
  refine ⟨?_, fun i hi => ⟨settled i hi, quiet_of_settled⟩, fun heard i hi quiet sleeper => ?_⟩
  · have paid := run.total_le (fun s => ∑ u, (s.call u).work) (fun _ _ => true.toNat)
      (fun _ l => 14 * l.isInvoke.toNat + 8 * l.isSpurious.toNat)
      (fun s l s' _ hs => next_work hs) (Nat.zero_le _) (Nat.le_refl _)
    have steps : run.total (fun _ _ => true.toNat) 0 run.length = run.length := run.count_all 0 _
    have start : ∑ u, ((run.state 0).call u).work = 0 := by
      rw [run.start]
      exact Finset.sum_eq_zero fun u _ => rfl
    rw [Machine.Run.total_add, Machine.Run.total_mul, Machine.Run.total_mul, steps, start] at paid
    omega
  · have still : ∀ t, ((run.state i).call t).atRest = false →
        ((run.state i).call t).isBlocked = true := fun t running =>
      (settled i hi quiet t).resolve_left (Bool.eq_false_iff.mp running)
    obtain ⟨⟨front, nodes, h⟩, cov⟩ := reachBy_covered (run.reachBy heard hi)
    obtain ⟨t, asleep⟩ := sleeper
    have waiting : ((run.state i).call t).waiting = true := by
      cases hc : (run.state i).call t with
      | blocked => rfl
      | _ =>
        rw [hc] at asleep
        cases asleep
    have none : census Call.coming (run.state i).call = 0 :=
      (census_eq_zero _).mpr fun u => (Call.settled (still u)).2
    have covered := cov ⟨t, waiting⟩
    have len := h.length
    have empty : nodes = [] := List.length_eq_zero_iff.mp (by omega)
    rw [h.head_ptr fun u => (Call.settled (still u)).1]
    exact congrArg some ((h.chain.eq_iff h.dummy).mpr empty)

/-- Thread 1 takes the element of thread 0 and goes to sleep on its second call. -/
def takesOne : List (Label (Fin 2) ℕ) :=
  woken ++ [.step 1, .step 1, .step 1, .step 1, .step 1, .step 1, .invoke 1 (.pop .waitAndPop),
    .step 1, .step 1, .step 1, .step 1]

def takesOneRun : (machine (Fin 2) ℕ).Run := .ofSchedule _ (.step 0) takesOne (by decide +kernel)

theorem calls_end_takesOne : takesOneRun.length ≤ 14 * 3 + 8 * 0 ∧
    (takesOneRun.state 23).head = some (takesOneRun.state 23).tail := by
  obtain ⟨all, -, waiting⟩ := calls_end takesOneRun
  have calls : takesOneRun.count (fun _ => Label.isInvoke) 0 23 = 3 := by decide +kernel
  have wakes : takesOneRun.count (fun _ => Label.isSpurious) 0 23 = 0 := by decide +kernel
  change _ ≤ 14 * takesOneRun.count _ 0 23 + 8 * takesOneRun.count _ 0 23 at all
  rw [calls, wakes] at all
  refine ⟨all, waiting ?_ 23 (by decide) ?_ ⟨1, rfl⟩⟩
  · have all : ∀ l ∈ takesOne, ∀ s, Heard s l := by simp [takesOne, woken, Heard]
    intro i hi
    refine all _ ?_ _
    change takesOne.getD i _ ∈ takesOne
    rw [List.getD_eq_getElem?_getD, List.getElem?_eq_getElem hi]
    exact List.getElem_mem hi
  · exact quiet_of_settled (Fin.forall_fin_two.mpr ⟨Or.inl rfl, Or.inr rfl⟩)

end Steps

end ThreadSafeQueue
