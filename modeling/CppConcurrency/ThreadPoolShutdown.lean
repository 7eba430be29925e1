import CppConcurrency.ThreadPool

/-!
# What the workers of a `ThreadPool` still use

The members are destroyed in the order `threads_num`, `work_queue`, `done`, `joiner`,
`threads`, and only the destructor of `joiner` waits for the workers. Until then they
are free to read `done` and to work on the queue. Where no call of a worker is running when
the queue goes, no task submits behind that, and no worker is in its loop when the flag goes,
no worker touches a dead member: `done` was set before, so no worker turns to the queue any
more but from inside a task.
-/

namespace ThreadPool

open Machines

universe u v

variable {n : ℕ} {C : Type v} {T : Type u} [DecidableEq C] [Fintype C]

/-- The step is one of worker `w` and uses the member: a read of `done`, or a step of a
call on `work_queue`, which the read that gives false makes. -/
def Uses (s : State n C T) (l : Label n C T) (w : Fin n) (m : Member) : Prop :=
  match l with
  | .work v => v = w ∧ s.worker w = .readDone ∧ (m = .done ∨ m = .workQueue ∧ s.done = false)
  | .submit t _ => t = .inl w ∧ m = .workQueue
  | .queue l => l.thread = .inl w ∧ m = .workQueue
  | _ => False

/-- Where the destruction of the queue begins, every call of a worker on it has returned, and
where that of the flag begins, every worker is out of its loop. Behind the beginning of the
first no task submits. -/
def Settled (s : State n C T) (l : Label n C T) : Prop :=
  (∀ m members, l = .owner → s.owner = .destroy (m :: members) →
    (m = .workQueue → ∀ w, (s.queue.call (.inl w)).atRest = true) ∧
    (m = .done → ∀ w, (s.worker w).isOut = true)) ∧
  ∀ w task, l = .submit (.inl w) task → s.destroyed .workQueue = false

/-- No worker is even inside `try_pop` or a task where the destruction of the queue begins. -/
def Calm (s : State n C T) (l : Label n C T) : Prop :=
  ∀ m members, l = .owner → s.owner = .destroy (m :: members) →
    (m = .workQueue → ∀ w, (s.worker w).isOff = true) ∧ (m = .done → ∀ w, (s.worker w).isOut = true)

/-- The constructor is done, well or badly, and the pool is not in use any more. -/
def Owner.tearsDown : Owner → Bool
  | .spawn _ | .use => false
  | _ => true

structure Inv (s : State n C T) : Prop where
  off : ∀ w, (s.worker w).isOff = true → (s.queue.call (.inl w)).atRest = true
  absent : ∀ i, s.owner = .spawn i → ∀ w : Fin n, i ≤ w.val → s.worker w = .absent
  tearsDown : ∀ m, s.destroyed m = true → s.owner.tearsDown = true
  stopped : s.owner.tearsDown = true → s.done = true
  workQueue : s.destroyed .workQueue = true → ∀ w, (s.queue.call (.inl w)).atRest = true
  done : s.destroyed .done = true → ∀ w, (s.worker w).isOut = true

section

variable {s s' : State n C T}

theorem start_inv : Inv (machine n C T).start where
  off _ _ := rfl
  absent _ _ _ _ := rfl
  tearsDown _ wrong := by cases wrong
  stopped wrong := by cases wrong
  workQueue wrong := by cases wrong
  done wrong := by cases wrong

/-- A step of the queue by one thread leaves the calls of the other workers at rest. -/
theorem Inv.queue (h : Inv s) {l : ThreadSafeQueue.Label (Thread n C) T}
    {q : ThreadSafeQueue.State (Thread n C) T} (hs : ThreadSafeQueue.next s.queue l = some q)
    (busy : ∀ w, l.thread = .inl w →
      (s.worker w).isOff = false ∧ s.destroyed .workQueue = false) : Inv { s with queue := q } where
  off w idle := by
    have rest := h.off w idle
    have other : Sum.inl w ≠ l.thread := by
      intro same
      have := (busy w same.symm).1
      rw [idle] at this
      cases this
    rw [ThreadSafeQueue.next_other hs other rest]
    exact rest
  absent := h.absent
  tearsDown := h.tearsDown
  stopped := h.stopped
  workQueue dead w := by
    have rest := h.workQueue dead w
    have other : Sum.inl w ≠ l.thread := by
      intro same
      have := (busy w same.symm).2
      rw [dead] at this
      cases this
    rw [ThreadSafeQueue.next_other hs other rest]
    exact rest
  done := h.done

omit [DecidableEq C] [Fintype C] in
/-- A worker in its loop moves. -/
theorem Inv.setWorker (h : Inv s) {w : Fin n} {worker : Worker T}
    (inLoop : (s.worker w).isOut = false)
    (off : worker.isOff = true → (s.queue.call (.inl w)).atRest = true) :
    Inv (s.setWorker w worker) where
  off v idle := by
    by_cases same : v = w
    · subst same
      exact off (by simpa [State.setWorker] using idle)
    · exact h.off v (by simpa [State.setWorker, same] using idle)
  absent i spawning v later := by
    have other : v ≠ w := by
      rintro rfl
      rw [h.absent i spawning v later] at inLoop
      cases inLoop
    exact (Function.update_of_ne other _ _).trans (h.absent i spawning v later)
  tearsDown := h.tearsDown
  stopped := h.stopped
  workQueue := h.workQueue
  done dead v := by
    have := h.done dead w
    rw [inLoop] at this
    cases this

omit [DecidableEq C] [Fintype C] in
/-- A worker that reads `done` as false finds every member alive. -/
theorem Inv.goesOn_alive (h : Inv s) (goesOn : s.done = false) (m : Member) :
    s.destroyed m = false := by
  cases dead : s.destroyed m with
  | false => rfl
  | true =>
    rw [h.stopped (h.tearsDown m dead)] at goesOn
    cases goesOn

theorem Inv.workThread (h : Inv s) {w : Fin n} (hs : workThread s w = some s') : Inv s' := by
  cases workThread_step hs with
  | leaves hw =>
    exact h.setWorker (by rw [hw]; rfl) fun _ => h.off w (by rw [hw]; rfl)
  | calls hw goesOn called =>
    have trying : Inv (s.setWorker w .tryPop) :=
      h.setWorker (by rw [hw]; rfl) fun wrong => by cases wrong
    refine trying.queue called fun v same => ?_
    obtain rfl : w = v := Sum.inl.inj same
    exact ⟨by simp [State.setWorker, Worker.isOff], h.goesOn_alive goesOn _⟩
  | obtains hw returned =>
    exact h.setWorker (by rw [hw]; rfl) fun wrong => by cases wrong
  | misses hw returned =>
    exact h.setWorker (by rw [hw]; rfl) fun _ => by rw [returned]; rfl
  | finishes hw rest =>
    have back : Inv (s.setWorker w .readDone) := h.setWorker (by rw [hw]; rfl) fun _ => rest
    exact ⟨back.off, back.absent, back.tearsDown, back.stopped, back.workQueue, back.done⟩
  | yields hw =>
    exact h.setWorker (by rw [hw]; rfl) fun _ => h.off w (by rw [hw]; rfl)

omit [DecidableEq C] [Fintype C] in
/-- Before the end of construction and while the pool is in use, no member is dead. -/
theorem Inv.alive (h : Inv s) (working : s.owner.tearsDown = false) (m : Member) :
    s.destroyed m = false := by
  cases dead : s.destroyed m with
  | false => rfl
  | true =>
    have := h.tearsDown m dead
    rw [working] at this
    cases this

omit [DecidableEq C] [Fintype C] in
theorem Inv.setOwner (h : Inv s) {owner : Owner} (started : ∀ i, owner ≠ .spawn i)
    (same : owner.tearsDown = s.owner.tearsDown) : Inv { s with owner := owner } where
  off := h.off
  absent i wrong := absurd wrong (started i)
  tearsDown m dead := same.trans (h.tearsDown m dead)
  stopped torn := h.stopped (same.symm.trans torn)
  workQueue := h.workQueue
  done := h.done

omit [DecidableEq C] [Fintype C] in
theorem Inv.shutdown (h : Inv s) : Inv (shutdown s) where
  off := h.off
  absent _ wrong := by cases wrong
  tearsDown _ _ := rfl
  stopped _ := rfl
  workQueue := h.workQueue
  done := h.done

omit [DecidableEq C] [Fintype C] in
theorem Inv.spawn (h : Inv s) {ok : Bool} (hs : spawn s ok = some s') : Inv s' := by
  cases spawn_step hs with
  | failed => exact h.shutdown
  | @started i spawning hi =>
    have alive := h.alive (by rw [spawning]; rfl)
    refine {
      off := fun v idle => ?off
      absent := fun j spawning' v later => ?absent
      tearsDown := fun m dead => absurd dead (by simp [State.setWorker, alive m])
      stopped := fun wrong => by cases wrong
      workQueue := fun dead => absurd dead (by simp [State.setWorker, alive])
      done := fun dead => absurd dead (by simp [State.setWorker, alive]) }
    case off =>
      by_cases same : v = ⟨i, hi⟩
      · subst same
        exact h.off _ (by rw [h.absent i spawning _ (Nat.le_refl i)]; rfl)
      · exact h.off v (by simpa [State.setWorker, same] using idle)
    case absent =>
      obtain rfl : i + 1 = j := Owner.spawn.inj spawning'
      have other : v ≠ ⟨i, hi⟩ := by
        rintro rfl
        exact absurd later (Nat.not_succ_le_self i)
      exact (Function.update_of_ne other _ _).trans
        (h.absent i spawning v (Nat.le_of_succ_le later))

omit [DecidableEq C] [Fintype C] in
theorem Inv.advanceOwner (h : Inv s) (settled : Settled s (.owner : Label n C T))
    (hs : advanceOwner s = some s') : Inv s' := by
  cases advanceOwner_step hs with
  | constructed ho | destroyed ho | joins ho | joined ho =>
    exact h.setOwner (fun _ => Owner.noConfusion) (by rw [ho]; rfl)
  | shutdown => exact h.shutdown
  | @destroys m members ho =>
    have later : Inv { s with
        owner := if m = .joiner then .join 0 members else .destroy members } := by
      refine h.setOwner (fun i => ?_) ?_
      · split <;> exact Owner.noConfusion
      · rw [ho]
        split <;> rfl
    obtain ⟨queue, flag⟩ := settled.1 m members rfl ho
    refine { later with
      tearsDown := fun _ _ => ?torn
      workQueue := fun dead => ?queue
      done := fun dead => ?flag }
    case torn =>
      dsimp only
      split <;> rfl
    case queue =>
      by_cases here : Member.workQueue = m
      · exact queue here.symm
      · exact h.workQueue (by simpa [here] using dead)
    case flag =>
      by_cases here : Member.done = m
      · exact flag here.symm
      · exact h.done (by simpa [here] using dead)

omit [DecidableEq C] [Fintype C] in
theorem maySubmit_inl {w : Fin n} (may : maySubmit s (.inl w) = true) :
    (s.worker w).isOff = false := by
  cases hw : s.worker w with
  | task => rfl
  | _ =>
    simp only [maySubmit, hw] at may
    cases may

theorem Inv.submit (h : Inv s) {t : Thread n C} {task : T}
    (settled : Settled s (.submit t task)) (hs : submit s t task = some s') : Inv s' := by
  obtain ⟨may, hs⟩ := Option.ite_none_right_eq_some.mp hs
  obtain ⟨q, called, rfl⟩ := Option.map_eq_some_iff.mp hs
  refine h.queue called fun w same => ?_
  obtain rfl : t = .inl w := same
  exact ⟨maySubmit_inl may, settled.2 w task rfl⟩

/-- A call that is at rest takes no step but an invocation. -/
theorem next_queue_running {l : ThreadSafeQueue.Label (Thread n C) T} {w : Fin n}
    (hs : (next s (.queue l)).isSome = true) (thread : l.thread = .inl w) :
    (s.queue.call (.inl w)).atRest = false := by
  cases rest : (s.queue.call (.inl w)).atRest with
  | false => rfl
  | true =>
    rw [← thread] at rest
    simp only [ThreadPool.next] at hs
    split at hs
    · cases hs
    · rename_i inside
      rw [ThreadSafeQueue.next_atRest rest (Bool.not_eq_true _ ▸ inside)] at hs
      cases hs

/-- Every step keeps the invariant, the owner's and a task's under the condition. -/
theorem Inv.next (h : Inv s) {l : Label n C T} (settled : Settled s l) (hs : next s l = some s') :
    Inv s' := by
  cases l with
  | spawn ok => exact h.spawn hs
  | owner => exact h.advanceOwner settled hs
  | work w => exact h.workThread hs
  | submit t task => exact h.submit settled hs
  | queue l =>
    have enabled := Option.isSome_of_eq_some hs
    obtain ⟨-, hs⟩ := Option.ite_none_left_eq_some.mp hs
    obtain ⟨q, moved, rfl⟩ := Option.map_eq_some_iff.mp hs
    refine h.queue moved fun w same => ?_
    have running := next_queue_running enabled same
    constructor
    · cases idle : (s.worker w).isOff with
      | false => rfl
      | true =>
        rw [h.off w idle] at running
        cases running
    · cases dead : s.destroyed .workQueue with
      | false => rfl
      | true =>
        rw [h.workQueue dead w] at running
        cases running

theorem reachBy_inv (reached : (machine n C T).ReachBy Settled s) : Inv s :=
  reached.invariant _ start_inv fun _ _ _ h settled hs => h.next settled hs

end

/-- When the queue dies with no call of a worker running, no task submits behind that, and the
flag dies with no worker in its loop, no worker uses a member that is being destroyed. -/
theorem members_outlive_workers {s : State n C T} (reached : (machine n C T).ReachBy Settled s)
    {l : Label n C T} (settled : Settled s l) (enabled : (next s l).isSome = true) {w : Fin n}
    {m : Member} (uses : Uses s l w m) : s.destroyed m = false := by
  have h := reachBy_inv reached
  cases l with
  | spawn | owner => cases uses
  | work v =>
    obtain ⟨-, reading, rfl | ⟨rfl, goesOn⟩⟩ := uses
    · cases dead : s.destroyed .done with
      | false => rfl
      | true =>
        have out := h.done dead w
        rw [reading] at out
        cases out
    · exact h.goesOn_alive goesOn _
  | submit t task =>
    obtain ⟨rfl, rfl⟩ := uses
    exact settled.2 w task rfl
  | queue l =>
    obtain ⟨thread, rfl⟩ := uses
    have running := next_queue_running enabled thread
    cases dead : s.destroyed .workQueue with
    | false => rfl
    | true =>
      rw [h.workQueue dead w] at running
      cases running

/-- The queue dies while the only worker has come to the end of a `try_pop`, and the worker
goes on to read `done`. -/
def lateReturn (w : Fin 1) : List (Label 1 (Fin 0) ℕ) :=
  [.spawn true, .owner, .work w] ++ .replicate 4 (.queue (.step (.inl w))) ++
    .replicate 3 .owner ++ [.work w, .work w]

def lateRun : (machine 1 (Fin 0) ℕ).Run :=
  .ofSchedule _ .owner (lateReturn (Fin.last 0)) (by decide)

theorem members_outlive_workers_late : (lateRun.state 9).worker (Fin.last 0) = .tryPop ∧
    (lateRun.state 12).destroyed .workQueue = true ∧ (lateRun.state 12).destroyed .done = false := by
  have steps : ∀ i, i < 12 → (match lateRun.label i, (lateRun.state i).owner with
      | .owner, .destroy (.workQueue :: _) =>
        ((lateRun.state i).queue.call (.inl (Fin.last 0))).atRest
      | .owner, .destroy (.done :: _) | .submit _ _, _ => false
      | _, _ => true) = true := by decide
  have settled : lateRun.Meets Settled := by
    intro i hi
    have step := steps i hi
    refine ⟨fun m members called owner => ⟨?_, ?_⟩, fun w task called => ?_⟩
    · rintro rfl w
      obtain rfl : w = Fin.last 0 := Fin.ext (by omega)
      rwa [called, owner] at step
    · rintro rfl
      rw [called, owner] at step
      cases step
    · rw [called] at step
      cases step
  have last : Settled (lateRun.state 12) (.work (Fin.last 0)) :=
    ⟨fun _ _ wrong => (by cases wrong), fun _ _ wrong => (by cases wrong)⟩
  refine ⟨by decide, by decide, ?_⟩
  exact members_outlive_workers (lateRun.reachBy settled (Nat.le_refl 12)) last (by decide)
    ⟨rfl, by decide, Or.inl rfl⟩

/-- The only worker has read `done` as false and calls `try_pop`; the destructor sets
`done` and destroys the queue. -/
def earlyShutdown : List (Label 1 (Fin 0) ℕ) := [.spawn true, .owner, .work 0, .owner, .owner, .owner]

/-- The same while the constructor fails to start its second thread. -/
def failedStart : List (Label 2 (Fin 0) ℕ) := [.spawn true, .work 0, .spawn false, .owner, .owner]

/-- The next step of the worker locks a mutex of the destroyed queue. -/
theorem queue_dies_in_use :
    (∃ s, (machine 1 (Fin 0) ℕ).Reach s ∧ (next s (.queue (.step (.inl 0)))).isSome = true ∧
      Uses s (.queue (.step (.inl 0))) 0 .workQueue ∧ s.destroyed .workQueue = true) ∧
    ∃ s, (machine 2 (Fin 0) ℕ).Reach s ∧ (next s (.queue (.step (.inl 0)))).isSome = true ∧
      Uses s (.queue (.step (.inl 0))) 0 .workQueue ∧ s.destroyed .workQueue = true := by
  obtain ⟨s, run⟩ := Option.isSome_iff_exists.mp (show ((machine 1 (Fin 0) ℕ).exec
    (machine 1 (Fin 0) ℕ).start earlyShutdown).isSome = true by decide)
  obtain ⟨t, run'⟩ := Option.isSome_iff_exists.mp (show ((machine 2 (Fin 0) ℕ).exec
    (machine 2 (Fin 0) ℕ).start failedStart).isSome = true by decide)
  have early : ((machine 1 (Fin 0) ℕ).exec (machine 1 (Fin 0) ℕ).start earlyShutdown).map
      (fun s => ((next s (.queue (.step (.inl 0)))).isSome, s.destroyed .workQueue)) =
        some (true, true) := rfl
  have failed : ((machine 2 (Fin 0) ℕ).exec (machine 2 (Fin 0) ℕ).start failedStart).map
      (fun s => ((next s (.queue (.step (.inl 0)))).isSome, s.destroyed .workQueue)) =
        some (true, true) := rfl
  simp only [run, Option.map_some, Option.some.injEq, Prod.mk.injEq] at early
  simp only [run', Option.map_some, Option.some.injEq, Prod.mk.injEq] at failed
  exact ⟨⟨s, Machine.reach_of_exec _ run, early.1, ⟨rfl, rfl⟩, early.2⟩,
    ⟨t, Machine.reach_of_exec _ run', failed.1, ⟨rfl, rfl⟩, failed.2⟩⟩

end ThreadPool
