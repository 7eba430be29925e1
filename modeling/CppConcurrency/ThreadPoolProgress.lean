import CppConcurrency.ThreadPoolShutdown
import CppConcurrency.ThreadPoolTasks
import CppConcurrency.ThreadSafeQueueProgress

/-!
# `ThreadPool`: with a worker every task can be run, and the destructor can end

Workers poll, so a run of the pool has no last step of its own. But the calls that are on
their way can always end, the workers can come home to the head of their loop, and from
there one of them takes the first task without being disturbed. A pool that
`hardware_concurrency()` gave no worker never runs a task. Once `done` is set, a worker that
is home leaves its loop, and the owner, who waits for nobody else, can destroy everything.
-/

namespace ThreadPool

open Machines ThreadSafeQueue LinkedChains Threads

universe u v

variable {n : ℕ} {C : Type v} {T : Type u}

/-- A step inside a call of the queue, or of a worker. -/
def Label.isInside : Label n C T → Bool
  | .work _ | .queue _ => true
  | _ => false

/-- The steps of a worker until it is at the head of its loop, when no call has to run. -/
def Worker.away : Worker T → ℕ
  | .tryPop => 3
  | .task _ => 2
  | .yield => 1
  | .absent | .readDone | .exited => 0

/-- No call is running, and every worker in its loop is at its head. -/
structure Home (s : State n C T) : Prop where
  rest : ∀ t, (s.queue.call t).atRest = true
  home : ∀ w, (s.worker w).away = 0

variable [DecidableEq C] [Fintype C] {s s' : State n C T} {l : Label n C T}

omit [DecidableEq C] [Fintype C] in
theorem Label.isInside.calm (inside : l.isInside = true) (s : State n C T) : Calm s l := by
  rintro m members rfl -
  cases inside

/-- The workers that were started, and when a worker may leave. -/
structure Staff (s : State n C T) : Prop where
  threads : s.threads ≤ n
  started : ∀ w : Fin n, w.val < s.threads → s.worker w ≠ .absent
  exited : ∀ w, s.worker w = .exited → s.done = true
  spawning : ∀ i, s.owner = .spawn i → s.threads = i ∧ s.done = false
  inUse : s.owner = .use → s.threads = n ∧ s.done = false
  stopped : s.owner.tearsDown = true → s.done = true

theorem start_staff : Staff (machine n C T).start where
  threads := Nat.zero_le n
  started w hw := absurd hw (Nat.not_lt_zero _)
  exited w wrong := by cases wrong
  spawning i same := ⟨Owner.spawn.inj same, rfl⟩
  inUse wrong := by cases wrong
  stopped wrong := by cases wrong

/-- A step inside moves neither the owner nor the flag, and starts nobody. -/
theorem inside_keeps (inside : l.isInside = true) (hs : next s l = some s') :
    s'.owner = s.owner ∧ s'.done = s.done ∧ s'.threads = s.threads := by
  cases l with
  | spawn | owner | submit => cases inside
  | work w => cases workThread_step hs <;> exact ⟨rfl, rfl, rfl⟩
  | queue l =>
    obtain ⟨-, hs⟩ := Option.ite_none_left_eq_some.mp hs
    obtain ⟨q, -, rfl⟩ := Option.map_eq_some_iff.mp hs
    exact ⟨rfl, rfl, rfl⟩

theorem exec_inside_keeps {ls : List (Label n C T)} (inside : ∀ l ∈ ls, l.isInside = true)
    (run : (machine n C T).exec s ls = some s') :
    s'.owner = s.owner ∧ s'.done = s.done ∧ s'.threads = s.threads := by
  induction ls generalizing s with
  | nil => exact Option.some.inj run ▸ ⟨rfl, rfl, rfl⟩
  | cons l rest ih =>
    obtain ⟨r, hs, later⟩ := Option.bind_eq_some_iff.mp run
    obtain ⟨owner, done, threads⟩ := inside_keeps (inside l List.mem_cons_self) hs
    obtain ⟨owner', done', threads'⟩ := ih (fun l hl => inside l (List.mem_cons_of_mem _ hl)) later
    exact ⟨owner'.trans owner, done'.trans done, threads'.trans threads⟩

omit [DecidableEq C] [Fintype C] in
theorem Staff.keep (h : Staff s) (threads : s'.threads = s.threads) (worker : s'.worker = s.worker)
    (owner : s'.owner = s.owner) (done : s'.done = s.done) : Staff s' := by
  obtain ⟨bound, started, exited, spawning, inUse, stopped⟩ := h
  rw [← threads] at bound started spawning inUse
  rw [← worker] at started exited
  rw [← owner] at spawning inUse stopped
  rw [← done] at exited spawning inUse stopped
  exact ⟨bound, started, exited, spawning, inUse, stopped⟩

omit [DecidableEq C] [Fintype C] in
/-- A worker that is in its loop moves. -/
theorem Staff.setWorker (h : Staff s) {w : Fin n} {worker : Worker T} (born : worker ≠ .absent)
    (leaves : worker = .exited → s.done = true) : Staff (s.setWorker w worker) where
  threads := h.threads
  started v hv := by
    by_cases same : v = w
    · subst same
      simpa [State.setWorker] using born
    · simpa [State.setWorker, same] using h.started v hv
  exited v hv := by
    by_cases same : v = w
    · subst same
      exact leaves (by simpa [State.setWorker] using hv)
    · exact h.exited v (by simpa [State.setWorker, same] using hv)
  spawning := h.spawning
  inUse := h.inUse
  stopped := h.stopped

/-- A worker leaves its loop when it has read `done` as true. -/
theorem leaves_when_done {w : Fin n} (hs : workThread s w = some s') (gone : s'.worker w = .exited) :
    s.done = true := by
  cases workThread_step hs with
  | leaves reading =>
    simp only [workThread, reading] at hs
    split at hs
    · assumption
    · obtain ⟨q, -, same⟩ := Option.map_eq_some_iff.mp hs
      have := congrArg (fun s => s.worker w) same
      simp [State.setWorker] at this
  | _ =>
    simp [State.setWorker] at gone

theorem Staff.workThread (h : Staff s) {w : Fin n} (hs : workThread s w = some s') : Staff s' := by
  have moves (worker : Worker T) (born : worker ≠ .absent) (goesOn : worker ≠ .exited) :
      Staff (s.setWorker w worker) := h.setWorker born fun wrong => absurd wrong goesOn
  cases workThread_step hs with
  | leaves hw =>
    have done := leaves_when_done hs (Function.update_self ..)
    exact h.setWorker (fun wrong => by cases wrong) fun _ => done
  | calls =>
    have moved := moves .tryPop (fun wrong => by cases wrong) fun wrong => by cases wrong
    exact moved.keep rfl rfl rfl rfl
  | finishes =>
    have moved := moves .readDone (fun wrong => by cases wrong) fun wrong => by cases wrong
    exact moved.keep rfl rfl rfl rfl
  | obtains | misses | yields =>
    exact moves _ (fun wrong => by cases wrong) (fun wrong => by cases wrong)

omit [DecidableEq C] [Fintype C] in
theorem Staff.shutdown (h : Staff s) : Staff (shutdown s) where
  threads := h.threads
  started := h.started
  exited _ _ := rfl
  spawning i wrong := by cases wrong
  inUse wrong := by cases wrong
  stopped _ := rfl

omit [DecidableEq C] [Fintype C] in
theorem Staff.spawn (h : Staff s) {ok : Bool} (hs : spawn s ok = some s') : Staff s' := by
  cases spawn_step hs with
  | failed => exact h.shutdown
  | @started i ho hi =>
    obtain ⟨threads, running⟩ := h.spawning i ho
    refine {
      threads := hi
      started := fun w hw => ?begun
      exited := fun w hw => ?exited
      spawning := fun j same => ⟨Owner.spawn.inj same, running⟩
      inUse := fun wrong => by cases wrong
      stopped := fun wrong => by cases wrong }
    case begun =>
      by_cases same : w = ⟨i, hi⟩
      · subst same
        simp [State.setWorker]
      · have other : w.val ≠ i := fun e => same (Fin.ext e)
        have earlier : w.val < s.threads := by
          change w.val < i + 1 at hw
          omega
        simpa [State.setWorker, same] using h.started w earlier
    case exited =>
      by_cases same : w = ⟨i, hi⟩
      · subst same
        simp [State.setWorker] at hw
      · exact h.exited w (by simpa [State.setWorker, same] using hw)

omit [DecidableEq C] [Fintype C] in
theorem Staff.advanceOwner (h : Staff s) (hs : advanceOwner s = some s') : Staff s' := by
  have torn (before : s.owner.tearsDown = true) (owner : Owner) (after : owner.tearsDown = true)
      (destroyed : Member → Bool) : Staff { s with destroyed := destroyed, owner := owner } :=
    { threads := h.threads
      started := h.started
      exited := h.exited
      spawning := fun i (wrong : owner = _) => by
        rw [wrong] at after
        cases after
      inUse := fun (wrong : owner = _) => by
        rw [wrong] at after
        cases after
      stopped := fun _ => h.stopped before }
  cases advanceOwner_step hs with
  | @constructed i ho =>
    simp only [ThreadPool.advanceOwner, ho] at hs
    obtain ⟨all, -⟩ := Option.ite_none_left_eq_some.mp hs
    obtain ⟨threads, running⟩ := h.spawning i ho
    have bound := h.threads
    have built : s.threads = n := by omega
    exact {
      threads := bound
      started := h.started
      exited := h.exited
      spawning := fun j wrong => by cases wrong
      inUse := fun _ => ⟨built, running⟩
      stopped := fun wrong => by cases wrong }
  | shutdown => exact h.shutdown
  | destroyed ho | joins ho | joined ho => exact torn (by rw [ho]; rfl) _ rfl _
  | @destroys m members ho =>
    refine torn (by rw [ho]; rfl) _ ?_ _
    split <;> rfl

theorem Staff.next (h : Staff s) (hs : next s l = some s') : Staff s' := by
  cases l with
  | spawn ok => exact h.spawn hs
  | owner => exact h.advanceOwner hs
  | work w => exact h.workThread hs
  | submit t task =>
    obtain ⟨-, hs⟩ := Option.ite_none_right_eq_some.mp hs
    obtain ⟨q, -, rfl⟩ := Option.map_eq_some_iff.mp hs
    exact h.keep rfl rfl rfl rfl
  | queue l =>
    obtain ⟨-, hs⟩ := Option.ite_none_left_eq_some.mp hs
    obtain ⟨q, -, rfl⟩ := Option.map_eq_some_iff.mp hs
    exact h.keep rfl rfl rfl rfl

theorem reach_staff (reached : (machine n C T).Reach s) : Staff s :=
  reached.invariant _ start_staff fun _ _ _ h _ hs => h.next hs

/-! ### Coming home -/

theorem exec_queue {ls : List (ThreadSafeQueue.Label (Thread n C) T)}
    (inside : ∀ l ∈ ls, l.isInvoke = false) {q : ThreadSafeQueue.State (Thread n C) T}
    (run : (ThreadSafeQueue.machine (Thread n C) T).exec s.queue ls = some q) :
    (machine n C T).exec s (ls.map .queue) = some { s with queue := q } := by
  have embedded := Machine.exec_embed (M := ThreadSafeQueue.machine (Thread n C) T)
    (N := machine n C T) (fun q => { s with queue := q }) Label.queue (fun l => l.isInvoke = false)
    (fun q l noCall => if_neg (Bool.not_eq_true _ ▸ noCall)) inside s.queue
  rw [run] at embedded
  exact embedded

/-- A worker that is not home moves, unless a call has to run. -/
theorem Tasks.comes_home (h : Tasks s) (rest : ∀ t, (s.queue.call t).atRest = true) {w : Fin n}
    (away : (s.worker w).away ≠ 0) : ∃ s', ThreadPool.workThread s w = some s' ∧ s'.queue = s.queue ∧
      ∃ worker, s'.worker = Function.update s.worker w worker ∧ worker.away < (s.worker w).away := by
  cases hw : s.worker w with
  | absent | readDone | exited =>
    rw [hw] at away
    exact absurd rfl away
  | tryPop =>
    have still := rest (.inl w)
    have tries := h.trying w hw
    cases hc : s.queue.call (.inl w) with
    | popReturn ok task =>
      cases ok with
      | true =>
        refine ⟨s.setWorker w (.task task), ?_, rfl, .task task, rfl, Nat.lt_succ_self 2⟩
        simp only [ThreadPool.workThread, hw, hc]
      | false =>
        refine ⟨s.setWorker w .yield, ?_, rfl, .yield, rfl, (by decide : 1 < 3)⟩
        simp only [ThreadPool.workThread, hw, hc]
    | rest | pushReturn =>
      rw [hc] at tries
      cases tries
    | _ =>
      rw [hc] at still
      cases still
  | task task =>
    refine ⟨{ s.setWorker w .readDone with ran := s.ran ++ [(w, task)] }, ?_, rfl, .readDone, rfl,
      Nat.succ_pos 1⟩
    simp only [ThreadPool.workThread, hw, rest (.inl w), if_true]
  | yield =>
    refine ⟨s.setWorker w .readDone, ?_, rfl, .readDone, rfl, Nat.succ_pos 0⟩
    simp only [ThreadPool.workThread, hw]

theorem walk_home (reached : (machine n C T).Reach s) (rest : ∀ t, (s.queue.call t).atRest = true) :
    ∃ ls t, (machine n C T).exec s ls = some t ∧ (∀ l ∈ ls, l.isInside = true) ∧
      t.queue = s.queue ∧ Home t := by
  induction left : ∑ w, (s.worker w).away using Nat.strong_induction_on generalizing s with
  | h k ih =>
    by_cases home : ∀ w, (s.worker w).away = 0
    · exact ⟨[], s, rfl, List.forall_mem_nil _, rfl, rest, home⟩
    · obtain ⟨w, away⟩ := not_forall.mp home
      obtain ⟨-, -, tasks⟩ := reach_tasks reached
      obtain ⟨r, hs, queue, worker, moved, closer⟩ := tasks.comes_home rest away
      have total := sum_update Worker.away s.worker w worker
      rw [← moved] at total
      have rest' : ∀ t, (r.queue.call t).atRest = true := by
        rw [queue]
        exact rest
      obtain ⟨ls, t, run, inside, queue', home⟩ :=
        ih _ (by omega) (reached.next (l := .work w) trivial hs) rest' rfl
      have step : (machine n C T).next s (.work w) = some r := hs
      exact ⟨.work w :: ls, t, ((machine n C T).exec_step step ls).trans run,
        List.forall_mem_cons.mpr ⟨rfl, inside⟩, queue'.trans queue, home⟩

/-- The calls end and the workers come home, while nobody reads `done`. -/
theorem reach_home (reached : (machine n C T).Reach s) :
    ∃ ls t, (machine n C T).exec s ls = some t ∧ (∀ l ∈ ls, l.isInside = true) ∧ Home t := by
  obtain ⟨queue, -, -⟩ := reach_tasks reached
  obtain ⟨calls, q, run, inside, settled⟩ := settle queue
  have ended := exec_queue inside run
  have reached' : (machine n C T).Reach { s with queue := q } :=
    Machine.reach_exec _ reached ended
  obtain ⟨-, -, tasks⟩ := reach_tasks reached'
  have rest : ∀ t, (q.call t).atRest = true := fun t => (settled t).resolve_right
    (Bool.eq_false_iff.mp (tasks.quiet t))
  obtain ⟨ls, t, run', inside', -, home⟩ := walk_home reached' rest
  refine ⟨calls.map .queue ++ ls, t, (machine n C T).exec_trans ended run', ?_, home⟩
  exact List.forall_mem_append.mpr ⟨List.forall_mem_map.mpr fun l _ => rfl, inside'⟩

/-! ### Running what was submitted -/

/-- At home, what the queue has handed out has been run. -/
theorem Home.ran_perm (h : Home s) (reached : (machine n C T).Reach s) :
    (s.queue.popped.map Prod.snd).Perm (s.ran.map Prod.snd) := by
  obtain ⟨-, -, tasks⟩ := reach_tasks reached
  have held : (List.finRange n).flatMap (heldBy s) = [] := by
    apply List.flatMap_eq_nil_iff.mpr
    intro w _
    have home := h.home w
    unfold heldBy
    cases hw : s.worker w with
    | tryPop | task =>
      rw [hw] at home
      cases home
    | _ => rfl
  have popped := tasks.popped_perm
  rwa [held, List.append_nil] at popped

/-- A worker that is home takes the first task and runs it. -/
theorem Home.run_next (h : Home s) (reached : (machine n C T).Reach s) {w : Fin n}
    (hw : s.worker w = .readDone) (running : s.done = false)
    (waiting : s.queue.popped.length < s.queue.pushed.length) :
    ∃ ls t, (machine n C T).exec s ls = some t ∧ (∀ l ∈ ls, l.isInside = true) ∧ Home t ∧
      t.queue.pushed = s.queue.pushed ∧ t.queue.popped.length = s.queue.popped.length + 1 := by
  obtain ⟨queue, -, -⟩ := reach_tasks reached
  -- the worker calls `try_pop`
  have called : ThreadSafeQueue.next s.queue (.invoke (.inl w) (.pop .tryPopInto)) =
      some (s.queue.setCall (.inl w) (.lockHead .tryPopInto)) := if_pos (h.rest (.inl w))
  have calls : next s (.work w) = some { s.setWorker w .tryPop with
      queue := s.queue.setCall (.inl w) (.lockHead .tryPopInto) } := by
    simp only [next, workThread, hw, running, called]
    rfl
  have step : (machine n C T).next s (.work w) = some { s.setWorker w .tryPop with
      queue := s.queue.setCall (.inl w) (.lockHead .tryPopInto) } := calls
  have reached' := reached.next trivial step
  -- nobody disturbs the call
  obtain ⟨queue, -, -⟩ := reach_tasks reached'
  obtain ⟨front, nodes, inv⟩ := ThreadSafeQueue.reach_inv queue
  have others : ∀ u, u ≠ .inl w →
      ((s.queue.setCall (.inl w) (.lockHead .tryPopInto)).call u).atRest = true := by
    intro u other
    have same : (s.queue.setCall (.inl w) (.lockHead .tryPopInto)).call u = s.queue.call u :=
      Function.update_of_ne other _ _
    rw [same]
    exact h.rest u
  have left : nodes ≠ [] := by
    rintro rfl
    have all := inv.length
    change s.queue.popped.length + 0 = s.queue.pushed.length at all
    omega
  obtain ⟨q, value, pops, call, pushed, popped⟩ := inv.pop_alone (setCall_self ..) others left
  have ended := exec_queue (List.forall_mem_replicate.mpr (Or.inr rfl)) pops
  -- it has ended, and the worker runs the task
  have rest : ∀ u, (q.call u).atRest = true := by
    intro u
    rw [call]
    by_cases here : u = .inl w
    · rw [here, Function.update_self]
      rfl
    · rw [Function.update_of_ne here]
      exact others u here
  obtain ⟨ls, t, run, inside, same, home⟩ :=
    walk_home (Machine.reach_exec _ reached' ended) rest
  refine ⟨.work w :: ((List.replicate 7 (.step (.inl w))).map .queue ++ ls), t, ?_, ?_, home, ?_, ?_⟩
  · exact ((machine n C T).exec_step step _).trans ((machine n C T).exec_trans ended run)
  · exact List.forall_mem_cons.mpr ⟨rfl, List.forall_mem_append.mpr
      ⟨List.forall_mem_map.mpr fun l _ => rfl, inside⟩⟩
  · rw [same]
    exact pushed
  · rw [same]
    change q.popped.length = _
    rw [popped, List.length_append]
    rfl

/-- The workers of a pool in use run everything that was submitted. -/
theorem Home.run_all (h : Home s) (reached : (machine n C T).Reach s) (inUse : s.owner = .use)
    (staffed : 0 < n) : ∃ ls t, (machine n C T).exec s ls = some t ∧
      (∀ l ∈ ls, l.isInside = true) ∧ Home t ∧ t.queue.pushed = s.queue.pushed ∧
      t.queue.popped.length = t.queue.pushed.length := by
  induction left : s.queue.pushed.length - s.queue.popped.length generalizing s with
  | zero =>
    obtain ⟨queue, -, -⟩ := reach_tasks reached
    obtain ⟨front, nodes, inv⟩ := ThreadSafeQueue.reach_inv queue
    have bound := inv.length
    exact ⟨[], s, rfl, List.forall_mem_nil _, h, rfl, by omega⟩
  | succ k ih =>
    have staff := reach_staff reached
    obtain ⟨threads, running⟩ := staff.inUse inUse
    have hw : s.worker ⟨0, staffed⟩ = .readDone := by
      have home := h.home ⟨0, staffed⟩
      cases hw : s.worker ⟨0, staffed⟩ with
      | readDone => rfl
      | absent => exact absurd hw (staff.started _ (by rw [threads]; exact staffed))
      | exited => exact (Bool.false_ne_true (running.symm.trans (staff.exited _ hw))).elim
      | _ =>
        rw [hw] at home
        cases home
    obtain ⟨first, r, run, inside, home, pushed, popped⟩ := h.run_next reached hw running (by omega)
    obtain ⟨owner, -, -⟩ := exec_inside_keeps inside run
    obtain ⟨ls, t, run', inside', home', pushed', all⟩ := ih home
      (Machine.reach_exec _ reached run) (owner.trans inUse)
      (by rw [pushed, popped]; omega)
    exact ⟨first ++ ls, t, (machine n C T).exec_trans run run', List.forall_mem_append.mpr ⟨inside, inside'⟩,
      home', pushed'.trans pushed, all⟩

theorem exec_pushed {ls : List (Label n C T)} (run : (machine n C T).exec s ls = some s') :
    s.queue.pushed <+: s'.queue.pushed := by
  refine Machine.exec_invariant _ (P := fun t => s.queue.pushed <+: t.queue.pushed) ?_
    List.prefix_rfl run
  intro r l t before hs
  rcases next_queue hs with same | ⟨l, step⟩
  · rw [same]
    exact before
  · exact before.trans (next_pushed step)

/-- The calls that run can end and everything that was submitted can be run, each task
once, by steps inside the calls and the workers alone. -/
def CanRunAll (s : State n C T) : Prop :=
  ∃ ls t, (machine n C T).exec s ls = some t ∧ (∀ l ∈ ls, l.isInside = true) ∧
    (∀ u, (t.queue.call u).atRest = true) ∧ s.queue.pushed <+: t.queue.pushed ∧
    (t.ran.map Prod.snd).Perm (t.queue.pushed.map fun e => some e.2)

/-- One worker is enough to run everything, whatever the others and the clients were
about to do. -/
theorem can_run_all (reached : (machine n C T).Reach s) (inUse : s.owner = .use) (staffed : 0 < n) :
    CanRunAll s := by
  obtain ⟨first, r, run, inside, home⟩ := reach_home reached
  have reached' := Machine.reach_exec _ reached run
  obtain ⟨owner, -, -⟩ := exec_inside_keeps inside run
  obtain ⟨ls, t, run', inside', home', -, all⟩ := home.run_all reached' (owner.trans inUse) staffed
  have whole := (machine n C T).exec_trans run run'
  refine ⟨first ++ ls, t, whole, List.forall_mem_append.mpr ⟨inside, inside'⟩, home'.rest,
    exec_pushed whole, ?_⟩
  have reached'' := Machine.reach_exec _ reached' run'
  obtain ⟨queue, -, -⟩ := reach_tasks reached''
  obtain ⟨front, nodes, inv⟩ := ThreadSafeQueue.reach_inv queue
  have len := inv.length
  have empty : nodes = [] := List.length_eq_zero_iff.mp (by omega)
  have order := inv.order
  rw [empty, List.map_nil, List.append_nil] at order
  rw [← order]
  exact (home'.ran_perm reached'').symm

omit [DecidableEq C] [Fintype C] in
/-- With no worker nothing is run. -/
theorem ran_nil (idle : n = 0) (s : State n C T) : s.ran = [] := by
  subst idle
  exact List.eq_nil_iff_forall_not_mem.mpr fun e _ => e.1.elim0

/-- Everything that is submitted can be run if there is a worker, and only then: with none, no
task is ever run. -/
theorem tasks_can_be_run_iff [Inhabited C] [Inhabited T] :
    ((∀ s, (machine n C T).Reach s → s.owner = .use → CanRunAll s) ↔ 0 < n) ∧
      (n = 0 → ∀ s, (machine n C T).Reach s → s.ran = []) := by
  refine ⟨⟨?_, ?_⟩, fun idle s _ => ran_nil idle s⟩
  · intro all
    apply Nat.pos_of_ne_zero
    rintro rfl
    let client : Thread 0 C := .inr default
    -- a client submits a task to the end
    obtain ⟨s, run, inUse, pushed⟩ : ∃ s, (machine 0 C T).exec (machine 0 C T).start
        [.owner, .submit client default, .queue (.alloc client 1), .queue (.step client),
          .queue (.step client), .queue (.step client), .queue (.step client)] = some s ∧
        s.owner = .use ∧ s.queue.pushed = [(client, default)] := by
      simp [Machine.exec, machine, next, advanceOwner, submit, maySubmit, ThreadSafeQueue.machine,
        ThreadSafeQueue.next, ThreadSafeQueue.advance, ThreadSafeQueue.State.setCall,
        ThreadSafeQueue.State.setNode, Op.invoke, Call.atRest, Label.isInvoke, Node.fresh, client]
    obtain ⟨ls, t, -, -, -, kept, ran⟩ := all s (Machine.reach_of_exec _ run) inUse
    have none := ran_nil rfl t
    have length := ran.length_eq
    have some_left := kept.length_le
    rw [pushed] at some_left
    rw [none] at length
    simp only [List.map_nil, List.length_nil, List.length_map, List.length_singleton] at length some_left
    omega
  · exact fun staffed s reached inUse => can_run_all reached inUse staffed

/-! ### Shutting down -/

/-- A worker that is still in its loop. -/
def Worker.stays (worker : Worker T) : Bool := !worker.isOut

/-- Once `done` is set, the workers that are home leave. -/
theorem Home.leave (h : Home s) (reached : (machine n C T).Reach s) (done : s.done = true) :
    ∃ ls t, (machine n C T).exec s ls = some t ∧ (∀ l ∈ ls, l.isInside = true) ∧
      ∀ w, (t.worker w).isOut = true := by
  induction left : census Worker.stays s.worker using Nat.strong_induction_on generalizing s with
  | h k ih =>
    by_cases out : ∀ w, (s.worker w).isOut = true
    · exact ⟨[], s, rfl, List.forall_mem_nil _, out⟩
    · obtain ⟨w, stays⟩ := not_forall.mp out
      have hw : s.worker w = .readDone := by
        have home := h.home w
        cases hw : s.worker w with
        | readDone => rfl
        | absent | exited =>
          rw [hw] at stays
          exact absurd rfl stays
        | _ =>
          rw [hw] at home
          cases home
      have step : (machine n C T).next s (.work w) = some (s.setWorker w .exited) := by
        simp only [machine, next, workThread, hw, done, if_true]
      have fewer := census_update Worker.stays s.worker w .exited
      rw [hw] at fewer
      change census Worker.stays (s.setWorker w .exited).worker + 1 = _ + 0 at fewer
      have home : Home (s.setWorker w .exited) := by
        refine ⟨h.rest, fun v => ?_⟩
        by_cases same : v = w
        · subst same
          simp [State.setWorker, Worker.away]
        · simpa [State.setWorker, same] using h.home v
      obtain ⟨ls, t, run, inside, out⟩ :=
        ih _ (by omega) home (reached.next trivial step) done rfl
      exact ⟨.work w :: ls, t, ((machine n C T).exec_step step ls).trans run,
        List.forall_mem_cons.mpr ⟨rfl, inside⟩, out⟩

/-- The steps that are left to the owner, when it never waits. -/
def Owner.left (threads : ℕ) : Owner → ℕ
  | .destroy members => members.length * (threads + 2) + 1
  | .join i members => (threads - i) + members.length * (threads + 2) + 2
  | .spawn _ | .use | .gone => 0

omit [DecidableEq C] [Fintype C] in
/-- The owner does not wait for a worker that is out of its loop. -/
theorem Staff.owner_goes_on (h : Staff s) (out : ∀ w, (s.worker w).isOut = true)
    (torn : s.owner.tearsDown = true) (more : s.owner ≠ .gone) :
    ∃ s', ThreadPool.advanceOwner s = some s' ∧ s'.worker = s.worker ∧ s'.owner.tearsDown = true ∧
      s'.owner.left s'.threads < s.owner.left s.threads := by
  cases ho : s.owner with
  | spawn | use =>
    rw [ho] at torn
    cases torn
  | gone => exact absurd ho more
  | destroy members =>
    cases members with
    | nil =>
      refine ⟨{ s with owner := .gone }, ?_, rfl, rfl, Nat.succ_pos _⟩
      simp only [ThreadPool.advanceOwner, ho]
    | cons m members =>
      refine ⟨{ s with
        destroyed := Function.update s.destroyed m true
        owner := if m = .joiner then .join 0 members else .destroy members }, ?_, rfl, ?_, ?_⟩
      · simp only [ThreadPool.advanceOwner, ho]
      · dsimp only
        split <;> rfl
      · dsimp only
        split
        all_goals
          simp only [Owner.left, List.length_cons, Nat.succ_mul]
          omega
  | join i members =>
    by_cases waits : i < s.threads
    · have hi : i < n := Nat.lt_of_lt_of_le waits h.threads
      have gone : s.worker ⟨i, hi⟩ = .exited := by
        have left := out ⟨i, hi⟩
        cases hw : s.worker ⟨i, hi⟩ with
        | exited => rfl
        | absent => exact absurd hw (h.started ⟨i, hi⟩ waits)
        | _ =>
          rw [hw] at left
          cases left
      refine ⟨{ s with owner := .join (i + 1) members }, ?_, rfl, rfl, ?_⟩
      · simp only [ThreadPool.advanceOwner, ho, if_pos waits, dif_pos hi, gone]
      · simp only [Owner.left]
        omega
    · refine ⟨{ s with owner := .destroy members }, ?_, rfl, rfl, ?_⟩
      · simp only [ThreadPool.advanceOwner, ho, if_neg waits]
      · simp only [Owner.left]
        omega

theorem owner_ends (reached : (machine n C T).Reach s) (out : ∀ w, (s.worker w).isOut = true)
    (torn : s.owner.tearsDown = true) : ∃ ls t, (machine n C T).PathBy Calm s ls t ∧
      (∀ l ∈ ls, l = .owner) ∧ t.owner = .gone := by
  induction left : s.owner.left s.threads using Nat.strong_induction_on generalizing s with
  | h k ih =>
    by_cases gone : s.owner = .gone
    · exact ⟨[], s, .nil, List.forall_mem_nil _, gone⟩
    · obtain ⟨r, hs, worker, torn', closer⟩ := (reach_staff reached).owner_goes_on out torn gone
      have calm : Calm s (.owner : Label n C T) := by
        refine fun m members _ _ => ⟨fun _ w => ?_, fun _ => out⟩
        have := out w
        cases hw : s.worker w with
        | absent | exited => rfl
        | _ =>
          rw [hw] at this
          cases this
      have step : (machine n C T).next s .owner = some r := hs
      obtain ⟨ls, t, path, owner, gone⟩ :=
        ih _ (by omega) (reached.next trivial step) (by rw [worker]; exact out) torn' rfl
      exact ⟨.owner :: ls, t, .cons calm step path, List.forall_mem_cons.mpr ⟨rfl, owner⟩, gone⟩

/-- Once the shutdown has begun, the workers come home, see `done` and leave, and then no
destructor waits. -/
theorem shutdown_ends (reached : (machine n C T).Reach s) (torn : s.owner.tearsDown = true) :
    ∃ ls t, (machine n C T).PathBy Calm s ls t ∧ (∀ l ∈ ls, l.isInside = true ∨ l = .owner) ∧
      t.owner = .gone := by
  have calm {ls : List (Label n C T)} (inside : ∀ l ∈ ls, l.isInside = true) : ∀ l ∈ ls, ∀ s, Calm s l :=
    fun l hl => Label.isInside.calm (inside l hl)
  obtain ⟨walk, r, walks, inside, home⟩ := reach_home reached
  have reached' := Machine.reach_exec _ reached walks
  obtain ⟨owner, done, -⟩ := exec_inside_keeps inside walks
  have stopped := (reach_staff reached).stopped torn
  obtain ⟨leave, u, leaves, inside', out⟩ := home.leave reached' (done.trans stopped)
  have reached'' := Machine.reach_exec _ reached' leaves
  obtain ⟨owner', -, -⟩ := exec_inside_keeps inside' leaves
  obtain ⟨rest, t, path, steps, gone⟩ := owner_ends reached'' out (by rw [owner', owner]; exact torn)
  refine ⟨walk ++ (leave ++ rest), t, (Machine.PathBy.of_exec (calm inside) walks).append
    ((Machine.PathBy.of_exec (calm inside') leaves).append path), ?_, gone⟩
  refine List.forall_mem_append.mpr ⟨fun l hl => Or.inl (inside l hl), ?_⟩
  exact List.forall_mem_append.mpr ⟨fun l hl => Or.inl (inside' l hl), fun l hl => Or.inr (steps l hl)⟩

end ThreadPool
