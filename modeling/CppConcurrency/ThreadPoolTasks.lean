import CppConcurrency.ThreadPool
import CppConcurrency.ThreadSafeQueueFifo
import Mathlib.Data.List.FinRange
import Mathlib.Data.List.Perm.Lattice

/-!
# A `ThreadPool` runs each task at most once and drops only a suffix

Only workers take tasks out, by `try_pop(T&)`, and between two turns of its loop a worker
has at most one in its hands: the element that the running `try_pop` has unlinked, or
the task that it runs. So what a worker has taken out is what it ran to the end and that
one task. The queue hands out the tasks in the order in which they were pushed.
-/

namespace ThreadSafeQueue

universe u v

variable {Tid : Type v} [DecidableEq Tid] {T : Type u}

/-- What `t` has taken out, in order. -/
def popsOf (s : State Tid T) (t : Tid) : List (Option T) :=
  (s.popped.filter fun e => e.1 = t).map Prod.snd

/-- Inside a `try_pop(T&)`, or behind it. -/
def Call.tries : Call T → Bool
  | .lockHead pop | .lockTail pop | .readTail pop | .copy pop | .takeHead pop _ | .relink pop _ _
  | .finish pop _ _ => pop = .tryPopInto
  | .refuse | .popReturn _ _ => true
  | _ => false

/-- Inside a `push`, or at rest. -/
def Call.pushes : Call T → Bool
  | .pushAlloc _ | .pushLock _ _ | .pushData _ _ | .pushNext _ _ | .pushTail _ _ | .pushNotify => true
  | call => call.atRest

/-- The element that is taken out and that the caller of `try_pop(T&)` has not got yet. -/
def Call.carries : Call T → List (Option T)
  | .relink _ _ value | .finish _ _ value | .popReturn true value => [value]
  | _ => []

variable {s s' : State Tid T} {t u : Tid} {front : Addr} {nodes : List (Addr × T)}

theorem advance_popped (hs : advance s t = some s') :
    ∃ new, s'.popped = s.popped ++ new ∧ ∀ e ∈ new, e.1 = t := by
  unfold advance at hs
  split at hs
  all_goals try split at hs
  all_goals try cases hs
  all_goals first
    | exact ⟨[], (List.append_nil _).symm, fun e he => by cases he⟩
    | exact ⟨_, rfl, fun e he => List.mem_singleton.mp he ▸ rfl⟩

theorem popsOf_other (other : u ≠ t) {new : List (Tid × Option T)}
    (popped : s'.popped = s.popped ++ new) (mine : ∀ e ∈ new, e.1 = t) :
    popsOf s' u = popsOf s u := by
  have none : new.filter (fun e => e.1 = u) = [] := by
    apply List.filter_eq_nil_iff.mpr
    intro e he
    rw [mine e he, decide_eq_true_iff]
    exact Ne.symm other
  rw [popsOf, popped, List.filter_append, none, List.append_nil, popsOf]

theorem Inv.defined (h : Inv front nodes s) : s.call t ≠ .undefined := by
  intro wrong
  have fact := h.facts t
  rw [wrong] at fact
  exact fact

theorem setCall_self (s : State Tid T) (t : Tid) (c : Call T) : (s.setCall t c).call t = c :=
  Function.update_self ..

/-- A step inside a `push` takes nothing out. -/
theorem Inv.advance_pushes (h : Inv front nodes s) (pushes : (s.call t).pushes = true)
    (hs : ThreadSafeQueue.advance s t = some s') :
    (s'.call t).pushes = true ∧ popsOf s' t = popsOf s t := by
  obtain ⟨front', nodes', h'⟩ := h.advance hs
  have defined : s'.call t ≠ .undefined := h'.defined
  unfold ThreadSafeQueue.advance at hs
  cases hc : s.call t with
  | rest | pushAlloc | pushNotify | pushReturn | popReturn =>
    simp only [hc] at hs
    cases hs
  | pushLock data p =>
    simp only [hc] at hs
    obtain ⟨-, ⟨⟩⟩ := Option.ite_none_left_eq_some.mp hs
    exact ⟨by rw [setCall_self]; rfl, rfl⟩
  | pushData data p | pushNext data p =>
    simp only [hc] at hs
    split at hs
    all_goals obtain rfl := Option.some.inj hs
    · exact ⟨by rw [setCall_self]; rfl, rfl⟩
    · exact absurd (setCall_self ..) defined
  | pushTail data p =>
    simp only [hc] at hs
    obtain rfl := Option.some.inj hs
    exact ⟨by rw [setCall_self]; rfl, rfl⟩
  | _ =>
    rw [hc] at pushes
    cases pushes

/-- A step inside a `try_pop(T&)` carries what it takes out. -/
theorem Inv.advance_tries (h : Inv front nodes s) (tries : (s.call t).tries = true)
    (hs : ThreadSafeQueue.advance s t = some s') :
    (s'.call t).tries = true ∧ ∃ new, popsOf s' t = popsOf s t ++ new ∧
      (s'.call t).carries = (s.call t).carries ++ new := by
  obtain ⟨front', nodes', h'⟩ := h.advance hs
  have defined : s'.call t ≠ .undefined := h'.defined
  unfold ThreadSafeQueue.advance at hs
  cases hc : s.call t with
  | popReturn =>
    simp only [hc] at hs
    cases hs
  | lockHead pop | lockTail pop =>
    rw [hc] at tries
    simp only [hc] at hs
    obtain ⟨-, ⟨⟩⟩ := Option.ite_none_left_eq_some.mp hs
    exact ⟨by rw [setCall_self]; exact tries, [], (List.append_nil _).symm, by rw [setCall_self]; rfl⟩
  | readTail pop =>
    rw [hc] at tries
    obtain rfl : pop = .tryPopInto := of_decide_eq_true tries
    simp only [hc] at hs
    obtain rfl := Option.some.inj hs
    refine ⟨?_, [], (List.append_nil _).symm, ?_⟩
    all_goals
      rw [setCall_self]
      split <;> rfl
  | refuse =>
    simp only [hc] at hs
    obtain rfl := Option.some.inj hs
    exact ⟨by rw [setCall_self]; rfl, [], (List.append_nil _).symm, by rw [setCall_self]; rfl⟩
  | copy pop =>
    rw [hc] at tries
    simp only [hc] at hs
    split at hs
    all_goals obtain rfl := Option.some.inj hs
    · exact ⟨by rw [setCall_self]; exact tries, [], (List.append_nil _).symm, by rw [setCall_self]; rfl⟩
    · exact absurd (setCall_self ..) defined
  | takeHead pop value =>
    rw [hc] at tries
    obtain rfl : pop = .tryPopInto := of_decide_eq_true tries
    have fact := h.facts t
    rw [hc] at fact
    obtain ⟨head, e, first, copied⟩ := fact
    obtain ⟨c, rest, -, hn, -⟩ := h.first first
    simp only [hc, head, Option.bind_some, hn] at hs
    obtain rfl := Option.some.inj hs
    refine ⟨by rw [setCall_self]; rfl, [value], ?_, by rw [setCall_self]; rfl⟩
    simp [popsOf, State.setCall, List.filter_append, copied rfl]
  | relink pop old value =>
    rw [hc] at tries
    simp only [hc] at hs
    split at hs
    all_goals obtain rfl := Option.some.inj hs
    · exact ⟨by rw [setCall_self]; exact tries, [], (List.append_nil _).symm, by rw [setCall_self]; rfl⟩
    · exact absurd (setCall_self ..) defined
  | finish pop old value =>
    rw [hc] at tries
    obtain rfl : pop = .tryPopInto := of_decide_eq_true tries
    simp only [hc] at hs
    split at hs
    all_goals obtain rfl := Option.some.inj hs
    · exact ⟨by rw [setCall_self]; rfl, [], (List.append_nil _).symm, by rw [setCall_self]; rfl⟩
    · exact absurd (setCall_self ..) defined
  | _ =>
    rw [hc] at tries
    cases tries

/-- Where no thread is blocked, a step inside a call leaves the other threads alone. -/
theorem Inv.next_quiet [Fintype Tid] (h : Inv front nodes s) {l : Label Tid T}
    (hs : ThreadSafeQueue.next s l = some s') (inside : l.isInvoke = false)
    (quiet : ∀ u, (s.call u).isBlocked = false) :
    (∀ u, u ≠ l.thread → s'.call u = s.call u ∧ popsOf s' u = popsOf s u) ∧
    ((s.call l.thread).pushes = true →
      (s'.call l.thread).pushes = true ∧ popsOf s' l.thread = popsOf s l.thread) ∧
    ((s.call l.thread).tries = true → (s'.call l.thread).tries = true ∧
      ∃ new, popsOf s' l.thread = popsOf s l.thread ++ new ∧
        (s'.call l.thread).carries = (s.call l.thread).carries ++ new) := by
  have blocked : ∀ {u pop}, s.call u ≠ .blocked pop := by
    intro u pop wrong
    have := quiet u
    rw [wrong] at this
    cases this
  cases next_step hs with
  | invoke => cases inside
  | @alloc t p data hc free =>
    refine ⟨fun u other => ⟨Function.update_of_ne other _ _, rfl⟩, fun _ => ⟨?_, rfl⟩, fun tries => ?_⟩
    · exact congrArg Call.pushes (setCall_self ..)
    · rw [Label.thread, hc] at tries
      cases tries
  | notifyOne hc hu => exact absurd hu blocked
  | @notifyNobody t hc nobody =>
    refine ⟨fun u other => ⟨Function.update_of_ne other _ _, rfl⟩, fun _ => ⟨?_, rfl⟩, fun tries => ?_⟩
    · exact congrArg Call.pushes (setCall_self ..)
    · rw [Label.thread, hc] at tries
      cases tries
  | spurious hc => exact absurd hc blocked
  | step moved =>
    obtain ⟨new, popped, mine⟩ := advance_popped moved
    exact ⟨fun u other => ⟨advance_other moved other, popsOf_other other popped mine⟩,
      fun pushes => h.advance_pushes pushes moved, fun tries => h.advance_tries tries moved⟩

end ThreadSafeQueue

namespace ThreadPool

open Machines ThreadSafeQueue LinkedChains

universe u v

variable {n : ℕ} {C : Type v} {T : Type u} [DecidableEq C] [Fintype C]

/-- The tasks that worker `w` has run to their end. -/
def ranBy (s : State n C T) (w : Fin n) : List (Option T) :=
  (s.ran.filter fun e => e.1 = w).map Prod.snd

omit [DecidableEq C] [Fintype C] in
/-- The task that worker `w` has taken out and not run to its end. -/
def heldBy (s : State n C T) (w : Fin n) : List (Option T) :=
  match s.worker w with
  | .tryPop => (s.queue.call (.inl w)).carries
  | .task task => [task]
  | _ => []

structure Tasks (s : State n C T) : Prop where
  trying : ∀ w, s.worker w = .tryPop → (s.queue.call (.inl w)).tries = true
  pushing : ∀ t, (∀ w, t = .inl w → s.worker w ≠ .tryPop) → (s.queue.call t).pushes = true
  clients : ∀ c, popsOf s.queue (.inr c) = []
  done : ∀ w, popsOf s.queue (.inl w) = ranBy s w ++ heldBy s w

variable {s s' : State n C T}

theorem start_tasks : Tasks (machine n C T).start where
  trying _ wrong := by cases wrong
  pushing _ _ := rfl
  clients _ := rfl
  done _ := rfl

omit [Fintype C] in
theorem Tasks.quiet (h : Tasks s) (t : Thread n C) : (s.queue.call t).isBlocked = false := by
  by_cases trying : ∃ w, t = .inl w ∧ s.worker w = .tryPop
  · obtain ⟨w, rfl, hw⟩ := trying
    have tries := h.trying w hw
    cases hc : s.queue.call (.inl w) <;> rw [hc] at tries <;> first | rfl | cases tries
  · have pushes := h.pushing t fun w same hw => trying ⟨w, same, hw⟩
    cases hc : s.queue.call t <;> rw [hc] at pushes <;> first | rfl | cases pushes

/-- A step inside a call on the queue. -/
theorem Tasks.queue (h : Tasks s) {front : Addr} {nodes : List (Addr × T)}
    (inv : ThreadSafeQueue.Inv front nodes s.queue) {l : ThreadSafeQueue.Label (Thread n C) T}
    {q : ThreadSafeQueue.State (Thread n C) T} (hs : ThreadSafeQueue.next s.queue l = some q)
    (inside : l.isInvoke = false) : Tasks { s with queue := q } := by
  obtain ⟨others, pushing, trying⟩ := inv.next_quiet hs inside h.quiet
  refine {
    trying := fun w hw => ?trying
    pushing := fun t ht => ?pushing
    clients := fun c => ?clients
    done := fun w => ?done }
  case trying =>
    by_cases here : Sum.inl w = l.thread
    · have tries := h.trying w hw
      rw [here] at tries ⊢
      exact (trying tries).1
    · rw [(others _ here).1]
      exact h.trying w hw
  case pushing =>
    by_cases here : t = l.thread
    · subst here
      exact (pushing (h.pushing _ ht)).1
    · rw [(others t here).1]
      exact h.pushing t ht
  case clients =>
    by_cases here : Sum.inr c = l.thread
    · have pushes := h.pushing (.inr c) fun w wrong => by cases wrong
      have none := h.clients c
      rw [here] at pushes none ⊢
      exact (pushing pushes).2.trans none
    · rw [(others _ here).2]
      exact h.clients c
  case done =>
    have before := h.done w
    by_cases here : Sum.inl w = l.thread
    · by_cases tryPop : s.worker w = .tryPop
      · have tries := h.trying w tryPop
        simp only [heldBy, tryPop] at before ⊢
        rw [here] at tries before ⊢
        obtain ⟨-, new, pops, carries⟩ := trying tries
        rw [pops, carries, before, List.append_assoc]
        rfl
      · have pushes := h.pushing (.inl w) fun v same => Sum.inl.inj same ▸ tryPop
        have held : heldBy { s with queue := q } w = heldBy s w := by
          unfold heldBy
          cases hw : s.worker w <;> first | rfl | exact absurd hw tryPop
        rw [held]
        rw [here] at pushes before ⊢
        exact (pushing pushes).2.trans before
    · obtain ⟨call, pops⟩ := others _ here
      have held : heldBy { s with queue := q } w = heldBy s w := by
        simp only [heldBy, call]
      rw [pops, held]
      exact before

omit [Fintype C] in
/-- A worker moves between its calls, or into one. -/
theorem Tasks.change (h : Tasks s) {w : Fin n} {worker : Worker T}
    {q : ThreadSafeQueue.State (Thread n C) T} {ran : List (Fin n × Option T)}
    (others : ∀ t, t ≠ .inl w → q.call t = s.queue.call t) (popped : q.popped = s.queue.popped)
    (tries : worker = .tryPop → (q.call (.inl w)).tries = true)
    (pushes : worker ≠ .tryPop → (q.call (.inl w)).pushes = true)
    (rest : ∀ v, v ≠ w → ran.filter (fun e => e.1 = v) = s.ran.filter fun e => e.1 = v)
    (kept : ranBy { s.setWorker w worker with queue := q, ran := ran } w ++
      heldBy { s.setWorker w worker with queue := q, ran := ran } w = ranBy s w ++ heldBy s w) :
    Tasks { s.setWorker w worker with queue := q, ran := ran } := by
  have pops : ∀ t, popsOf q t = popsOf s.queue t := fun t => by rw [popsOf, popped, popsOf]
  have mover : (s.setWorker w worker).worker w = worker := Function.update_self ..
  have stays : ∀ v, v ≠ w → (s.setWorker w worker).worker v = s.worker v :=
    fun v other => Function.update_of_ne other _ _
  refine {
    trying := fun v hv => ?trying
    pushing := fun t ht => ?pushing
    clients := fun c => (pops _).trans (h.clients c)
    done := fun v => (pops _).trans ((h.done v).trans ?done) }
  case trying =>
    dsimp only at hv ⊢
    by_cases here : v = w
    · subst here
      exact tries (mover.symm.trans hv)
    · rw [others _ fun wrong => here (Sum.inl.inj wrong)]
      exact h.trying v ((stays v here).symm.trans hv)
  case pushing =>
    dsimp only at ht ⊢
    by_cases here : t = .inl w
    · subst here
      exact pushes fun wrong => ht w rfl (mover.trans wrong)
    · rw [others t here]
      refine h.pushing t fun v same hv => ht v same ?_
      rw [stays v fun wrong => here (wrong ▸ same)]
      exact hv
  case done =>
    by_cases here : v = w
    · subst here
      exact kept.symm
    · have ranBy' : ranBy { s.setWorker w worker with queue := q, ran := ran } v = ranBy s v := by
        rw [ranBy, rest v here, ranBy]
      have heldBy' : heldBy { s.setWorker w worker with queue := q, ran := ran } v = heldBy s v := by
        simp only [heldBy, stays v here, others _ fun wrong => here (Sum.inl.inj wrong)]
      rw [ranBy', heldBy']

theorem Tasks.workThread (h : Tasks s) {w : Fin n} (hs : workThread s w = some s') : Tasks s' := by
  have pushing : s.worker w ≠ .tryPop → (s.queue.call (.inl w)).pushes = true :=
    fun off => h.pushing (.inl w) fun v same => Sum.inl.inj same ▸ off
  -- the moves that take nothing out and finish no task
  have moves : ∀ (worker : Worker T), worker ≠ .tryPop → (s.queue.call (.inl w)).pushes = true →
      heldBy (s.setWorker w worker) w = heldBy s w → Tasks (s.setWorker w worker) :=
    fun worker off pushes held => h.change (fun _ _ => rfl) rfl (fun wrong => absurd wrong off)
      (fun _ => pushes) (fun _ _ => rfl) (congrArg (ranBy s w ++ ·) held)
  have held : ∀ worker, heldBy (s.setWorker w worker) w = match worker with
      | .tryPop => (s.queue.call (.inl w)).carries
      | .task task => [task]
      | _ => [] := by
    intro worker
    simp only [heldBy, State.setWorker, Function.update_self]
  have off {worker : Worker T} (hw : s.worker w = worker) (other : worker ≠ .tryPop) :
      s.worker w ≠ .tryPop := hw ▸ other
  cases workThread_step hs with
  | leaves hw | yields hw =>
    have none : heldBy s w = [] := by simp only [heldBy, hw]
    exact moves _ (fun wrong => by cases wrong) (pushing (off hw (fun wrong => by cases wrong)))
      ((held _).trans none.symm)
  | calls hw goesOn called =>
    have none : heldBy s w = [] := by simp only [heldBy, hw]
    cases next_step called with
    | invoke rest op =>
      refine h.change (fun t other => Function.update_of_ne other _ _) rfl (fun _ => ?_)
        (fun wrong => absurd rfl wrong) (fun _ _ => rfl) (congrArg (ranBy s w ++ ·) ?_)
      · exact congrArg Call.tries (setCall_self ..)
      · rw [none]
        simp only [heldBy, State.setWorker, Function.update_self, setCall_self]
        rfl
  | obtains hw returned | misses hw returned =>
    refine moves _ (fun wrong => by cases wrong) (by rw [returned]; rfl) ((held _).trans ?_)
    simp only [heldBy, hw, returned, Call.carries]
  | finishes hw rest =>
    refine h.change (fun _ _ => rfl) rfl (fun wrong => by cases wrong)
      (fun _ => pushing (off hw fun wrong => by cases wrong)) ?_ ?_
    · intro v other
      simp [List.filter_append, Ne.symm other]
    · simp [ranBy, heldBy, State.setWorker, List.filter_append, hw]

omit [Fintype C] in
/-- The owner's steps, once the pool is built, touch neither workers nor queue. -/
theorem Tasks.keep (h : Tasks s) (queue : s'.queue = s.queue) (worker : s'.worker = s.worker)
    (ran : s'.ran = s.ran) : Tasks s' where
  trying w hw := by
    rw [queue]
    exact h.trying w (worker ▸ hw)
  pushing t ht := by
    rw [queue]
    exact h.pushing t fun w same hw => ht w same (worker ▸ hw)
  clients c := by
    rw [queue]
    exact h.clients c
  done w := by
    have before := h.done w
    simp only [ranBy, heldBy, queue, worker, ran] at before ⊢
    exact before

omit [DecidableEq C] [Fintype C] in
theorem advanceOwner_keeps (hs : advanceOwner s = some s') :
    s'.queue = s.queue ∧ s'.worker = s.worker ∧ s'.ran = s.ran := by
  cases advanceOwner_step hs <;> exact ⟨rfl, rfl, rfl⟩

/-- The workers that the constructor has not started yet. -/
def Unborn (s : State n C T) : Prop :=
  ∀ i, s.owner = .spawn i → ∀ w : Fin n, i ≤ w.val → s.worker w = .absent

omit [Fintype C] in
theorem Tasks.spawn (h : Tasks s) (unborn : Unborn s) {ok : Bool} (hs : spawn s ok = some s') :
    Tasks s' := by
  cases spawn_step hs with
  | failed => exact h.keep rfl rfl rfl
  | @started i spawning hi =>
    have absent := unborn i spawning ⟨i, hi⟩ (Nat.le_refl i)
    have off : ∀ v, (.inl ⟨i, hi⟩ : Thread n C) = .inl v → s.worker v ≠ .tryPop := by
      rintro v same wrong
      obtain rfl := Sum.inl.inj same
      rw [absent] at wrong
      cases wrong
    have started : Tasks (s.setWorker ⟨i, hi⟩ .readDone) := by
      refine h.change (fun _ _ => rfl) rfl (fun wrong => by cases wrong) (fun _ =>
        h.pushing _ off) (fun _ _ => rfl) ?_
      simp [ranBy, heldBy, State.setWorker, absent]
    exact started.keep rfl rfl rfl

theorem workThread_born {w : Fin n} (hs : workThread s w = some s') :
    s'.owner = s.owner ∧ ∀ v, s.worker v = .absent → s'.worker v = .absent := by
  have moves {before : Worker T} (hw : s.worker w = before) (born : before ≠ .absent) worker v
      (absent : s.worker v = .absent) : Function.update s.worker w worker v = .absent := by
    refine (Function.update_of_ne ?_ _ _).trans absent
    rintro rfl
    exact born (hw.symm.trans absent)
  cases workThread_step hs with
  | leaves hw | calls hw | obtains hw | misses hw | finishes hw | yields hw =>
    exact ⟨rfl, moves hw (fun wrong => by cases wrong) _⟩

omit [DecidableEq C] [Fintype C] in
theorem advanceOwner_settled (hs : advanceOwner s = some s') (i : ℕ) : s'.owner ≠ .spawn i := by
  cases advanceOwner_step hs with
  | destroys =>
    dsimp only
    split <;> exact Owner.noConfusion
  | _ => exact Owner.noConfusion

theorem Unborn.next (h : Unborn s) {l : Label n C T} (hs : next s l = some s') : Unborn s' := by
  intro i spawning w later
  cases l with
  | spawn ok =>
    cases spawn_step hs with
    | failed => cases spawning
    | @started j before hj =>
      obtain rfl : j + 1 = i := Owner.spawn.inj spawning
      have other : w ≠ ⟨j, hj⟩ := by
        rintro rfl
        exact absurd later (Nat.not_succ_le_self j)
      exact (Function.update_of_ne other _ _).trans (h j before w (Nat.le_of_succ_le later))
  | owner => exact absurd spawning (advanceOwner_settled hs i)
  | work v =>
    obtain ⟨owner, absent⟩ := workThread_born hs
    exact absent w (h i (owner.symm.trans spawning) w later)
  | submit t task =>
    obtain ⟨-, hs⟩ := Option.ite_none_right_eq_some.mp hs
    obtain ⟨q, -, rfl⟩ := Option.map_eq_some_iff.mp hs
    exact h i spawning w later
  | queue l =>
    obtain ⟨-, hs⟩ := Option.ite_none_left_eq_some.mp hs
    obtain ⟨q, -, rfl⟩ := Option.map_eq_some_iff.mp hs
    exact h i spawning w later

theorem Tasks.submit (h : Tasks s) {t : Thread n C} {task : T} (hs : submit s t task = some s') :
    Tasks s' := by
  obtain ⟨may, hs⟩ := Option.ite_none_right_eq_some.mp hs
  obtain ⟨q, called, rfl⟩ := Option.map_eq_some_iff.mp hs
  have inTask : ∀ w, t = .inl w → ∃ task, s.worker w = .task task := by
    rintro w rfl
    simp only [maySubmit] at may
    split at may
    · rename_i task hw
      exact ⟨task, hw⟩
    · cases may
  cases next_step called with
  | invoke rest op =>
    have others : ∀ u, u ≠ t → (s.queue.setCall t (.pushAlloc task)).call u = s.queue.call u :=
      fun u other => Function.update_of_ne other _ _
    refine {
      trying := fun w hw => ?trying
      pushing := fun u hu => ?pushing
      clients := h.clients
      done := fun w => (h.done w).trans ?done }
    case trying =>
      refine (congrArg Call.tries (others _ ?_)).trans (h.trying w hw)
      intro same
      obtain ⟨task', inside⟩ := inTask w same.symm
      rw [hw] at inside
      cases inside
    case pushing =>
      by_cases here : u = t
      · subst here
        exact congrArg Call.pushes (setCall_self ..)
      · exact (congrArg Call.pushes (others u here)).trans (h.pushing u hu)
    case done =>
      refine congrArg (ranBy s w ++ ·) ?_
      by_cases here : (.inl w : Thread n C) = t
      · obtain ⟨task', inside⟩ := inTask w here.symm
        simp only [heldBy, inside]
      · simp only [heldBy]
        split
        · exact congrArg Call.carries (others _ here).symm
        · rfl
        · rfl

/-- A step of the pool is a step of its queue, or leaves the queue alone. -/
theorem next_queue {l : Label n C T} (hs : next s l = some s') :
    s'.queue = s.queue ∨ ∃ l, ThreadSafeQueue.next s.queue l = some s'.queue := by
  cases l with
  | spawn ok => cases spawn_step hs <;> exact Or.inl rfl
  | owner => exact Or.inl (advanceOwner_keeps hs).1
  | work w =>
    cases workThread_step hs with
    | calls hw goesOn called => exact Or.inr ⟨_, called⟩
    | _ => exact Or.inl rfl
  | submit t task =>
    obtain ⟨-, hs⟩ := Option.ite_none_right_eq_some.mp hs
    obtain ⟨q, step, rfl⟩ := Option.map_eq_some_iff.mp hs
    exact Or.inr ⟨_, step⟩
  | queue l =>
    obtain ⟨-, hs⟩ := Option.ite_none_left_eq_some.mp hs
    obtain ⟨q, step, rfl⟩ := Option.map_eq_some_iff.mp hs
    exact Or.inr ⟨_, step⟩

theorem reach_tasks (reached : (machine n C T).Reach s) :
    (ThreadSafeQueue.machine (Thread n C) T).Reach s.queue ∧ Unborn s ∧ Tasks s := by
  refine reached.invariant (P := fun s =>
    (ThreadSafeQueue.machine (Thread n C) T).Reach s.queue ∧ Unborn s ∧ Tasks s) _
    ⟨.start, fun _ _ _ _ => rfl, start_tasks⟩ ?_
  rintro s l s' ⟨queue, unborn, h⟩ - hs
  refine ⟨?_, unborn.next hs, ?_⟩
  · rcases next_queue hs with same | ⟨l, step⟩
    · exact same ▸ queue
    · exact .next queue trivial step
  · cases l with
    | spawn ok => exact h.spawn unborn hs
    | owner =>
      obtain ⟨sameQueue, worker, ran⟩ := advanceOwner_keeps hs
      exact h.keep sameQueue worker ran
    | work w => exact h.workThread hs
    | submit t task => exact h.submit hs
    | queue l =>
      obtain ⟨inside, hs⟩ := Option.ite_none_left_eq_some.mp hs
      obtain ⟨q, step, rfl⟩ := Option.map_eq_some_iff.mp hs
      obtain ⟨front, nodes, inv⟩ := ThreadSafeQueue.reach_inv queue
      exact h.queue inv step (Bool.not_eq_true _ ▸ inside)

/-! ### All tasks -/

/-- A list of events sorted by who they belong to. -/
theorem perm_byOwner {K V : Type*} [DecidableEq K] {owners : List K} (nodup : owners.Nodup)
    {events : List (K × V)} (owned : ∀ e ∈ events, e.1 ∈ owners) :
    (events.map Prod.snd).Perm
      (owners.flatMap fun k => (events.filter fun e => e.1 = k).map Prod.snd) := by
  induction events with
  | nil => simp
  | cons e events ih =>
    obtain ⟨k, value⟩ := e
    have rest := ih fun e he => owned e (List.mem_cons_of_mem _ he)
    have split : (owners.flatMap fun j => (((k, value) :: events).filter fun e => e.1 = j).map Prod.snd) =
        owners.flatMap fun j => (if k = j then [value] else []) ++
          (events.filter fun e => e.1 = j).map Prod.snd := by
      apply List.flatMap_congr
      intro j _
      by_cases here : k = j <;> simp [here]
    have own : owners.flatMap (fun j => if k = j then [value] else []) = [value] := by
      obtain ⟨before, after, rfl⟩ := List.append_of_mem (owned (k, value) List.mem_cons_self)
      obtain ⟨off, -⟩ := List.nodup_cons.mp (List.nodup_middle.mp nodup)
      have none : ∀ js : List K, k ∉ js → js.flatMap (fun j => if k = j then [value] else []) = [] := by
        intro js hk
        refine List.flatMap_eq_nil_iff.mpr fun j hj => if_neg ?_
        rintro rfl
        exact hk hj
      rw [List.flatMap_append, List.flatMap_cons, if_pos rfl,
        none before fun hk => off (List.mem_append_left _ hk),
        none after fun hk => off (List.mem_append_right _ hk)]
      rfl
    rw [split]
    refine List.Perm.trans ?_ (List.flatMap_append_perm _ _ _)
    rw [own]
    exact rest.cons value

omit [Fintype C] in
/-- What the queue handed out, it handed to the workers. -/
theorem Tasks.popped_perm (h : Tasks s) : (s.queue.popped.map Prod.snd).Perm
    (s.ran.map Prod.snd ++ (List.finRange n).flatMap (heldBy s)) := by
  -- the poppers are workers
  have owned : ∀ e ∈ s.queue.popped, e.1 ∈ (List.finRange n).map Sum.inl := by
    rintro ⟨t, value⟩ he
    cases t with
    | inl w => exact List.mem_map_of_mem (List.mem_finRange w)
    | inr c =>
      have mine : value ∈ popsOf s.queue (.inr c) :=
        List.mem_map.mpr ⟨_, List.mem_filter.mpr ⟨he, decide_eq_true rfl⟩, rfl⟩
      rw [h.clients c] at mine
      cases mine
  have nodup : ((List.finRange n).map (Sum.inl : Fin n → Thread n C)).Nodup :=
    (List.nodup_finRange n).map Sum.inl_injective
  refine (perm_byOwner nodup owned).trans ?_
  rw [List.flatMap_map]
  have done : (List.finRange n).flatMap (fun w => popsOf s.queue (.inl w)) =
      (List.finRange n).flatMap fun w => ranBy s w ++ heldBy s w :=
    List.flatMap_congr fun w _ => h.done w
  refine (List.Perm.of_eq done).trans ?_
  refine (List.flatMap_append_perm _ _ _).symm.trans (List.Perm.append_right _ ?_)
  exact (perm_byOwner (List.nodup_finRange n) fun e _ => List.mem_finRange e.1).symm

/-- What the queue hands out is what the workers ran and what they hold, and with what is
still queued it is what was pushed, in that order. When all workers are out of their
loops, every task that was handed out has been run to its end once, and what was never
run is the rest of the push order. -/
theorem tasks_run_once (reached : (machine n C T).Reach s) :
    ∃ queued : List T,
      (∃ front nodes, Chain (cell s.queue.heap) front nodes s.queue.tail ∧
        nodes.map Prod.snd = queued ∧ (s.queue.headMutex = none → s.queue.head = some front)) ∧
      s.queue.popped.map Prod.snd ++ queued.map some = s.queue.pushed.map (fun e => some e.2) ∧
      (∀ w, popsOf s.queue (.inl w) = ranBy s w ++ heldBy s w ∧ (heldBy s w).length ≤ 1) ∧
      (s.queue.pushed.map fun e => some e.2).Perm
        (s.ran.map Prod.snd ++ (List.finRange n).flatMap (heldBy s) ++ queued.map some) ∧
      ((∀ w, (s.worker w).isOut = true) →
        (s.ran.map Prod.snd).Perm
          ((s.queue.pushed.take s.queue.popped.length).map fun e => some e.2) ∧
        queued = (s.queue.pushed.drop s.queue.popped.length).map Prod.snd) := by
  obtain ⟨queue, -, tasks⟩ := reach_tasks reached
  obtain ⟨front, nodes, inv⟩ := ThreadSafeQueue.reach_inv queue
  have order : s.queue.popped.map Prod.snd ++ (nodes.map Prod.snd).map some =
      s.queue.pushed.map fun e => some e.2 := by
    rw [List.map_map]
    exact inv.order
  have popped := tasks.popped_perm
  refine ⟨nodes.map Prod.snd, ⟨front, nodes, inv.chain, rfl, inv.head⟩, order, fun w => ?_, ?_, ?_⟩
  · refine ⟨tasks.done w, ?_⟩
    unfold heldBy
    split
    · unfold Call.carries
      split
      · exact Nat.le_refl 1
      · exact Nat.le_refl 1
      · exact Nat.le_refl 1
      · exact Nat.zero_le 1
    · exact Nat.le_refl 1
    · exact Nat.zero_le 1
  · rw [← order]
    exact popped.append_right _
  · intro out
    have none : (List.finRange n).flatMap (heldBy s) = [] := by
      apply List.flatMap_eq_nil_iff.mpr
      intro w _
      have := out w
      unfold heldBy
      cases hw : s.worker w <;> first | rfl | (rw [hw] at this; cases this)
    rw [none, List.append_nil] at popped
    have length : s.queue.popped.length = (s.queue.popped.map Prod.snd).length := (List.length_map _).symm
    constructor
    · rw [List.map_take, ← order, length, List.take_left]
      exact popped.symm
    · refine List.map_injective_iff.mpr (Option.some_injective T) ?_
      have rest : (nodes.map Prod.snd).map some =
          (s.queue.pushed.map fun e => some e.2).drop s.queue.popped.length := by
        rw [← order, length, List.drop_left]
      rw [rest, List.map_map, List.map_drop]
      rfl

/-- A worker runs a task that submits another one, which the end of the pool leaves in the
queue. -/
def leftOver (w : Fin 1) : List (Label 1 Unit ℕ) :=
  [.spawn true, .owner, .submit (.inr ()) 7, .queue (.alloc (.inr ()) 1), .queue (.step (.inr ())),
    .queue (.step (.inr ())), .queue (.step (.inr ())), .queue (.step (.inr ())), .work w,
    .queue (.step (.inl w)), .queue (.step (.inl w)), .queue (.step (.inl w)),
    .queue (.step (.inl w)), .queue (.step (.inl w)), .queue (.step (.inl w)),
    .queue (.step (.inl w)), .work w, .submit (.inl w) 8, .queue (.alloc (.inl w) 2),
    .queue (.step (.inl w)), .queue (.step (.inl w)), .queue (.step (.inl w)),
    .queue (.step (.inl w)), .queue (.notify (.inl w) none), .owner, .work w, .work w]

def leftOverRun : (machine 1 Unit ℕ).Run :=
  .ofSchedule _ .owner (leftOver (Fin.last 0)) (by decide +kernel)

theorem tasks_run_once_leftOver :
    ((leftOverRun.state 27).ran.map Prod.snd).Perm [some 7] ∧
      (leftOverRun.state 27).queue.pushed.map Prod.snd = [7, 8] := by
  obtain ⟨queued, -, -, -, -, all⟩ := tasks_run_once (leftOverRun.reach (i := 27) (by decide))
  have out : ∀ w, ((leftOverRun.state 27).worker w).isOut = true := by decide +kernel
  have taken : ((leftOverRun.state 27).queue.pushed.take
      (leftOverRun.state 27).queue.popped.length).map (fun e => some e.2) = [some 7] := by
    decide +kernel
  exact ⟨taken ▸ (all out).1, by decide +kernel⟩

end ThreadPool
