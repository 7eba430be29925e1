import CppConcurrency.ParallelAccumulate

/-!
# `parallel_accumulate` returns when there is a worker, or nothing to submit

The calling thread waits in three places: for the mutex inside `submit`, for its futures,
and in the destructor of the pool. The first and the last wait always ends, for the
other one a worker is needed. `hardware_concurrency()` may return zero, and then the
function never returns from a sequence of more than one block.
-/

namespace ParallelAccumulate

open Machines ThreadPool

universe u

variable {n : ℕ} {T : Type u} [AddMonoid T] {garbage : ℕ → T} {xs : List T} {init : T}
  {s s' : State n T}

/-- The pool dies as `ThreadPool.Calm` says. -/
def Calm (s : State n T) : Label n → Prop
  | .pool l => ThreadPool.Calm s.pool l
  | .caller => True

/-- The call can end, by a return or by an exception, and no worker uses a dead member. -/
def CanEnd (garbage : ℕ → T) (xs : List T) (init : T) (s : State n T) : Prop :=
  ∃ ls t, (machine n garbage xs init).PathBy Calm s ls t ∧ t.caller.ended = true

theorem CanEnd.after {ls : List (Label n)} (path : (machine n garbage xs init).PathBy Calm s ls s')
    (later : CanEnd garbage xs init s') : CanEnd garbage xs init s := by
  obtain ⟨rest, t, path', ended⟩ := later
  exact ⟨ls ++ rest, t, path.append path', ended⟩

theorem CanEnd.of_step {l : Label n} (meets : Calm s l) (step : next garbage xs init s l = some s')
    (later : CanEnd garbage xs init s') : CanEnd garbage xs init s :=
  .after (.single meets step) later

/-- The calling thread does not stand in the way of the shutdown. -/
def MayShut (s : State n T) : Prop :=
  s.pool.owner.tearsDown = true ∧ (s.caller = .construct ∨ ∃ result, s.caller = .destroy result)

omit [AddMonoid T] in
theorem advanceOwner_torn {p p' : ThreadPool.State n Unit ℕ} (hs : advanceOwner p = some p')
    (torn : p.owner.tearsDown = true) : p'.owner.tearsDown = true := by
  cases advanceOwner_step hs with
  | constructed ho =>
    rw [ho] at torn
    cases torn
  | shutdown | destroyed | joins | joined => rfl
  | destroys =>
    dsimp only
    split <;> rfl

/-- What the pool can do by itself, it can do here. -/
theorem path_pool {p p' : ThreadPool.State n Unit ℕ} {ls : List (ThreadPool.Label n Unit ℕ)}
    (path : (ThreadPool.machine n Unit ℕ).PathBy ThreadPool.Calm p ls p') (here : s.pool = p)
    (free : ∀ l ∈ ls, l.isInside = true ∨ l = .owner ∧ MayShut s) :
    ∃ t, (machine n garbage xs init).PathBy Calm s (ls.map .pool) t ∧ t.pool = p' ∧
      t.caller = s.caller := by
  induction path generalizing s with
  | nil => exact ⟨s, .nil, here, rfl⟩
  | @cons p r p' l rest meets step _ ih =>
    subst here
    have may : mayMove s l = true := by
      rcases free l List.mem_cons_self with inside | ⟨rfl, torn, caller⟩
      · cases l with
        | work | queue => rfl
        | _ => cases inside
      · rcases caller with hc | ⟨result, hc⟩
        · have other : s.pool.owner ≠ .use := fun wrong => by
            rw [wrong] at torn
            cases torn
          simp [mayMove, hc, other]
        · simp only [mayMove, hc]
    let s' : State n T := { s with pool := r, futures := setFutures garbage xs s l }
    have moved : (machine n garbage xs init).next s (.pool l) = some s' := by
      have step' : ThreadPool.next s.pool l = some r := step
      simp only [machine, next, may, step', if_true, Option.map_some]
      rfl
    have later : ∀ l ∈ rest, l.isInside = true ∨ l = .owner ∧ MayShut s' := by
      intro l' hl
      refine (free l' (List.mem_cons_of_mem _ hl)).imp_right fun owner => ⟨owner.1, ?_, owner.2.2⟩
      rcases free l List.mem_cons_self with inside | ⟨rfl, torn, -⟩
      · change r.owner.tearsDown = true
        rw [(inside_keeps inside step).1]
        exact owner.2.1
      · exact advanceOwner_torn step torn
    obtain ⟨t, path, pool, caller⟩ := ih (s := s') rfl later
    exact ⟨t, .cons meets moved path, pool, caller⟩

/-! ### The calling thread goes on -/

/-- The pool dies while the calling thread waits for its workers. -/
theorem path_shutdown (h : Inv garbage xs init s) (may : MayShut s) :
    ∃ ls t, (machine n garbage xs init).PathBy Calm s ls t ∧ t.pool.owner = .gone ∧
      t.caller = s.caller := by
  obtain ⟨ls, p, path, steps, gone⟩ := shutdown_ends h.pool may.1
  obtain ⟨t, path', pool, caller⟩ := path_pool path rfl fun l hl => (steps l hl).imp_right fun e => ⟨e, may⟩
  exact ⟨ls.map .pool, t, path', by rw [pool]; exact gone, caller⟩

/-- A step of the calling thread alone. -/
theorem CanEnd.of_caller (moved : advanceCaller garbage xs init s = some s')
    (later : CanEnd garbage xs init s') : CanEnd garbage xs init s := by
  have calm : Calm s (.caller : Label n) := trivial
  have step : next garbage xs init s .caller = some s' := moved
  exact .of_step calm step later

theorem CanEnd.of_ended (ended : s.caller.ended = true) : CanEnd garbage xs init s :=
  ⟨[], s, .nil, ended⟩

/-- A failed construction, or the shutdown that has begun. -/
theorem torn_ends (h : Inv garbage xs init s) (may : MayShut s) : CanEnd garbage xs init s := by
  obtain ⟨ls, t, path, gone, caller⟩ := path_shutdown h may
  refine .after path ?_
  rcases may.2 with hc | ⟨result, hc⟩
  · have step : advanceCaller garbage xs init t = some { t with caller := .thrown } := by
      simp only [advanceCaller, caller, hc, gone]
    exact .of_caller step (.of_ended rfl)
  · have step : advanceCaller garbage xs init t = some { t with caller := .returned result } := by
      simp only [advanceCaller, caller, hc, gone]
    exact .of_caller step (.of_ended rfl)

theorem destroy_ends (h : Inv garbage xs init s) {result : T} (hc : s.caller = .destroy result) :
    CanEnd garbage xs init s := by
  have fact := h.fact
  rw [hc] at fact
  by_cases torn : s.pool.owner.tearsDown = true
  · exact torn_ends h ⟨torn, Or.inr ⟨result, hc⟩⟩
  · have inUse : s.pool.owner = .use := by
      cases ho : s.pool.owner with
      | use => rfl
      | spawn i => exact absurd ho (fact.1 i)
      | _ =>
        rw [ho] at torn
        exact absurd rfl torn
    have may : mayMove s .owner = true := by simp only [mayMove, hc]
    have shuts : ThreadPool.next s.pool .owner = some (shutdown s.pool) := by
      simp only [ThreadPool.next, advanceOwner, inUse]
    have step : next garbage xs init s (.pool .owner) = some { s with pool := shutdown s.pool } := by
      simp only [next, may, shuts, if_true, Option.map_some]
      rfl
    have calm : Calm s (.pool .owner) := fun m members _ wrong => by
      rw [inUse] at wrong
      cases wrong
    exact .of_step calm step (torn_ends (h.next step) ⟨rfl, Or.inr ⟨result, hc⟩⟩)

/-- All futures are ready. -/
theorem get_ends (h : Inv garbage xs init s) {i : ℕ} {result : T} (hc : s.caller = .get i result)
    (ready : ∀ j, j < submitted xs → ∃ value, s.futures j = some value) : CanEnd garbage xs init s := by
  induction left : submitted xs - i generalizing s i result with
  | zero =>
    have done : ¬ i < submitted xs := by omega
    have step : advanceCaller garbage xs init s =
        some { s with caller := .destroy (result + lastResult garbage xs) } := by
      simp only [advanceCaller, hc, if_neg done]
    exact .of_caller step (destroy_ends (h.caller_step step) rfl)
  | succ k ih =>
    have more : i < submitted xs := by omega
    obtain ⟨value, hv⟩ := ready i more
    have step : advanceCaller garbage xs init s =
        some { s with caller := .get (i + 1) (result + value) } := by
      simp only [advanceCaller, hc, if_pos more, hv, Option.map_some]
    exact .of_caller step (ih (h.caller_step step) rfl ready (by omega))

/-- The workers run all tasks before the first future is looked at. -/
theorem pool_runs (reached : (machine n garbage xs init).Reach s) {i : ℕ} {result : T}
    (hc : s.caller = .get i result) (staffed : 0 < n) :
    ∃ ls t, (machine n garbage xs init).PathBy Calm s ls t ∧
      t.caller = s.caller ∧ ∀ j, j < submitted xs → ∃ value, t.futures j = some value := by
  have h := reach_inv reached
  have fact := h.fact
  have begun := h.begun
  have rest := h.rest (by rw [hc]; rfl)
  rw [hc] at fact begun
  rw [ThreadSafeQueue.Call.pushing_atRest rest, List.append_nil] at begun
  obtain ⟨ls, p, run, inside, -, kept, ran⟩ := can_run_all h.pool fact.2.1 staffed
  have path := Machine.PathBy.of_exec (fun l hl => Label.isInside.calm (inside l hl)) run
  obtain ⟨t, path', pool, caller⟩ := path_pool path rfl fun l hl => Or.inl (inside l hl)
  refine ⟨ls.map .pool, t, path', caller, fun j hj => ?_⟩
  have h' := reach_inv (path'.reach reached)
  have done : j ∈ order t := by
    have queued : j ∈ s.pool.queue.pushed.map Prod.snd := by
      rw [begun]
      exact List.mem_range.mpr hj
    obtain ⟨e, he, rfl⟩ := List.mem_map.mp queued
    have later : some e.2 ∈ p.queue.pushed.map fun e => some e.2 :=
      List.mem_map.mpr ⟨e, kept.subset he, rfl⟩
    obtain ⟨r, hr, same⟩ := List.mem_map.mp (ran.mem_iff.mpr later)
    rw [order, pool]
    exact List.mem_filterMap.mpr ⟨r, hr, same⟩
  have task : j < (submitBlocks (submitted xs) 0).1.length := by
    rw [submitBlocks_length]
    exact hj
  rw [h'.futures, runTasks_apply, if_pos done, List.getElem?_eq_getElem task]
  exact ⟨_, rfl⟩

/-- The futures are waited for. -/
theorem wait_ends (reached : (machine n garbage xs init).Reach s) {i : ℕ} {result : T}
    (hc : s.caller = .get i result) (able : 0 < n ∨ submitted xs = 0) : CanEnd garbage xs init s := by
  rcases able with staffed | none
  · obtain ⟨ls, t, path, caller, ready⟩ := pool_runs reached hc staffed
    exact .after path (get_ends (reach_inv (path.reach reached)) (caller.trans hc) ready)
  · exact get_ends (reach_inv reached) hc fun j hj => by omega

/-- The call of `submit` ends. -/
theorem push_ends (reached : (machine n garbage xs init).Reach s) {i : ℕ} (hc : s.caller = .push i) :
    ∃ ls t, (machine n garbage xs init).PathBy Calm s ls t ∧ t.caller = .submit (i + 1) := by
  obtain ⟨ls, p, run, inside, home⟩ := reach_home (reach_inv reached).pool
  have path := Machine.PathBy.of_exec (fun l hl => Label.isInside.calm (inside l hl)) run
  obtain ⟨t, path', pool, caller⟩ := path_pool path rfl fun l hl => Or.inl (inside l hl)
  have rest : (t.pool.queue.call (.inr ())).atRest = true := by
    rw [pool]
    exact home.rest _
  have moved : (machine n garbage xs init).next t .caller = some { t with caller := .submit (i + 1) } := by
    simp only [machine, next, advanceCaller, caller, hc, if_pos rest]
  have calm : Calm t (.caller : Label n) := trivial
  exact ⟨ls.map .pool ++ [.caller], _, path'.append (.single calm moved), rfl⟩

/-- The blocks that are left are submitted. -/
theorem submit_ends (reached : (machine n garbage xs init).Reach s) {i : ℕ}
    (hc : s.caller = .submit i) (able : 0 < n ∨ submitted xs = 0) : CanEnd garbage xs init s := by
  induction left : submitted xs - i generalizing s i with
  | zero =>
    have done : ¬ i < submitted xs := by omega
    have step : (machine n garbage xs init).next s .caller = some { s with caller := .get 0 init } := by
      simp only [machine, next, advanceCaller, hc, if_neg done]
    exact .of_caller step (wait_ends (reached.next trivial step) rfl able)
  | succ k ih =>
    have more : i < submitted xs := by omega
    have h := reach_inv reached
    have fact := h.fact
    rw [hc] at fact
    have rest := h.rest (by rw [hc]; rfl)
    have may : maySubmit s.pool (.inr ()) = true := decide_eq_true fact.2
    have submits : submit s.pool (.inr ()) i = some { s.pool with
        queue := s.pool.queue.setCall (.inr ()) (.pushAlloc i) } := by
      rw [submit, if_pos may, ThreadSafeQueue.next, if_pos rest]
      rfl
    have step : (machine n garbage xs init).next s .caller = some { s with
        pool := { s.pool with queue := s.pool.queue.setCall (.inr ()) (.pushAlloc i) }
        caller := .push i } := by
      simp only [machine, next, advanceCaller, hc, if_pos more, submits, Option.map_some]
    have reached' := reached.next trivial step
    obtain ⟨ls, t, path, later⟩ := push_ends (i := i) reached' rfl
    exact .of_caller step (.after path (ih (path.reach reached') later (by omega)))

/-- The workers that are left are started. -/
theorem construct_ends (reached : (machine n garbage xs init).Reach s) (hc : s.caller = .construct)
    (able : 0 < n ∨ submitted xs = 0) : CanEnd garbage xs init s := by
  have inUse {s : State n T} (reached : (machine n garbage xs init).Reach s)
      (hc : s.caller = .construct) (ho : s.pool.owner = .use) : CanEnd garbage xs init s := by
    have step : (machine n garbage xs init).next s .caller = some { s with caller := .submit 0 } := by
      simp only [machine, next, advanceCaller, hc, ho]
    exact .of_caller step (submit_ends (reached.next trivial step) rfl able)
  have spawns (k : ℕ) {s : State n T} (reached : (machine n garbage xs init).Reach s)
      (hc : s.caller = .construct) {i : ℕ} (ho : s.pool.owner = .spawn i) (left : n - i = k) :
      CanEnd garbage xs init s := by
    induction k generalizing s i with
    | zero =>
      have built : ¬ i < n := by omega
      have step : (machine n garbage xs init).next s (.pool .owner) =
          some { s with pool := { s.pool with owner := .use } } := by
        simp [machine, next, mayMove, hc, ho, ThreadPool.next, advanceOwner, built, setFutures]
      have calm : Calm s (.pool .owner) := fun m members _ wrong => by
        rw [ho] at wrong
        cases wrong
      exact .of_step calm step (inUse (reached.next trivial step) hc rfl)
    | succ k ih =>
      have more : i < n := by omega
      let grown : State n T := { s with pool := { s.pool.setWorker ⟨i, more⟩ .readDone with
        threads := i + 1
        owner := .spawn (i + 1) } }
      have step : (machine n garbage xs init).next s (.pool (.spawn true)) = some grown := by
        simp [machine, next, mayMove, ho, ThreadPool.next, spawn, more, setFutures, grown]
      have calm : Calm s (.pool (.spawn true)) := fun m members wrong => by cases wrong
      exact .of_step calm step (ih (reached.next trivial step) hc rfl (by omega))
  cases ho : s.pool.owner with
  | spawn i => exact spawns (n - i) reached hc ho rfl
  | use => exact inUse reached hc ho
  | destroy | join | gone => exact torn_ends (reach_inv reached) ⟨by rw [ho]; rfl, Or.inl hc⟩

/-! ### When it returns -/

omit [AddMonoid T] in
theorem submitted_eq_zero (xs : List T) : submitted xs = 0 ↔ xs.length ≤ 25 := by
  unfold submitted numBlocks blockSize
  omega

/-- Without a worker nothing is run, and no future is ever ready. -/
theorem futures_none {s : State 0 T} (reached : (machine 0 garbage xs init).Reach s) (i : ℕ) :
    s.futures i = none := by
  have none : order s = [] := by
    rw [order, ran_nil rfl s.pool]
    rfl
  rw [(reach_inv reached).futures, none]
  rfl

/-- So nothing that waits for a future can go on. -/
theorem nothing_ends {s : State 0 T} (reached : (machine 0 garbage xs init).Reach s)
    (waits : 0 < submitted xs) : s.caller.ended = false := by
  have h := reach_inv reached
  have fact := h.fact
  cases hc : s.caller with
  | thrown =>
    rw [hc] at fact
    exact absurd fact (Nat.lt_irrefl 0)
  | returned result =>
    rw [hc] at fact
    rcases fact with ⟨empty, -⟩ | ⟨-, sum, gathered, -⟩
    · have few : submitted xs = 0 := by simp [submitted, empty, numBlocks, blockSize]
      omega
    · obtain ⟨value, ready⟩ := ready_of_gather gathered (Nat.zero_le 0) (by omega)
      rw [futures_none reached] at ready
      cases ready
  | _ => rfl

/-- From wherever a run has led, as long as the pool dies calmly, the call can still end,
exactly if there is a worker or the sequence has at most one block. With no worker and more
than one block no future is ever ready and no run ends. -/
theorem can_end_iff (n : ℕ) (garbage : ℕ → T) (xs : List T) (init : T) :
    ((∀ s, (machine n garbage xs init).ReachBy Calm s → ∃ ls t,
      (machine n garbage xs init).exec s ls = some t ∧
        (machine n garbage xs init).ReachBy Calm t ∧ t.caller.ended = true) ↔
      0 < n ∨ xs.length ≤ 25) ∧
    (n = 0 → 25 < xs.length → ∀ s, (machine n garbage xs init).Reach s →
      (∀ i, s.futures i = none) ∧ s.caller.ended = false) := by
  rw [← submitted_eq_zero]
  refine ⟨⟨?_, ?_⟩, ?_⟩
  · intro all
    by_contra stuck
    obtain ⟨idle, waits⟩ := not_or.mp stuck
    obtain rfl : n = 0 := by omega
    obtain ⟨ls, t, -, reached, ended⟩ := all _ .start
    rw [nothing_ends reached.reach (by omega)] at ended
    cases ended
  · intro able s reached
    have ends : CanEnd garbage xs init s := by
      have h := reach_inv reached.reach
      cases hc : s.caller with
      | construct => exact construct_ends reached.reach hc able
      | submit i => exact submit_ends reached.reach hc able
      | push i =>
        obtain ⟨ls, t, path, later⟩ := push_ends reached.reach hc
        exact .after path (submit_ends (path.reachBy reached).reach later able)
      | get i result => exact wait_ends reached.reach hc able
      | destroy result => exact destroy_ends h hc
      | returned | thrown => exact .of_ended (by rw [hc]; rfl)
    obtain ⟨ls, t, path, ended⟩ := ends
    exact ⟨ls, t, path.exec, path.reachBy reached, ended⟩
  · rintro rfl several s reached
    have waits : submitted xs ≠ 0 := mt (submitted_eq_zero xs).mp (Nat.not_le.mpr several)
    exact ⟨futures_none reached, nothing_ends reached (Nat.pos_of_ne_zero waits)⟩

end ParallelAccumulate
