import CppConcurrency.ThreadPoolAccumulate
import CppConcurrency.ThreadPoolProgress

/-!
# `parallel_accumulate` as a thread beside the pool

The calling thread constructs the pool, submits the blocks one after the other, waits for
the futures in the order of the blocks and destroys the pool. The workers run meanwhile,
step by step, as they do in any pool. Tasks and futures are numbered by their blocks, and
what the calling thread returns is what the sequential reading of the code computes for the
order in which the workers happened to end the tasks.
-/

namespace ThreadSafeQueue

universe u v

variable {Tid : Type v} {T : Type u}

/-- What the call is still to append to the queue. -/
def Call.pushing : Call T → List T
  | .pushAlloc data | .pushLock data _ | .pushData data _ | .pushNext data _ | .pushTail data _ =>
    [data]
  | _ => []

theorem Call.pushing_atRest {c : Call T} (rest : c.atRest = true) : c.pushing = [] := by
  cases c with
  | rest | pushReturn | popReturn => rfl
  | _ => cases rest

variable [DecidableEq Tid] {s s' : State Tid T} {t u : Tid} {l : Label Tid T} {front : Addr}
  {nodes : List (Addr × T)}

theorem setCall_other (s : State Tid T) (other : u ≠ t) (c : Call T) :
    (s.setCall t c).call u = s.call u := Function.update_of_ne other _ _

theorem Inv.advance_pushing (h : Inv front nodes s) (hs : ThreadSafeQueue.advance s t = some s') :
    ∃ new, s'.pushed.map Prod.snd = s.pushed.map Prod.snd ++ new ∧
      (s.call t).pushing = new ++ (s'.call t).pushing := by
  obtain ⟨front', nodes', h'⟩ := h.advance hs
  have defined : s'.call t ≠ .undefined := h'.defined
  unfold ThreadSafeQueue.advance at hs
  cases hc : s.call t with
  | rest | pushAlloc | pushNotify | pushReturn | blocked | popReturn | undefined =>
    simp only [hc] at hs
    cases hs
  | pushLock | lockHead | woken | lockTail =>
    simp only [hc] at hs
    obtain ⟨-, ⟨⟩⟩ := Option.ite_none_left_eq_some.mp hs
    exact ⟨[], (List.append_nil _).symm, by rw [setCall_self]; rfl⟩
  | pushTail data p =>
    simp only [hc] at hs
    obtain rfl := Option.some.inj hs
    exact ⟨[data], by simp [State.setCall], by rw [setCall_self]; rfl⟩
  | refuse | block =>
    simp only [hc] at hs
    obtain rfl := Option.some.inj hs
    exact ⟨[], (List.append_nil _).symm, by rw [setCall_self]; rfl⟩
  | readTail pop =>
    simp only [hc] at hs
    obtain rfl := Option.some.inj hs
    refine ⟨[], (List.append_nil _).symm, ?_⟩
    rw [setCall_self]
    split
    · split <;> rfl
    · split <;> rfl
  | pushData | pushNext | copy | takeHead | relink | finish =>
    simp only [hc] at hs
    split at hs
    all_goals obtain rfl := Option.some.inj hs
    · exact ⟨[], (List.append_nil _).symm, by rw [setCall_self]; rfl⟩
    · exact absurd (setCall_self ..) defined

/-- A step inside a call appends what the call was to append. -/
theorem Inv.next_pushing [Fintype Tid] (h : Inv front nodes s) (hs : ThreadSafeQueue.next s l = some s')
    (inside : l.isInvoke = false) :
    (∀ u, u ≠ l.thread → (s'.call u).pushing = (s.call u).pushing) ∧ ∃ new,
      s'.pushed.map Prod.snd = s.pushed.map Prod.snd ++ new ∧
        (s.call l.thread).pushing = new ++ (s'.call l.thread).pushing := by
  have others {t u : Tid} {c : Call T} (other : u ≠ t) :
      ((s.setCall t c).call u).pushing = (s.call u).pushing :=
    congrArg Call.pushing (setCall_other s other c)
  cases next_step hs with
  | invoke => cases inside
  | alloc hc | notifyNobody hc | spurious hc =>
    refine ⟨fun u other => others other, [], (List.append_nil _).symm, ?_⟩
    rw [Label.thread, hc, setCall_self]
    rfl
  | @notifyOne t v pop hc hv =>
    have different : t ≠ v := by
      rintro rfl
      rw [hc] at hv
      cases hv
    refine ⟨fun u other => ?_, [], (List.append_nil _).symm, ?_⟩
    · by_cases woken : u = v
      · rw [woken, setCall_self, hv]
        rfl
      · exact (congrArg Call.pushing (Function.update_of_ne woken _ _)).trans (others other)
    · have same : ((s.setCall t .pushReturn).setCall v (.woken pop)).call t = .pushReturn :=
        (Function.update_of_ne different _ _).trans (setCall_self ..)
      rw [Label.thread, hc, same]
      rfl
  | step moved =>
    exact ⟨fun u other => congrArg Call.pushing (advance_other moved other), h.advance_pushing moved⟩

end ThreadSafeQueue

namespace ParallelAccumulate

open Machines ThreadPool

universe u

/-- Where the calling thread stands: each state is named after what it does next. `push` is
inside the call of `submit`, and `get` waits for `futures[i]`. -/
inductive Caller (T : Type u) where
  | construct
  | submit (i : ℕ)
  | push (i : ℕ)
  | get (i : ℕ) (result : T)
  | destroy (result : T)
  | returned (result : T)
  | thrown
  deriving DecidableEq

/-- The pool that the function owns, with the calling thread as its only client, the
futures that are ready, and the calling thread. -/
structure State (n : ℕ) (T : Type u) where
  pool : ThreadPool.State n Unit ℕ
  futures : ℕ → Option T
  caller : Caller T

inductive Label (n : ℕ) where
  | pool (l : ThreadPool.Label n Unit ℕ)
  | caller

section

variable {n : ℕ} {T : Type u}

/-- `num_blocks - 1`, the number of blocks that are submitted. -/
def submitted (xs : List T) : ℕ := numBlocks xs.length - 1

/-- The pool moves by itself, but only the calling thread submits, and it lets the pool die
when it has every result. -/
def mayMove (s : State n T) : ThreadPool.Label n Unit ℕ → Bool
  | .spawn _ | .work _ | .queue _ => true
  | .submit _ _ => false
  | .owner => match s.caller with
    | .construct => s.pool.owner ≠ .use
    | .destroy _ => true
    | _ => false

variable [AddMonoid T] (garbage : ℕ → T) (xs : List T) (init : T)

/-- A worker that ends a task makes its future ready. -/
def setFutures (s : State n T) : ThreadPool.Label n Unit ℕ → ℕ → Option T
  | .work w => match s.pool.worker w with
    | .task (some i) => runTask garbage xs (submitBlocks (submitted xs) 0).1 s.futures i
    | _ => s.futures
  | _ => s.futures

/-- What the calling thread computes itself. -/
def lastResult : T :=
  accumulateBlock (garbage (submitted xs)) xs ⟨(submitBlocks (submitted xs) 0).2, xs.length⟩

def advanceCaller (s : State n T) : Option (State n T) :=
  match s.caller with
  | .construct => match s.pool.owner with
    | .use => some { s with caller := .submit 0 }
    -- a thread could not be started
    | .gone => some { s with caller := .thrown }
    | _ => none
  | .submit i =>
    if i < submitted xs then
      (ThreadPool.submit s.pool (.inr ()) i).map fun pool => { s with pool := pool, caller := .push i }
    else some { s with caller := .get 0 init }
  | .push i =>
    if (s.pool.queue.call (.inr ())).atRest then some { s with caller := .submit (i + 1) } else none
  | .get i result =>
    if i < submitted xs then
      (s.futures i).map fun value => { s with caller := .get (i + 1) (result + value) }
    else some { s with caller := .destroy (result + lastResult garbage xs) }
  | .destroy result => match s.pool.owner with
    | .gone => some { s with caller := .returned result }
    | _ => none
  | .returned _ | .thrown => none

def next (s : State n T) : Label n → Option (State n T)
  | .pool l =>
    if mayMove s l then
      (ThreadPool.next s.pool l).map fun pool =>
        { s with pool := pool, futures := setFutures garbage xs s l }
    else none
  | .caller => advanceCaller garbage xs init s

end

/-- `parallel_accumulate` on the sequence `xs`, where `hardware_concurrency()` returns `n`
and `garbage i` is what the variable `res` of block `i` happens to hold. -/
def machine (n : ℕ) {T : Type u} [AddMonoid T] (garbage : ℕ → T) (xs : List T) (init : T) :
    Machine (State n T) (Label n) where
  start :=
    { pool := (ThreadPool.machine n Unit ℕ).start
      futures := fun _ => none
      caller := if xs.length = 0 then .returned init else .construct }
  next := next garbage xs init

/-! ### What the calling thread may rely on -/

section

variable {n : ℕ} {T : Type u} [AddMonoid T] {garbage : ℕ → T} {xs : List T} {init : T}
  {s s' : State n T}

/-- How many blocks the calling thread has submitted or is about to append to the queue. -/
def Caller.begun (all : ℕ) : Caller T → ℕ
  | .construct | .thrown => 0
  | .submit i => i
  | .push i => i + 1
  | .get _ _ | .destroy _ | .returned _ => all

/-- The calling thread is inside the call of `submit`. -/
def Caller.isPush : Caller T → Bool
  | .push _ => true
  | _ => false

def Caller.ended : Caller T → Bool
  | .returned _ | .thrown => true
  | _ => false

/-- The tasks that were run to their end, in order. -/
def order (s : State n T) : List ℕ := s.pool.ran.filterMap Prod.snd

/-- All futures are added up and the last block is, too. -/
def Total (garbage : ℕ → T) (xs : List T) (init : T) (futures : ℕ → Option T) (result : T) : Prop :=
  ∃ sum, gather futures (submitted xs) 0 init = some sum ∧ result = sum + lastResult garbage xs

def Fact (garbage : ℕ → T) (xs : List T) (init : T) (s : State n T) : Caller T → Prop
  | .construct => s.pool.owner.tearsDown = true → 0 < n
  | .submit i => i ≤ submitted xs ∧ s.pool.owner = .use
  | .push i => i < submitted xs ∧ s.pool.owner = .use
  | .get i result => i ≤ submitted xs ∧ s.pool.owner = .use ∧ gather s.futures i 0 init = some result
  | .destroy result => (∀ i, s.pool.owner ≠ .spawn i) ∧ Total garbage xs init s.futures result
  | .returned result => xs = [] ∧ result = init ∨ xs ≠ [] ∧ Total garbage xs init s.futures result
  | .thrown => 0 < n

structure Inv (garbage : ℕ → T) (xs : List T) (init : T) (s : State n T) : Prop where
  empty : xs = [] → s.caller = .returned init
  pool : (ThreadPool.machine n Unit ℕ).Reach s.pool
  workers : ∀ w, (s.pool.queue.call (.inl w)).pushing = []
  begun : s.pool.queue.pushed.map Prod.snd ++ (s.pool.queue.call (.inr ())).pushing =
    List.range (s.caller.begun (submitted xs))
  rest : s.caller.isPush = false → (s.pool.queue.call (.inr ())).atRest = true
  futures : s.futures =
    (order s).foldl (runTask garbage xs (submitBlocks (submitted xs) 0).1) fun _ => none
  fact : Fact garbage xs init s s.caller

/-! ### Steps of the pool -/

/-- No step of the pool but a submission changes what is queued or on its way there. -/
theorem pool_pushing {p p' : ThreadPool.State n Unit ℕ} {l : ThreadPool.Label n Unit ℕ}
    (reached : (ThreadPool.machine n Unit ℕ).Reach p)
    (workers : ∀ w, (p.queue.call (.inl w)).pushing = []) (hs : ThreadPool.next p l = some p')
    (inside : ∀ t i, l ≠ .submit t i) :
    (∀ w, (p'.queue.call (.inl w)).pushing = []) ∧
      p'.queue.pushed.map Prod.snd ++ (p'.queue.call (.inr ())).pushing =
        p.queue.pushed.map Prod.snd ++ (p.queue.call (.inr ())).pushing := by
  cases l with
  | spawn ok => cases spawn_step hs <;> exact ⟨workers, rfl⟩
  | owner =>
    obtain ⟨queue, -, -⟩ := advanceOwner_keeps hs
    rw [queue]
    exact ⟨workers, rfl⟩
  | submit t i => exact absurd rfl (inside t i)
  | work w =>
    cases workThread_step hs with
    | calls hw goesOn called =>
      cases ThreadSafeQueue.next_step called with
      | invoke rest op =>
        have own := ThreadSafeQueue.setCall_self p.queue (.inl w) (.lockHead .tryPopInto)
        have others := fun (t : Thread n Unit) (other : t ≠ .inl w) =>
          ThreadSafeQueue.setCall_other p.queue other (.lockHead .tryPopInto)
        refine ⟨fun v => ?_, ?_⟩
        · by_cases here : v = w
          · rw [here]
            exact congrArg ThreadSafeQueue.Call.pushing own
          · have other : (.inl v : Thread n Unit) ≠ .inl w := fun same => here (Sum.inl.inj same)
            exact (congrArg ThreadSafeQueue.Call.pushing (others _ other)).trans (workers v)
        · have same := congrArg ThreadSafeQueue.Call.pushing (others (.inr ()) Sum.inr_ne_inl)
          exact congrArg (p.queue.pushed.map Prod.snd ++ ·) same
    | _ => exact ⟨workers, rfl⟩
  | queue l =>
    obtain ⟨noCall, hs⟩ := Option.ite_none_left_eq_some.mp hs
    obtain ⟨q, step, rfl⟩ := Option.map_eq_some_iff.mp hs
    obtain ⟨queue, -, -⟩ := reach_tasks reached
    obtain ⟨front, nodes, inv⟩ := ThreadSafeQueue.reach_inv queue
    obtain ⟨others, new, pushed, mine⟩ := inv.next_pushing step (Bool.not_eq_true _ ▸ noCall)
    cases ht : l.thread with
    | inl w =>
      rw [ht, workers w] at mine
      obtain ⟨rfl, done⟩ := List.append_eq_nil_iff.mp mine.symm
      refine ⟨fun v => ?_, ?_⟩
      · by_cases here : v = w
        · rw [here]
          exact done
        · have other : (.inl v : Thread n Unit) ≠ l.thread := by
            rw [ht]
            exact fun same => here (Sum.inl.inj same)
          exact (others _ other).trans (workers v)
      · have other : (.inr () : Thread n Unit) ≠ l.thread := by
          rw [ht]
          exact Sum.inr_ne_inl
        rw [pushed, others _ other, List.append_nil]
    | inr c =>
      refine ⟨fun v => ?_, ?_⟩
      · have other : (.inl v : Thread n Unit) ≠ l.thread := by
          rw [ht]
          exact Sum.inl_ne_inr
        exact (others _ other).trans (workers v)
      · rw [ht] at mine
        rw [pushed, List.append_assoc]
        exact congrArg _ mine.symm

/-- The calling thread is inside a call only where it submits. -/
theorem pool_rest {p p' : ThreadPool.State n Unit ℕ} {l : ThreadPool.Label n Unit ℕ}
    (rest : (p.queue.call (.inr ())).atRest = true) (hs : ThreadPool.next p l = some p')
    (inside : ∀ t i, l ≠ .submit t i) : (p'.queue.call (.inr ())).atRest = true := by
  cases l with
  | spawn ok => cases spawn_step hs <;> exact rest
  | owner =>
    obtain ⟨queue, -, -⟩ := advanceOwner_keeps hs
    rw [queue]
    exact rest
  | submit t i => exact absurd rfl (inside t i)
  | work w =>
    cases workThread_step hs with
    | calls hw goesOn called =>
      have same := ThreadSafeQueue.next_other called (u := .inr ()) Sum.inr_ne_inl rest
      exact (congrArg _ same).trans rest
    | _ => exact rest
  | queue l =>
    obtain ⟨noCall, hs⟩ := Option.ite_none_left_eq_some.mp hs
    obtain ⟨q, step, rfl⟩ := Option.map_eq_some_iff.mp hs
    by_cases mine : l.thread = .inr ()
    · rw [ThreadSafeQueue.next_atRest (by rw [mine]; exact rest) (Bool.not_eq_true _ ▸ noCall)] at step
      cases step
    · have same := ThreadSafeQueue.next_other step (Ne.symm mine) rest
      exact (congrArg _ same).trans rest

/-- The futures that are ready are those of the tasks that were run. -/
theorem pool_futures {p' : ThreadPool.State n Unit ℕ} {l : ThreadPool.Label n Unit ℕ}
    (futures : s.futures =
      (order s).foldl (runTask garbage xs (submitBlocks (submitted xs) 0).1) fun _ => none)
    (hs : ThreadPool.next s.pool l = some p') :
    (∃ new, p'.ran.filterMap Prod.snd = order s ++ new) ∧
      setFutures garbage xs s l = (p'.ran.filterMap Prod.snd).foldl
        (runTask garbage xs (submitBlocks (submitted xs) 0).1) fun _ => none := by
  have same (ran : p'.ran = s.pool.ran) (quiet : setFutures garbage xs s l = s.futures) :
      (∃ new, p'.ran.filterMap Prod.snd = order s ++ new) ∧
        setFutures garbage xs s l = (p'.ran.filterMap Prod.snd).foldl
          (runTask garbage xs (submitBlocks (submitted xs) 0).1) fun _ => none := by
    rw [quiet, ran, futures]
    exact ⟨⟨[], (List.append_nil _).symm⟩, rfl⟩
  cases l with
  | spawn ok => cases spawn_step hs <;> exact same rfl rfl
  | owner => exact same (advanceOwner_keeps hs).2.2 rfl
  | submit t i =>
    obtain ⟨-, hs⟩ := Option.ite_none_right_eq_some.mp hs
    obtain ⟨q, -, rfl⟩ := Option.map_eq_some_iff.mp hs
    exact same rfl rfl
  | queue l =>
    obtain ⟨-, hs⟩ := Option.ite_none_left_eq_some.mp hs
    obtain ⟨q, -, rfl⟩ := Option.map_eq_some_iff.mp hs
    exact same rfl rfl
  | work w =>
    cases workThread_step hs with
    | leaves hw | calls hw | obtains hw | misses hw | yields hw =>
      exact same rfl (by simp only [setFutures, hw])
    | @finishes task hw rest =>
      cases task with
      | none =>
        refine ⟨⟨[], by simp [order, List.filterMap_append]⟩, ?_⟩
        simp [setFutures, hw, futures, order, List.filterMap_append]
      | some i =>
        refine ⟨⟨[i], by simp [order, List.filterMap_append]⟩, ?_⟩
        simp [setFutures, hw, futures, order, List.filterMap_append, List.foldl_append]

/-! ### Adding up the futures -/

theorem futures_kept {order new : List ℕ} {tasks : List Block} {i : ℕ} {value : T}
    (ready : order.foldl (runTask garbage xs tasks) (fun _ => none) i = some value) :
    (order ++ new).foldl (runTask garbage xs tasks) (fun _ => none) i = some value := by
  rw [runTasks_apply] at ready ⊢
  by_cases run : i ∈ order
  · rw [if_pos run] at ready
    rw [if_pos (List.mem_append_left _ run)]
    exact ready
  · rw [if_neg run] at ready
    cases ready

theorem gather_concat (futures : ℕ → Option T) (i k : ℕ) (result : T) :
    gather futures (i + 1) k result =
      (gather futures i k result).bind fun sum => (futures (k + i)).map (sum + ·) := by
  induction i generalizing k result with
  | zero =>
    cases h : futures k <;> simp [gather, h]
  | succ i ih =>
    rw [gather]
    cases h : futures k with
    | none => simp [gather, h]
    | some value =>
      have place : k + 1 + i = k + (i + 1) := by omega
      simp only [Option.bind_some]
      rw [ih, place]
      simp [gather, h]

theorem gather_kept {futures futures' : ℕ → Option T}
    (kept : ∀ i value, futures i = some value → futures' i = some value) {i k : ℕ} {result sum : T}
    (gathered : gather futures i k result = some sum) : gather futures' i k result = some sum := by
  induction i generalizing k result with
  | zero => exact gathered
  | succ i ih =>
    obtain ⟨value, ready, later⟩ := Option.bind_eq_some_iff.mp gathered
    rw [gather, kept k value ready, Option.bind_some]
    exact ih later

/-- Whoever has added up the first futures has seen them ready. -/
theorem ready_of_gather {futures : ℕ → Option T} {i k : ℕ} {result sum : T}
    (gathered : gather futures i k result = some sum) {j : ℕ} (low : k ≤ j) (high : j < k + i) :
    ∃ value, futures j = some value := by
  induction i generalizing k result with
  | zero => omega
  | succ i ih =>
    obtain ⟨value, ready, later⟩ := Option.bind_eq_some_iff.mp gathered
    by_cases here : j = k
    · exact ⟨value, here ▸ ready⟩
    · exact ih later (by omega) (by omega)

/-! ### The invariant -/

theorem start_inv : Inv garbage xs init (machine n garbage xs init).start where
  empty none := by simp [machine, none]
  pool := .start
  workers _ := rfl
  begun := by
    by_cases none : xs.length = 0
    · simp [machine, none, Caller.begun, submitted, numBlocks, blockSize, ThreadPool.machine,
        ThreadSafeQueue.machine, ThreadSafeQueue.Call.pushing]
    · simp [machine, none, Caller.begun, ThreadPool.machine, ThreadSafeQueue.machine,
        ThreadSafeQueue.Call.pushing]
  rest _ := rfl
  futures := rfl
  fact := by
    by_cases none : xs.length = 0
    · simp [machine, Fact, List.length_eq_zero_iff.mp none]
    · simp [machine, none, Fact, ThreadPool.machine, Owner.tearsDown]

/-- The pool takes a step of its own. -/
theorem Inv.pool_step (h : Inv garbage xs init s) {l : ThreadPool.Label n Unit ℕ}
    (may : mayMove s l = true) {p : ThreadPool.State n Unit ℕ} (hs : ThreadPool.next s.pool l = some p) :
    Inv garbage xs init { s with pool := p, futures := setFutures garbage xs s l } := by
  have inside : ∀ t i, l ≠ .submit t i := by
    rintro t i rfl
    cases may
  obtain ⟨workers, begun⟩ := pool_pushing h.pool h.workers hs inside
  obtain ⟨⟨new, more⟩, futures⟩ := pool_futures h.futures hs
  have kept : ∀ i value, s.futures i = some value → setFutures garbage xs s l i = some value := by
    intro i value ready
    rw [h.futures] at ready
    rw [futures, more]
    exact futures_kept ready
  refine {
    empty := h.empty
    pool := h.pool.next trivial hs
    workers := workers
    begun := begun.trans h.begun
    rest := fun away => pool_rest (h.rest away) hs inside
    futures := futures
    fact := ?fact }
  have fact := h.fact
  have total {result : T} (all : Total garbage xs init s.futures result) :
      Total garbage xs init (setFutures garbage xs s l) result := by
    obtain ⟨sum, gathered, rfl⟩ := all
    exact ⟨sum, gather_kept kept gathered, rfl⟩
  have inUse (apart : mayMove s .owner = false) (owner : s.pool.owner = .use) : p.owner = .use := by
    cases l with
    | spawn ok =>
      simp only [ThreadPool.next, ThreadPool.spawn, owner] at hs
      cases hs
    | owner => exact (Bool.false_ne_true (apart.symm.trans may)).elim
    | submit t i => cases may
    | work | queue => exact (inside_keeps rfl hs).1.trans owner
  cases hc : s.caller with
  | construct =>
    rw [hc] at fact
    intro torn
    cases l with
    | spawn ok =>
      simp only [ThreadPool.next, ThreadPool.spawn] at hs
      split at hs
      · split at hs
        · omega
        · cases hs
      · cases hs
    | owner =>
      cases advanceOwner_step hs with
      | constructed => cases torn
      | shutdown ho => simp [mayMove, hc, ho] at may
      | destroyed ho | destroys ho | joins ho | joined ho => exact fact (by rw [ho]; rfl)
    | submit t i => cases may
    | work | queue =>
      rw [(inside_keeps rfl hs).1] at torn
      exact fact torn
  | submit i =>
    rw [hc] at fact
    exact ⟨fact.1, inUse (by simp only [mayMove, hc]) fact.2⟩
  | push i =>
    rw [hc] at fact
    exact ⟨fact.1, inUse (by simp only [mayMove, hc]) fact.2⟩
  | get i result =>
    rw [hc] at fact
    exact ⟨fact.1, inUse (by simp only [mayMove, hc]) fact.2.1, gather_kept kept fact.2.2⟩
  | destroy result =>
    rw [hc] at fact
    refine ⟨fun i => ?_, total fact.2⟩
    cases l with
    | spawn ok => cases spawn_step hs with
      | started ho | failed ho => exact absurd ho (fact.1 _)
    | owner => exact advanceOwner_settled hs i
    | submit t j => cases may
    | work | queue =>
      have same := (inside_keeps rfl hs).1
      change p.owner ≠ _
      rw [same]
      exact fact.1 i
  | returned result =>
    rw [hc] at fact
    exact fact.imp_right fun done => ⟨done.1, total done.2⟩
  | thrown =>
    rw [hc] at fact
    exact fact

theorem Inv.setCaller (h : Inv garbage xs init s) (running : s.caller.ended = false)
    (caller : Caller T) (begun : caller.begun (submitted xs) = s.caller.begun (submitted xs))
    (rest : (s.pool.queue.call (.inr ())).atRest = true)
    (fact : Fact garbage xs init { s with caller := caller } caller) :
    Inv garbage xs init { s with caller := caller } where
  empty none := by
    rw [h.empty none] at running
    cases running
  pool := h.pool
  workers := h.workers
  begun := h.begun.trans (congrArg List.range begun.symm)
  rest _ := rest
  futures := h.futures
  fact := fact

/-- The calling thread takes a step. -/
theorem Inv.caller_step (h : Inv garbage xs init s) (hs : advanceCaller garbage xs init s = some s') :
    Inv garbage xs init s' := by
  have fact := h.fact
  cases hc : s.caller with
  | construct =>
    have running : s.caller.ended = false := by rw [hc]; rfl
    have rest := h.rest (by rw [hc]; rfl)
    rw [hc] at fact
    simp only [advanceCaller, hc] at hs
    split at hs
    · rename_i ho
      exact Option.some.inj hs ▸ h.setCaller running _ (by rw [hc]; rfl) rest ⟨Nat.zero_le _, ho⟩
    · rename_i ho
      exact Option.some.inj hs ▸ h.setCaller running _ (by rw [hc]; rfl) rest (fact (by rw [ho]; rfl))
    · cases hs
  | submit i =>
    have running : s.caller.ended = false := by rw [hc]; rfl
    have rest := h.rest (by rw [hc]; rfl)
    rw [hc] at fact
    obtain ⟨bound, owner⟩ := fact
    simp only [advanceCaller, hc] at hs
    split at hs
    · rename_i more
      obtain ⟨p, submits, rfl⟩ := Option.map_eq_some_iff.mp hs
      have step : (ThreadPool.machine n Unit ℕ).next s.pool (.submit (.inr ()) i) = some p := submits
      have reached := h.pool.next trivial step
      obtain ⟨-, submits⟩ := Option.ite_none_right_eq_some.mp submits
      obtain ⟨q, called, rfl⟩ := Option.map_eq_some_iff.mp submits
      cases ThreadSafeQueue.next_step called with
      | invoke _ op =>
        have own := ThreadSafeQueue.setCall_self s.pool.queue (.inr ()) (.pushAlloc i)
        have before := h.begun
        rw [ThreadSafeQueue.Call.pushing_atRest rest, List.append_nil, hc] at before
        refine {
          empty := fun none => ?empty
          pool := reached
          workers := fun w => ?workers
          begun := ?begun
          rest := fun wrong => by cases wrong
          futures := h.futures
          fact := ⟨more, owner⟩ }
        case empty =>
          rw [h.empty none] at running
          cases running
        case workers =>
          have other : (.inl w : Thread n Unit) ≠ .inr () := Sum.inl_ne_inr
          have same := ThreadSafeQueue.setCall_other s.pool.queue other (.pushAlloc i)
          exact (congrArg ThreadSafeQueue.Call.pushing same).trans (h.workers w)
        case begun =>
          have appends := congrArg ThreadSafeQueue.Call.pushing own
          refine (congrArg (s.pool.queue.pushed.map Prod.snd ++ ·) appends).trans ?_
          rw [before]
          exact List.range_succ.symm
    · obtain rfl : i = submitted xs := by omega
      exact Option.some.inj hs ▸ h.setCaller running _ (by rw [hc]; rfl) rest ⟨Nat.zero_le _, owner, rfl⟩
  | push i =>
    have running : s.caller.ended = false := by rw [hc]; rfl
    rw [hc] at fact
    simp only [advanceCaller, hc] at hs
    obtain ⟨rest, ⟨⟩⟩ := Option.ite_none_right_eq_some.mp hs
    exact h.setCaller running _ (by rw [hc]; rfl) rest ⟨fact.1, fact.2⟩
  | get i result =>
    have running : s.caller.ended = false := by rw [hc]; rfl
    have rest := h.rest (by rw [hc]; rfl)
    rw [hc] at fact
    obtain ⟨bound, owner, gathered⟩ := fact
    simp only [advanceCaller, hc] at hs
    split at hs
    · rename_i more
      obtain ⟨value, ready, rfl⟩ := Option.map_eq_some_iff.mp hs
      refine h.setCaller running _ (by rw [hc]; rfl) rest ⟨more, owner, ?_⟩
      rw [gather_concat, gathered, Option.bind_some, Nat.zero_add, ready]
      rfl
    · obtain rfl : i = submitted xs := by omega
      refine Option.some.inj hs ▸ h.setCaller running _ (by rw [hc]; rfl) rest ⟨fun i wrong => ?_, ?_⟩
      · have := owner.symm.trans wrong
        cases this
      · exact ⟨result, gathered, rfl⟩
  | destroy result =>
    have running : s.caller.ended = false := by rw [hc]; rfl
    have rest := h.rest (by rw [hc]; rfl)
    rw [hc] at fact
    simp only [advanceCaller, hc] at hs
    split at hs
    · have nonempty : xs ≠ [] := fun none => by
        rw [h.empty none] at running
        cases running
      exact Option.some.inj hs ▸ h.setCaller running _ (by rw [hc]; rfl) rest (Or.inr ⟨nonempty, fact.2⟩)
    · cases hs
  | returned | thrown =>
    simp only [advanceCaller, hc] at hs
    cases hs

theorem Inv.next (h : Inv garbage xs init s) {l : Label n} (hs : next garbage xs init s l = some s') :
    Inv garbage xs init s' := by
  cases l with
  | pool l =>
    obtain ⟨may, hs⟩ := Option.ite_none_right_eq_some.mp hs
    obtain ⟨p, step, rfl⟩ := Option.map_eq_some_iff.mp hs
    exact h.pool_step may step
  | caller => exact h.caller_step hs

theorem reach_inv (reached : (machine n garbage xs init).Reach s) : Inv garbage xs init s :=
  reached.invariant _ start_inv fun _ _ _ h _ hs => h.next hs

/-- Where all futures were added up, the workers have run every task once, hold none and
find the queue empty. -/
theorem Inv.all_run (h : Inv garbage xs init s)
    (pushed : s.pool.queue.pushed.map Prod.snd = List.range (submitted xs))
    (run : ∀ i, i < submitted xs → ∃ value, s.futures i = some value) :
    (order s).Perm (List.range (submitted xs)) ∧ (∀ w, heldBy s.pool w = []) ∧
      s.pool.queue.popped.length = s.pool.queue.pushed.length := by
  obtain ⟨queue, -, tasks⟩ := reach_tasks h.pool
  obtain ⟨front, nodes, inv⟩ := ThreadSafeQueue.reach_inv queue
  have inOrder : List.range (submitted xs) ⊆ order s := by
    intro i hi
    obtain ⟨value, ready⟩ := run i (List.mem_range.mp hi)
    rw [h.futures, runTasks_apply] at ready
    by_contra off
    rw [if_neg off] at ready
    cases ready
  have many := (List.nodup_range.subperm inOrder).length_le
  have ran : (order s).length ≤ s.pool.ran.length := List.length_filterMap_le ..
  have handed := tasks.popped_perm.length_eq
  have all := inv.length
  have count := congrArg List.length pushed
  simp only [List.length_map, List.length_append, List.length_range] at many handed count
  have held : (List.finRange n).flatMap (heldBy s.pool) = [] := List.length_eq_zero_iff.mp (by omega)
  refine ⟨ran_perm_range h.pool pushed (by omega), fun w => ?_, by omega⟩
  exact List.flatMap_eq_nil_iff.mp held w (List.mem_finRange w)

theorem Total.parallelAccumulate_eq (h : Inv garbage xs init s) (nonempty : xs ≠ []) {result : T}
    (total : Total garbage xs init s.futures result) :
    parallelAccumulate (order s) garbage xs init = some result := by
  obtain ⟨sum, gathered, rfl⟩ := total
  have long : xs.length ≠ 0 := fun none => nonempty (List.length_eq_zero_iff.mp none)
  rw [h.futures] at gathered
  simp only [parallelAccumulate, if_neg long]
  exact (congrArg (Option.map _) gathered).trans rfl

/-- Before the calling thread lets the pool die, every task was run, each of them once. The
result is that of the sequential reading for the order of this run: it adds up the
uninitialised variables of all blocks, and no element of the sequence. -/
theorem results_are_gathered (reached : (machine n garbage xs init).Reach s) {result : T}
    (here : s.caller = .destroy result ∨ s.caller = .returned result) :
    (order s).Perm (List.range (numBlocks xs.length - 1)) ∧
      parallelAccumulate (order s) garbage xs init = some result ∧
      (xs ≠ [] → result = init + ((List.range (numBlocks xs.length)).map garbage).sum) ∧
      (∀ w, heldBy s.pool w = []) ∧
      s.pool.queue.popped.length = s.pool.queue.pushed.length := by
  have h := reach_inv reached
  have summed : xs = [] ∧ result = init ∨ xs ≠ [] ∧ Total garbage xs init s.futures result := by
    have fact := h.fact
    rcases here with hc | hc
    · rw [hc] at fact
      refine Or.inr ⟨fun none => ?_, fact.2⟩
      have := hc.symm.trans (h.empty none)
      cases this
    · rw [hc] at fact
      exact fact
  have pushed : s.pool.queue.pushed.map Prod.snd = List.range (submitted xs) := by
    have begun := h.begun
    have rest := h.rest (by rcases here with hc | hc <;> rw [hc] <;> rfl)
    rw [ThreadSafeQueue.Call.pushing_atRest rest, List.append_nil] at begun
    rw [begun]
    rcases here with hc | hc <;> rw [hc] <;> rfl
  rcases summed with ⟨none, rfl⟩ | ⟨nonempty, total⟩
  · have few : submitted xs = 0 := by simp [submitted, none, numBlocks, blockSize]
    obtain ⟨ran, held, popped⟩ := h.all_run pushed fun i hi => by omega
    refine ⟨ran, ?_, fun nonempty => absurd none nonempty, held, popped⟩
    rw [none]
    exact parallelAccumulate_nil _ _ _
  · obtain ⟨ran, held, popped⟩ := h.all_run pushed fun i hi => by
      obtain ⟨sum, gathered, -⟩ := total
      exact ready_of_gather gathered (Nat.zero_le i) (by omega)
    have same := total.parallelAccumulate_eq h nonempty
    refine ⟨ran, same, fun _ => ?_, held, popped⟩
    rw [parallelAccumulate_eq garbage init nonempty ran] at same
    exact (Option.some.inj same).symm

end

/-- A sequence of 26 elements: the only worker runs the task of the first block. -/
def twoBlocks (w : Fin 1) : List (Label 1) :=
  [.pool (.spawn true), .pool .owner, .caller, .caller, .pool (.queue (.alloc (.inr ()) 1))] ++
    List.replicate 4 (.pool (.queue (.step (.inr ())))) ++
    [.pool (.queue (.notify (.inr ()) none)), .caller, .caller, .pool (.work w)] ++
    List.replicate 7 (.pool (.queue (.step (.inl w)))) ++
    [.pool (.work w), .pool (.work w), .caller, .caller]

def twoBlocksRun : (machine 1 (fun i => i + 3) (List.range 26) 0).Run :=
  .ofSchedule _ .caller (twoBlocks (Fin.last 0)) (by decide +kernel)

theorem results_are_gathered_twoBlocks :
    parallelAccumulate (order (twoBlocksRun.state 24)) (fun i => i + 3) (List.range 26) 0 = some 7 ∧
      7 = 0 + ((List.range 2).map fun i => i + 3).sum := by
  have here : (twoBlocksRun.state 24).caller = .destroy 7 := by decide +kernel
  obtain ⟨-, same, sum, -⟩ := results_are_gathered (twoBlocksRun.reach (i := 24) (by decide)) (Or.inl here)
  exact ⟨same, sum (by decide)⟩

end ParallelAccumulate
