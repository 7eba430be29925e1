import CppConcurrency.ParallelAccumulate
import Mathlib.Data.Fintype.Prod

/-!
# The threads that test `ThreadSafeQueue`

`main` of the tests first runs as many producers as consumers over one queue: each producer
pushes the numbers from zero on, each consumer calls `wait_and_pop` as often, and `main`
joins all the threads. As many elements come in as are taken out, so every consumer would
be served in the end. The queue moves step by step underneath.
-/

namespace ThreadSafeQueue

open Threads

universe u v

variable {Tid : Type v} {T : Type u}

/-- Inside a `wait_and_pop()`, or at rest. -/
def Call.waitsToPop : Call T → Bool
  | .lockHead pop | .lockTail pop | .readTail pop | .block pop | .blocked pop | .woken pop
  | .copy pop | .takeHead pop _ | .relink pop _ _ | .finish pop _ _ => pop = .waitAndPop
  | call => call.atRest

/-- A pop that has not taken its element yet. -/
def Call.owes : Call T → ℕ
  | .lockHead _ | .lockTail _ | .readTail _ | .block _ | .blocked _ | .woken _ | .copy _
  | .takeHead _ _ => 1
  | _ => 0

theorem Call.owes_atRest {c : Call T} (rest : c.atRest = true) : c.owes = 0 := by
  cases c with
  | rest | pushReturn | popReturn => rfl
  | _ => cases rest

theorem Call.pushes_owes {c : Call T} (pushes : c.pushes = true) : c.owes = 0 := by
  cases c with
  | pushAlloc | pushLock | pushData | pushNext | pushTail | pushNotify | rest | pushReturn
  | popReturn => rfl
  | _ => cases pushes

section

variable [DecidableEq Tid] {s s' : State Tid T} {t : Tid} {front : Addr} {nodes : List (Addr × T)}

/-- A step inside a `push` takes no element. -/
theorem advance_pushes_popped (pushes : (s.call t).pushes = true)
    (hs : ThreadSafeQueue.advance s t = some s') : s'.popped = s.popped := by
  unfold ThreadSafeQueue.advance at hs
  cases hc : s.call t with
  | rest | pushAlloc | pushNotify | pushReturn | popReturn =>
    simp only [hc] at hs
    cases hs
  | pushLock data p =>
    simp only [hc] at hs
    obtain ⟨-, ⟨⟩⟩ := Option.ite_none_left_eq_some.mp hs
    rfl
  | pushData data p | pushNext data p =>
    simp only [hc] at hs
    split at hs
    all_goals
      obtain rfl := Option.some.inj hs
      rfl
  | pushTail data p =>
    simp only [hc] at hs
    obtain rfl := Option.some.inj hs
    rfl
  | _ =>
    rw [hc] at pushes
    cases pushes

/-- A `wait_and_pop()` owes its element until it takes it. -/
theorem Inv.advance_waits (h : Inv front nodes s) (waits : (s.call t).waitsToPop = true)
    (hs : ThreadSafeQueue.advance s t = some s') :
    (s'.call t).waitsToPop = true ∧
      s'.popped.length + (s'.call t).owes = s.popped.length + (s.call t).owes := by
  obtain ⟨front', nodes', h'⟩ := h.advance hs
  have defined : s'.call t ≠ .undefined := h'.defined
  unfold ThreadSafeQueue.advance at hs
  cases hc : s.call t with
  | rest | pushReturn | popReturn | blocked =>
    simp only [hc] at hs
    cases hs
  | lockHead pop | woken pop | lockTail pop =>
    rw [hc] at waits
    simp only [hc] at hs
    obtain ⟨-, ⟨⟩⟩ := Option.ite_none_left_eq_some.mp hs
    exact ⟨by rw [setCall_self]; exact waits, by rw [setCall_self]; rfl⟩
  | block pop =>
    rw [hc] at waits
    simp only [hc] at hs
    obtain rfl := Option.some.inj hs
    exact ⟨by rw [setCall_self]; exact waits, by rw [setCall_self]; rfl⟩
  | readTail pop =>
    rw [hc] at waits
    obtain rfl : pop = .waitAndPop := of_decide_eq_true waits
    simp only [hc] at hs
    obtain rfl := Option.some.inj hs
    rw [setCall_self]
    constructor
    · split <;> rfl
    · split <;> rfl
  | takeHead pop value =>
    rw [hc] at waits
    simp only [hc] at hs
    split at hs
    all_goals obtain rfl := Option.some.inj hs
    · refine ⟨by rw [setCall_self]; exact waits, ?_⟩
      rw [setCall_self]
      simp [State.setCall, Call.owes]
    · exact absurd (setCall_self ..) defined
  | copy pop | relink pop old value =>
    rw [hc] at waits
    simp only [hc] at hs
    split at hs
    all_goals obtain rfl := Option.some.inj hs
    · exact ⟨by rw [setCall_self]; exact waits, by rw [setCall_self]; rfl⟩
    · exact absurd (setCall_self ..) defined
  | finish pop old value =>
    simp only [hc] at hs
    split at hs
    all_goals obtain rfl := Option.some.inj hs
    · exact ⟨by rw [setCall_self]; rfl, by rw [setCall_self]; rfl⟩
    · exact absurd (setCall_self ..) defined
  | _ =>
    rw [hc] at waits
    cases waits

/-- On its side of the queue: inside a `push` or a `wait_and_pop()`, or at rest. -/
def Call.onSide (c : Call T) (pops : Bool) : Prop := if pops then c.waitsToPop = true else c.pushes = true

theorem Call.onSide_blocked {c : Call T} {pops : Bool} (side : c.onSide pops)
    (asleep : c.isBlocked = true) : c = .blocked .waitAndPop ∧ pops = true := by
  cases c with
  | blocked pop =>
    cases pops with
    | false => exact absurd side Bool.false_ne_true
    | true => exact ⟨congrArg Call.blocked (of_decide_eq_true side), rfl⟩
  | _ => cases asleep

/-- A step inside a call on its side keeps what is pushed and what is owed together. -/
theorem Inv.advance_onSide (h : Inv front nodes s) {pops : Bool} (side : (s.call t).onSide pops)
    (hs : ThreadSafeQueue.advance s t = some s') :
    (s'.call t).onSide pops ∧
      s'.pushed.length + (s'.call t).pushing.length = s.pushed.length + (s.call t).pushing.length ∧
      s'.popped.length + (s'.call t).owes = s.popped.length + (s.call t).owes := by
  obtain ⟨new, pushed, pushing⟩ := h.advance_pushing hs
  have came : s'.pushed.length + (s'.call t).pushing.length =
      s.pushed.length + (s.call t).pushing.length := by
    have lengths := congrArg List.length pushed
    rw [List.length_append, List.length_map, List.length_map] at lengths
    rw [pushing, List.length_append]
    omega
  cases pops with
  | false =>
    obtain ⟨pushes, -⟩ := h.advance_pushes side hs
    refine ⟨pushes, came, ?_⟩
    rw [advance_pushes_popped side hs, Call.pushes_owes pushes, Call.pushes_owes side]
  | true =>
    obtain ⟨waits, owed⟩ := h.advance_waits side hs
    exact ⟨waits, came, owed⟩

/-- With every call on its side, so for all threads together. -/
theorem Inv.next_onSide [Fintype Tid] (h : Inv front nodes s) {l : Label Tid T} {pops : Tid → Bool}
    (side : ∀ u, (s.call u).onSide (pops u)) (hs : ThreadSafeQueue.next s l = some s')
    (inside : l.isInvoke = false) :
    (∀ u, (s'.call u).onSide (pops u)) ∧
      s'.pushed.length + ∑ u, (s'.call u).pushing.length =
        s.pushed.length + ∑ u, (s.call u).pushing.length ∧
      s'.popped.length + ∑ u, (s'.call u).owes = s.popped.length + ∑ u, (s.call u).owes := by
  have moves : ∀ {q : State Tid T} {t : Tid} {c : Call T}, (∀ u, (q.call u).onSide (pops u)) →
      ((q.call t).onSide (pops t) → c.onSide (pops t)) → ∀ u, ((q.setCall t c).call u).onSide (pops u) := by
    intro q t c side keeps u
    by_cases here : u = t
    · rw [here, setCall_self]
      exact keeps (side t)
    · rw [setCall_other q here]
      exact side u
  have sums : ∀ {t : Tid} {c : Call T} (q : State Tid T), c.pushing.length = (q.call t).pushing.length →
      c.owes = (q.call t).owes →
      ∑ u, ((q.setCall t c).call u).pushing.length = ∑ u, (q.call u).pushing.length ∧
        ∑ u, ((q.setCall t c).call u).owes = ∑ u, (q.call u).owes := by
    intro t c q pushing owes
    have came := sum_update (fun c : Call T => c.pushing.length) q.call t c
    have left := sum_update Call.owes q.call t c
    constructor
    · change ∑ u, (Function.update q.call t c u).pushing.length = _
      omega
    · change ∑ u, (Function.update q.call t c u).owes = _
      omega
  cases next_step hs with
  | invoke => cases inside
  | @alloc t p data hc free =>
    have total := @sums t (.pushLock data p) (s.setNode p (some .fresh))
      (by rw [show (s.setNode p (some .fresh)).call t = _ from hc]; rfl)
      (by rw [show (s.setNode p (some .fresh)).call t = _ from hc]; rfl)
    refine ⟨moves side fun before => ?_, congrArg (s.pushed.length + ·) total.1,
      congrArg (s.popped.length + ·) total.2⟩
    rw [show (s.setNode p (some .fresh)).call t = _ from hc] at before
    cases hp : pops t with
    | false => exact rfl
    | true =>
      rw [hp] at before
      exact absurd before Bool.false_ne_true
  | @notifyOne t v pop hc hv =>
    have different : v ≠ t := by
      rintro rfl
      rw [hc] at hv
      cases hv
    have still : (s.setCall t .pushReturn).call v = .blocked pop := (setCall_other s different _).trans hv
    have first := @sums t .pushReturn s (by rw [hc]; rfl) (by rw [hc]; rfl)
    have second := @sums v (.woken pop) (s.setCall t .pushReturn) (by rw [still]; rfl) (by rw [still]; rfl)
    refine ⟨moves (moves side fun before => ?_) fun before => ?_,
      congrArg (s.pushed.length + ·) (second.1.trans first.1),
      congrArg (s.popped.length + ·) (second.2.trans first.2)⟩
    · cases pops t <;> rfl
    · rw [still] at before
      exact before
  | @notifyNobody t hc nobody =>
    have total := @sums t .pushReturn s (by rw [hc]; rfl) (by rw [hc]; rfl)
    refine ⟨moves side fun before => ?_, congrArg (s.pushed.length + ·) total.1,
      congrArg (s.popped.length + ·) total.2⟩
    cases pops t <;> rfl
  | @spurious t pop hc =>
    have total := @sums t (.woken pop) s (by rw [hc]; rfl) (by rw [hc]; rfl)
    refine ⟨moves side fun before => ?_, congrArg (s.pushed.length + ·) total.1,
      congrArg (s.popped.length + ·) total.2⟩
    rw [hc] at before
    exact before
  | @step t s' moved =>
    obtain ⟨keeps, came, left⟩ := h.advance_onSide (side t) moved
    have pushing := sum_update (fun c : Call T => c.pushing.length) s.call t (s'.call t)
    have owes := sum_update Call.owes s.call t (s'.call t)
    rw [← advance_call moved] at pushing owes
    refine ⟨fun u => ?_, by omega, by omega⟩
    by_cases here : u = t
    · rw [here]
      exact keeps
    · rw [advance_other moved here]
      exact side u

end

end ThreadSafeQueue

namespace ThreadSafeQueueThreads

open Machines Threads ThreadSafeQueue

/-- `t1[j]`, which produces, is `(j, false)`, and `t3[j]`, which consumes, is `(j, true)`. -/
abbrev Worker (k : ℕ) := Fin k × Bool

/-- The place of a thread in the order in which `main` starts and joins the threads. -/
def place {k : ℕ} (t : Worker k) : ℕ := 2 * t.1 + t.2.toNat

/-- The queue, the loop counter of each thread, and how many of its own steps `main` has
made: first it starts the `THREAD_NUM` pairs of threads, then it joins them. -/
structure State (k : ℕ) where
  queue : ThreadSafeQueue.State (Worker k) ℕ
  i : Worker k → ℕ
  main : ℕ

inductive Label (k : ℕ) where
  | main
  | call (t : Worker k)
  | queue (l : ThreadSafeQueue.Label (Worker k) ℕ)

variable {k : ℕ}

/-- `q.push(i)` and `q.wait_and_pop()`. -/
def operation (s : State k) (t : Worker k) : Op ℕ := if t.2 then .pop .waitAndPop else .push (s.i t)

/-- The thread has left its loop, which runs `TEST_TIME` times. -/
def finished (n : ℕ) (s : State k) (t : Worker k) : Bool := (s.queue.call t).atRest && s.i t = n

def threadAt (k place : ℕ) : Option (Worker k) :=
  if inside : place / 2 < k then some (⟨place / 2, inside⟩, place % 2 = 1) else none

def advanceMain (n : ℕ) (s : State k) : Option (State k) :=
  if s.main < 2 * k then some { s with main := s.main + 1 }
  else
    match threadAt k (s.main - 2 * k) with
    | some t => if finished n s t then some { s with main := s.main + 1 } else none
    | none => none

def next (n : ℕ) (s : State k) : Label k → Option (State k)
  | .main => advanceMain n s
  | .call t =>
    if place t < s.main ∧ s.i t < n then
      (ThreadSafeQueue.next s.queue (.invoke t (operation s t))).map fun q =>
        { s with queue := q, i := Function.update s.i t (s.i t + 1) }
    else none
  | .queue l =>
    if l.isInvoke then none
    else (ThreadSafeQueue.next s.queue l).map fun q => { s with queue := q }

/-- `test_ThreadSafeQueue()` with `THREAD_NUM = k` and `TEST_TIME = n`. -/
def machine (k n : ℕ) : Machine (State k) (Label k) where
  start := ⟨(ThreadSafeQueue.machine (Worker k) ℕ).start, fun _ => 0, 0⟩
  next := next n

def Label.isSpurious : Label k → Bool
  | .queue l => l.isSpurious
  | _ => false

/-- Every thread is joined. -/
def Returned (s : State k) : Prop := s.main = 4 * k

/-- `main` joins a thread that sleeps in `cond.wait`, every other thread sleeps there too or
has left its loop, and for each that sleeps an element lies in the queue. -/
structure Hung (n : ℕ) (s : State k) : Prop where
  settled : ∀ t, finished n s t = true ∨ (s.queue.call t).isBlocked = true
  joining : ∃ t, s.main = 2 * k + place t ∧ (s.queue.call t).isBlocked = true
  elements : s.queue.popped.length + census Call.isBlocked s.queue.call ≤ s.queue.pushed.length

/-- Nothing can happen but a spurious wake-up. -/
def Quiet (n : ℕ) (s : State k) : Prop := ∀ l s', next n s l = some s' → l.isSpurious = true

/-! ### Steps -/

variable {n : ℕ} {s s' : State k}

theorem threadAt_place (t : Worker k) : threadAt k (place t) = some t := by
  obtain ⟨j, b⟩ := t
  have half : (2 * (j : ℕ) + b.toNat) / 2 = j := by
    cases b <;> simp only [Bool.toNat_false, Bool.toNat_true] <;> omega
  have inside : (2 * (j : ℕ) + b.toNat) / 2 < k := by
    rw [half]
    exact j.isLt
  rw [threadAt, place, dif_pos inside]
  congr 2
  · exact Fin.ext half
  · cases b
    · exact decide_eq_false (by simp only [Bool.toNat_false]; omega)
    · exact decide_eq_true (by simp only [Bool.toNat_true]; omega)

theorem place_lt (t : Worker k) : place t < 2 * k := by
  obtain ⟨⟨j, inside⟩, b⟩ := t
  cases b <;> simp only [place, Bool.toNat_false, Bool.toNat_true] <;> omega

theorem place_threadAt {m : ℕ} {t : Worker k} (found : threadAt k m = some t) : place t = m := by
  obtain ⟨inside, found⟩ := Option.dite_none_right_eq_some.mp found
  obtain rfl := Option.some.inj found
  simp only [place]
  by_cases odd : m % 2 = 1
  · rw [decide_eq_true odd, Bool.toNat_true]
    omega
  · rw [decide_eq_false odd, Bool.toNat_false]
    omega

theorem place_inj {t u : Worker k} (same : place t = place u) : t = u := by
  have found := threadAt_place t
  rw [same, threadAt_place] at found
  exact (Option.some.inj found).symm

theorem finished_rest {t : Worker k} (done : finished n s t = true) :
    (s.queue.call t).atRest = true := (Bool.and_eq_true_iff.mp done).1

theorem finished_all {t : Worker k} (done : finished n s t = true) : s.i t = n :=
  of_decide_eq_true (Bool.and_eq_true_iff.mp done).2

/-- The thread begins its next call. -/
theorem next_call {t : Worker k} (started : place t < s.main) (more : s.i t < n)
    (rest : (s.queue.call t).atRest = true) :
    next n s (.call t) = some { s with
      queue := s.queue.setCall t (operation s t).invoke
      i := Function.update s.i t (s.i t + 1) } := by
  simp only [next, ThreadSafeQueue.next, if_pos rest, started, more, and_self, if_true, Option.map_some]

/-- The queue moves underneath. -/
theorem next_queue {l : ThreadSafeQueue.Label (Worker k) ℕ} {q : ThreadSafeQueue.State (Worker k) ℕ}
    (inside : l.isInvoke = false) (moved : ThreadSafeQueue.next s.queue l = some q) :
    next n s (.queue l) = some { s with queue := q } := by
  simp only [next, inside, moved, Bool.false_eq_true, if_false, Option.map_some]

/-- What a step can be, by its label. -/
inductive Step (n : ℕ) (s : State k) : Label k → State k → Prop where
  | starts (more : s.main < 2 * k) : Step n s .main { s with main := s.main + 1 }
  | joins (t : Worker k) (turn : s.main = 2 * k + place t) (done : finished n s t = true) :
      Step n s .main { s with main := s.main + 1 }
  | call (t : Worker k) (started : place t < s.main) (more : s.i t < n)
      (rest : (s.queue.call t).atRest = true) :
      Step n s (.call t) { s with
        queue := s.queue.setCall t (operation s t).invoke
        i := Function.update s.i t (s.i t + 1) }
  | queue {l : ThreadSafeQueue.Label (Worker k) ℕ} {q : ThreadSafeQueue.State (Worker k) ℕ}
      (inside : l.isInvoke = false) (moved : ThreadSafeQueue.next s.queue l = some q) :
      Step n s (.queue l) { s with queue := q }

theorem next_step {l : Label k} (hs : next n s l = some s') : Step n s l s' := by
  cases l with
  | main =>
    simp only [next, advanceMain] at hs
    split at hs
    · rename_i more
      obtain rfl := Option.some.inj hs
      exact .starts more
    · rename_i all
      split at hs
      · rename_i t found
        obtain ⟨done, ⟨⟩⟩ := Option.ite_none_right_eq_some.mp hs
        have := place_threadAt found
        exact .joins t (by omega) done
      · cases hs
  | call t =>
    obtain ⟨⟨started, more⟩, hs⟩ := Option.ite_none_right_eq_some.mp hs
    obtain ⟨q, invoked, rfl⟩ := Option.map_eq_some_iff.mp hs
    obtain ⟨rest, ⟨⟩⟩ := Option.ite_none_right_eq_some.mp invoked
    exact .call t started more rest
  | queue l =>
    obtain ⟨inside, hs⟩ := Option.ite_none_left_eq_some.mp hs
    obtain ⟨q, moved, rfl⟩ := Option.map_eq_some_iff.mp hs
    exact .queue (Bool.eq_false_iff.mpr inside) moved

/-- The calls that the threads of one side have begun. -/
def begun (i : Worker k → ℕ) (pops : Bool) : ℕ := ∑ t : Worker k, if t.2 = pops then i t else 0

/-- Every call serves its loop: what was pushed or is being pushed is what the producers
began with, and what was taken or is owed is what the consumers began with. -/
structure Inv (n : ℕ) (s : State k) : Prop where
  reach : (ThreadSafeQueue.machine (Worker k) ℕ).Reach s.queue
  side : ∀ t, (s.queue.call t).onSide t.2
  atMost : ∀ t, s.i t ≤ n
  main_le : s.main ≤ 4 * k
  joined : ∀ t, 2 * k + place t < s.main → finished n s t = true
  pushed : s.queue.pushed.length + ∑ t, (s.queue.call t).pushing.length = begun s.i false
  popped : s.queue.popped.length + ∑ t, (s.queue.call t).owes = begun s.i true

theorem start_inv (k n : ℕ) : Inv n (machine k n).start where
  reach := .start
  side := fun t => by
    obtain ⟨j, b⟩ := t
    cases b <;> rfl
  atMost := fun t => Nat.zero_le n
  main_le := Nat.zero_le _
  joined := fun t before => absurd before (Nat.not_lt_zero _)
  pushed := by simp [machine, ThreadSafeQueue.machine, Call.pushing, begun]
  popped := by simp [machine, ThreadSafeQueue.machine, Call.owes, begun]

theorem begun_call (i : Worker k → ℕ) (t : Worker k) (pops : Bool) :
    begun (Function.update i t (i t + 1)) pops = begun i pops + (decide (t.2 = pops)).toNat := by
  have others : ∑ u ∈ Finset.univ.erase t,
        (if u.2 = pops then Function.update i t (i t + 1) u else 0) =
      ∑ u ∈ Finset.univ.erase t, (if u.2 = pops then i u else 0) := by
    apply Finset.sum_congr rfl
    intro u hu
    rw [Function.update_of_ne (Finset.ne_of_mem_erase hu)]
  rw [begun, begun, ← Finset.sum_erase_add _ _ (Finset.mem_univ t), others, Function.update_self,
    ← Finset.sum_erase_add Finset.univ (fun u : Worker k => if u.2 = pops then i u else 0)
      (Finset.mem_univ t)]
  by_cases mine : t.2 = pops
  · rw [if_pos mine, if_pos mine, decide_eq_true mine, Bool.toNat_true, Nat.add_assoc]
  · rw [if_neg mine, if_neg mine, decide_eq_false mine, Bool.toNat_false]

/-- A step inside a call leaves the calls of finished threads alone. -/
theorem finished_queue {l : ThreadSafeQueue.Label (Worker k) ℕ}
    {q : ThreadSafeQueue.State (Worker k) ℕ} (inside : l.isInvoke = false)
    (moved : ThreadSafeQueue.next s.queue l = some q) {t : Worker k} (done : finished n s t = true) :
    q.call t = s.queue.call t := by
  have rest := finished_rest done
  by_cases mine : t = l.thread
  · rw [mine] at rest
    have := (next_atRest rest inside).symm.trans moved
    cases this
  · exact next_other moved mine rest

theorem finished_next {l : Label k} (hs : next n s l = some s') {t : Worker k}
    (done : finished n s t = true) : finished n s' t = true := by
  cases next_step hs with
  | starts | joins => exact done
  | call u started more rest =>
    have other : t ≠ u := by
      rintro rfl
      have := finished_all done
      omega
    simp only [finished, setCall_other _ other, Function.update_of_ne other]
    exact done
  | queue inside moved =>
    simp only [finished, finished_queue inside moved done]
    exact done

theorem Inv.call (h : Inv n s) {t : Worker k} (started : place t < s.main) (more : s.i t < n)
    (rest : (s.queue.call t).atRest = true) :
    Inv n { s with
      queue := s.queue.setCall t (operation s t).invoke
      i := Function.update s.i t (s.i t + 1) } where
  reach :=
    have invoked : (ThreadSafeQueue.machine (Worker k) ℕ).next s.queue (.invoke t (operation s t)) =
      some (s.queue.setCall t (operation s t).invoke) := if_pos rest
    h.reach.next trivial invoked
  side := fun u => by
    by_cases here : u = t
    · rw [here, setCall_self, operation]
      cases t.2 <;> rfl
    · rw [setCall_other _ here]
      exact h.side u
  atMost := fun u => by
    dsimp only
    by_cases here : u = t
    · rw [here, Function.update_self]
      exact more
    · rw [Function.update_of_ne here]
      exact h.atMost u
  main_le := h.main_le
  joined := fun u before => finished_next (next_call started more rest) (h.joined u before)
  pushed := by
    have came := sum_update (fun c : Call ℕ => c.pushing.length) s.queue.call t (operation s t).invoke
    rw [Call.pushing_atRest rest, List.length_nil] at came
    have op : (operation s t).invoke.pushing.length = (decide (t.2 = false)).toNat := by
      rw [operation]
      cases t.2 <;> rfl
    have before := h.pushed
    have count := begun_call s.i t false
    change s.queue.pushed.length +
      ∑ u, (Function.update s.queue.call t (operation s t).invoke u).pushing.length = _
    dsimp only
    omega
  popped := by
    have left := sum_update Call.owes s.queue.call t (operation s t).invoke
    rw [Call.owes_atRest rest] at left
    have op : (operation s t).invoke.owes = (decide (t.2 = true)).toNat := by
      rw [operation]
      cases t.2 <;> rfl
    have before := h.popped
    have count := begun_call s.i t true
    change s.queue.popped.length +
      ∑ u, (Function.update s.queue.call t (operation s t).invoke u).owes = _
    dsimp only
    omega

theorem Inv.next (h : Inv n s) {l : Label k} (hs : next n s l = some s') : Inv n s' := by
  cases next_step hs with
  | starts more =>
    exact { h with
      main_le := by dsimp only; omega
      joined := fun t before => by dsimp only at before; omega }
  | joins t turn done =>
    exact { h with
      main_le := by
        have := place_lt t
        dsimp only
        omega
      joined := fun u before => by
        dsimp only at before
        by_cases earlier : 2 * k + place u < s.main
        · exact h.joined u earlier
        · obtain rfl : u = t := place_inj (by omega)
          exact done }
  | call t started more rest => exact h.call started more rest
  | @queue l q inside moved =>
    obtain ⟨front, nodes, inv⟩ := ThreadSafeQueue.reach_inv h.reach
    obtain ⟨side, pushed, popped⟩ := inv.next_onSide h.side moved inside
    exact { h with
      reach := h.reach.next trivial moved
      side := side
      joined := fun u before => finished_next hs (h.joined u before)
      pushed := pushed.trans h.pushed
      popped := popped.trans h.popped }

theorem reach_inv (reached : (machine k n).Reach s) : Inv n s :=
  reached.invariant (P := Inv n) _ (start_inv k n) fun _ _ _ h _ hs => h.next hs

end ThreadSafeQueueThreads
