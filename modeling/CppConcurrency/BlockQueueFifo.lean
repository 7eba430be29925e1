import CppConcurrency.BlockQueue

/-!
# `BlockQueue` is a FIFO that can be aborted

A `Dequeue` may give up the mutex in its wait many times, but it decides in its last
critical section alone: the abort flag goes first, then the queue as it is at that
moment. A wait changes neither the queue nor the caller's variable.
-/

namespace BlockQueue

open Machines

universe v

variable {Tid : Type v} [DecidableEq Tid] {s s' : State Tid} {t u : Tid}

/-- The step is a critical section in which a `Dequeue` of `t` returns `code`. -/
def Decides (s' : State Tid) (l : Label Tid) (t : Tid) (code : ℤ) : Prop :=
  (l = .enter t ∨ ∃ timedOut, l = .resume t timedOut) ∧ s'.call t = .dequeued code

/-- Inside a `Dequeue`. -/
def Call.inDequeue : Call → Bool
  | .dequeue | .blocked | .notified | .woken => true
  | _ => false

/-- What a step does to the queue and to what was enqueued and delivered. -/
inductive Effect (s s' : State Tid) (l : Label Tid) : Prop where
  | none (queue : s'.queue = s.queue) (enqueued : s'.enqueued = s.enqueued)
      (delivered : s'.delivered = s.delivered)
  | enqueues (t : Tid) (wake : Option Tid) (val : ℤ) (called : l = .enqueue t wake)
      (hc : s.call t = .enqueue val) (queue : s'.queue = s.queue ++ [val])
      (enqueued : s'.enqueued = s.enqueued ++ [val]) (delivered : s'.delivered = s.delivered)
  | delivers (t : Tid) (decided : Decides s' l t 1) (queue : s.queue = s'.val t :: s'.queue)
      (enqueued : s'.enqueued = s.enqueued) (delivered : s'.delivered = s.delivered ++ [s'.val t])

theorem setCall_self (s : State Tid) (t : Tid) (c : Call) : (s.setCall t c).call t = c :=
  Function.update_self ..

theorem Outcome.effect (h : Outcome s t s') {l : Label Tid}
    (called : l = .enter t ∨ ∃ timedOut, l = .resume t timedOut) : Effect s s' l := by
  cases h with
  | aborts | expires | waits => exact .none rfl rfl rfl
  | takes goesOn first =>
    have val : ∀ v, Function.update s.val t v t = v := fun v => Function.update_self ..
    refine .delivers t ⟨called, setCall_self ..⟩ ?_ rfl ?_
    · simp only [State.setCall, val]
      exact first
    · simp only [State.setCall, val]

variable [Fintype Tid]

theorem next_effect {l : Label Tid} (hs : next s l = some s') : Effect s s' l := by
  cases next_step hs with
  | callEnqueue | callDequeue | callAbort | callEmpty | abort | empty | wake => exact .none rfl rfl rfl
  | notifies hc hu => exact .enqueues _ _ _ rfl hc rfl rfl rfl
  | unheard hc nobody => exact .enqueues _ _ _ rfl hc rfl rfl rfl
  | dequeue hc outcome => exact outcome.effect (Or.inl rfl)
  | resume hc outcome => exact outcome.effect (Or.inr ⟨_, rfl⟩)

/-- What `Dequeue` returns and what it leaves alone. -/
theorem decides_outcome {l : Label Tid} {code : ℤ} (hs : next s l = some s')
    (decides : Decides s' l t code) : Outcome s t s' ∧ (s.call t).inDequeue = true := by
  obtain ⟨called, returned⟩ := decides
  have notRest : ∀ c, c ≠ .dequeued code → s' ≠ s.setCall t c := by
    rintro c other rfl
    exact other ((setCall_self ..).symm.trans returned)
  rcases called with rfl | ⟨timedOut, rfl⟩
  · cases next_step hs with
    | dequeue hc outcome => exact ⟨outcome, by rw [hc]; rfl⟩
    | abort hc =>
      rw [setCall_self] at returned
      cases returned
    | empty hc => exact absurd rfl (notRest _ fun wrong => by cases wrong)
  · cases next_step hs with
    | resume hc outcome =>
      refine ⟨outcome, ?_⟩
      rcases hc with hc | hc <;> rw [hc] <;> rfl

omit [Fintype Tid] in
theorem decided_returns (s : State Tid) (t : Tid) : ∃ code, (decided s t).call t = .dequeued code := by
  cases aborted : s.abortRequest with
  | true => exact ⟨-1, by simp [decided, aborted, setCall_self]⟩
  | false =>
    cases held : s.queue with
    | nil => exact ⟨0, by simp [decided, aborted, held, setCall_self]⟩
    | cons => exact ⟨1, by simp [decided, aborted, held, setCall_self]⟩

omit [Fintype Tid] in
theorem dequeue_eq (s : State Tid) (t : Tid) :
    dequeue s t = decided s t ∨ (¬ s.ready = true ∧ dequeue s t = s.setCall t .blocked) := by
  unfold dequeue
  split
  · split
    · exact Or.inl rfl
    · rename_i unready
      exact Or.inr ⟨unready, rfl⟩
  · exact Or.inl rfl

omit [Fintype Tid] in
theorem resume_eq (s : State Tid) (t : Tid) (timedOut : Bool) :
    resume s t timedOut = decided s t ∨
      (timedOut = false ∧ ¬ s.ready = true ∧ resume s t timedOut = s.setCall t .blocked) := by
  unfold resume
  split
  · exact Or.inl rfl
  · rename_i goesOn
    rw [Bool.or_eq_true, not_or] at goesOn
    exact Or.inr ⟨Bool.eq_false_iff.mpr goesOn.1, goesOn.2, rfl⟩

/-- A critical section of `Dequeue` ends with a code, or in a wait that nothing cuts short:
on an empty queue, without an abort and before the timeout. -/
theorem next_settles {l : Label Tid} (hs : next s l = some s') (inside : (s.call t).inDequeue = true)
    (called : l = .enter t ∨ ∃ timedOut, l = .resume t timedOut) :
    (s'.call t = .blocked ∧ s.queue = [] ∧ s.abortRequest = false ∧ l ≠ .resume t true) ∨
      ∃ code, Decides s' l t code := by
  have decides : s' = decided s t → ∃ code, Decides s' l t code := by
    rintro rfl
    obtain ⟨code, returned⟩ := decided_returns s t
    exact ⟨code, called, returned⟩
  have waits : ¬ s.ready = true → s' = s.setCall t .blocked →
      s'.call t = .blocked ∧ s.queue = [] ∧ s.abortRequest = false := by
    rintro unready rfl
    obtain ⟨goesOn, empty⟩ := not_ready unready
    exact ⟨setCall_self .., empty, goesOn⟩
  rcases called with rfl | ⟨timedOut, rfl⟩
  · simp only [next] at hs
    split at hs
    · rcases dequeue_eq s t with same | ⟨unready, same⟩
      · exact Or.inr (decides (by rw [← same, Option.some.inj hs]))
      · obtain ⟨blocked, empty, goesOn⟩ := waits unready (by rw [← same, Option.some.inj hs])
        exact Or.inl ⟨blocked, empty, goesOn, fun wrong => by cases wrong⟩
    · rename_i hc
      rw [hc] at inside
      cases inside
    · rename_i hc
      rw [hc] at inside
      cases inside
    · cases hs
  · obtain ⟨-, hs⟩ := Option.ite_none_right_eq_some.mp hs
    rcases resume_eq s t timedOut with same | ⟨onTime, unready, same⟩
    · exact Or.inr (decides (by rw [← same, Option.some.inj hs]))
    · obtain ⟨blocked, empty, goesOn⟩ := waits unready (by rw [← same, Option.some.inj hs])
      refine Or.inl ⟨blocked, empty, goesOn, fun late => ?_⟩
      rw [(Label.resume.inj late).2] at onTime
      cases onTime

theorem next_order {l : Label Tid} (order : s.delivered ++ s.queue = s.enqueued)
    (hs : next s l = some s') : s'.delivered ++ s'.queue = s'.enqueued := by
  cases next_effect hs with
  | none queue enqueued delivered => rw [queue, enqueued, delivered, order]
  | enqueues t wake val called hc queue enqueued delivered =>
    rw [queue, enqueued, delivered, ← List.append_assoc, order]
  | delivers t decided queue enqueued delivered =>
    rw [enqueued, delivered, ← order, queue, List.append_assoc]
    rfl

omit [Fintype Tid] in
theorem inDequeue_update {call : Tid → Call} {c : Call}
    (stays : c.inDequeue = true → (call t).inDequeue = true)
    (inside : (Function.update call t c u).inDequeue = true) : (call u).inDequeue = true := by
  by_cases here : u = t
  · subst here
    rw [Function.update_self] at inside
    exact stays inside
  · rwa [Function.update_of_ne here] at inside

omit [Fintype Tid] in
theorem Outcome.kept (h : Outcome s t s') (now : (s.call t).inDequeue = true)
    (kept : ∀ t, (s.call t).inDequeue = true → s.val t = s.given t) (u : Tid)
    (inside : (s'.call u).inDequeue = true) : s'.val u = s'.given u := by
  cases h with
  | aborts | expires | waits => exact kept u (inDequeue_update (fun _ => now) inside)
  | takes goesOn first =>
    have other : u ≠ t := by
      rintro rfl
      rw [setCall_self] at inside
      cases inside
    refine (Function.update_of_ne other _ _).trans (kept u (inDequeue_update ?_ inside))
    exact fun _ => now

/-- The variable of a caller of `Dequeue` changes only where the call returns 1. -/
theorem next_kept {l : Label Tid} (kept : ∀ t, (s.call t).inDequeue = true → s.val t = s.given t)
    (hs : next s l = some s') (u : Tid) (inside : (s'.call u).inDequeue = true) :
    s'.val u = s'.given u := by
  cases next_step hs with
  | callEnqueue | callAbort | callEmpty | empty =>
    exact kept u (inDequeue_update (fun wrong => by cases wrong) inside)
  | @callDequeue t rest val =>
    simp only [State.setCall] at inside ⊢
    by_cases here : u = t
    · subst here
      rw [Function.update_self, Function.update_self]
    · rw [Function.update_of_ne here] at inside
      rw [Function.update_of_ne here, Function.update_of_ne here]
      exact kept u inside
  | @notifies t w val hc hw =>
    have different : w ≠ t := by
      rintro rfl
      rw [hw] at hc
      cases hc
    refine kept u (inDequeue_update (t := t) (c := .answered 0) (fun wrong => by cases wrong) ?_)
    refine inDequeue_update (fun _ => ?_) inside
    simp only [Function.update_of_ne different, hw]
    rfl
  | unheard hc nobody =>
    exact kept u (inDequeue_update (fun wrong => by cases wrong) inside)
  | dequeue hc outcome => exact outcome.kept (by rw [hc]; rfl) kept u inside
  | abort hc =>
    apply kept u
    have before := inDequeue_update (fun wrong => by cases wrong) inside
    simp only [notifyAll] at before
    split at before
    · rename_i waits
      rw [waits]
      rfl
    · exact before
  | wake hc =>
    exact kept u (inDequeue_update (fun _ => by rw [hc]; rfl) inside)
  | resume hc outcome =>
    refine outcome.kept ?_ kept u inside
    rcases hc with hc | hc <;> rw [hc] <;> rfl

theorem next_aborted {l : Label Tid} (hs : next s l = some s') (aborted : s.abortRequest = true) :
    s'.abortRequest = true := by
  cases next_step hs with
  | abort => exact rfl
  | dequeue hc outcome | resume hc outcome => cases outcome <;> exact aborted
  | _ => exact aborted

theorem reach_inv (reached : (machine Tid).Reach s) : s.delivered ++ s.queue = s.enqueued ∧
    ∀ t, (s.call t).inDequeue = true → s.val t = s.given t := by
  refine reached.invariant (P := fun s =>
    s.delivered ++ s.queue = s.enqueued ∧ ∀ t, (s.call t).inDequeue = true → s.val t = s.given t) _
    ⟨rfl, fun _ _ => rfl⟩ ?_
  rintro s l s' ⟨order, kept⟩ - hs
  exact ⟨next_order order hs, next_kept kept hs⟩

/-- The values delivered, in the order of the critical sections that return 1, and those
still queued are the values enqueued. A critical section of `Dequeue` ends with a code unless
there is nothing to return yet. The code is -1 iff the abort flag is set there, so always
behind an `Abort`, and 0 only on an empty queue; then the queue and the caller's variable are
as they were. -/
theorem dequeues_refine_fifo (run : (machine Tid).Run) :
    (∀ i, i ≤ run.length →
      (run.state i).delivered ++ (run.state i).queue = (run.state i).enqueued) ∧
    ∀ i, i < run.length →
      let s := run.state i
      let s' := run.state (i + 1)
      Effect s s' (run.label i) ∧
      (∀ t, (s.call t).inDequeue = true →
        (run.label i = .enter t ∨ ∃ timedOut, run.label i = .resume t timedOut) →
        (s'.call t = .blocked ∧ s.queue = [] ∧ s.abortRequest = false ∧
            run.label i ≠ .resume t true) ∨
          ∃ code, Decides s' (run.label i) t code) ∧
      ∀ t code, Decides s' (run.label i) t code →
        (code = -1 ∨ code = 0 ∨ code = 1) ∧
        (code = -1 ↔ s.abortRequest = true) ∧
        (code = 0 → s.queue = [] ∧ s.abortRequest = false) ∧
        (code ≠ 1 → s'.queue = s.queue ∧ s'.val t = s'.given t) ∧
        (code = 1 → s.queue = s'.val t :: s'.queue ∧ s'.delivered = s.delivered ++ [s'.val t]) ∧
        ∀ j u, j < i → run.label j = .enter u → (run.state j).call u = .abort → code = -1 := by
  refine ⟨fun i hi => (reach_inv (run.reach hi)).1, fun i hi => ?_⟩
  intro s s'
  have step : next s (run.label i) = some s' := run.step i hi
  refine ⟨next_effect step, fun t => next_settles step, fun t code decides => ?_⟩
  obtain ⟨outcome, inside⟩ := decides_outcome step decides
  have returned := decides.2
  have before := (reach_inv (run.reach (Nat.le_of_lt hi))).2 t inside
  -- an abort that came before is still in force
  have aborted : ∀ j u, j < i → run.label j = .enter u → (run.state j).call u = .abort →
      s.abortRequest = true := by
    intro j u earlier entered called
    have called' : next (run.state j) (run.label j) = some (run.state (j + 1)) := run.step j (by omega)
    have set : (run.state (j + 1)).abortRequest = true := by
      simp only [entered, next, called] at called'
      rw [← Option.some.inj called']
      rfl
    exact run.monotone (R := fun a b => a.abortRequest = true → b.abortRequest = true)
      (fun _ => id) (fun _ _ _ first second => second ∘ first) (fun _ _ _ => next_aborted)
      (show j + 1 ≤ i by omega) (Nat.le_of_lt hi) set
  generalize s' = s' at outcome returned ⊢
  have code_eq : ∀ {q : State Tid} {c : ℤ}, (q.setCall t (.dequeued c)).call t = .dequeued code →
      c = code := by
    intro q c hc
    rw [setCall_self] at hc
    exact Call.dequeued.inj hc
  cases outcome with
  | aborts set =>
    obtain rfl := code_eq returned
    refine ⟨Or.inl rfl, iff_of_true rfl set, fun wrong => (by cases wrong), fun _ => ⟨rfl, before⟩,
      fun wrong => (by cases wrong), fun _ _ _ _ _ => rfl⟩
  | expires goesOn empty =>
    obtain rfl := code_eq returned
    refine ⟨Or.inr (Or.inl rfl), iff_of_false (by decide) (by simp [goesOn]), fun _ => ⟨empty, goesOn⟩,
      fun _ => ⟨rfl, before⟩, fun wrong => (by cases wrong), fun j u earlier entered called => ?_⟩
    have set := aborted j u earlier entered called
    rw [goesOn] at set
    cases set
  | @takes val rest goesOn first =>
    obtain rfl := code_eq returned
    have written : Function.update s.val t val t = val := Function.update_self ..
    refine ⟨Or.inr (Or.inr rfl), iff_of_false (by decide) (by simp [goesOn]), fun wrong => (by cases wrong),
      fun wrong => absurd rfl wrong, fun _ => ⟨?_, ?_⟩, fun j u earlier entered called => ?_⟩
    · simp only [State.setCall, written]
      exact first
    · simp only [State.setCall, written]
    · have set := aborted j u earlier entered called
      rw [goesOn] at set
      cases set
  | waits =>
    rw [setCall_self] at returned
    cases returned

/-- A consumer waits and gets the element that comes in; behind an abort the next one is
refused beside an element. -/
def abortedRun : (machine (Fin 3)).Run := .ofSchedule _ (.enter 0)
  [.callDequeue 1 7, .enter 1, .callEnqueue 0 5, .enqueue 0 (some 1), .resume 1 true, .callAbort 2,
    .enter 2, .callEnqueue 0 6, .enqueue 0 none, .callDequeue 1 9, .enter 1] (by decide)

theorem dequeues_refine_fifo_aborted :
    (abortedRun.state 10).delivered ++ (abortedRun.state 10).queue = (abortedRun.state 10).enqueued ∧
      (abortedRun.state 10).enqueued = [5, 6] ∧
      (Decides (abortedRun.state 5) (.resume 1 true) 1 1 ∧ (abortedRun.state 5).delivered = [5]) ∧
      Decides (abortedRun.state 11) (.enter 1) 1 (-1) := by
  obtain ⟨order, decisions⟩ := dequeues_refine_fifo abortedRun
  refine ⟨order 10 (by decide), by decide, ?_, ?_⟩
  · obtain ⟨-, settles, codes⟩ := decisions 4 (by decide)
    rcases settles 1 (by decide) (Or.inr ⟨true, rfl⟩) with ⟨-, -, -, waits⟩ | ⟨code, decides⟩
    · exact absurd rfl waits
    · obtain ⟨known, minus, zero, -, one, -⟩ := codes 1 code decides
      rcases known with rfl | rfl | rfl
      · exact absurd (minus.mp rfl) (by decide)
      · exact absurd (zero rfl).1 (by decide)
      · exact ⟨decides, (one rfl).2⟩
  · obtain ⟨-, settles, codes⟩ := decisions 10 (by decide)
    rcases settles 1 (by decide) (Or.inl rfl) with ⟨-, -, goesOn, -⟩ | ⟨code, decides⟩
    · exact absurd goesOn (by decide)
    · obtain ⟨-, -, -, -, -, refused⟩ := codes 1 code decides
      obtain rfl := refused 6 2 (by decide) rfl (by decide)
      exact decides

end BlockQueue
