import CppConcurrency.YqueueThreadsWakeups

/-!
# The last notification

The third consumer reads outside the mutex and tests nothing under it before it waits. A
notification between the read and the wait is lost, and the last one is not repeated: the
consumer then sleeps for good. This is the only way for `main` not to come to its end where
every pair takes a millisecond and writes what its consumer counts.
-/

namespace YqueueThreads

open Machines Pipes Ypipe

variable {N : ℕ} {s s' : State} {old : List ℕ} {p : Pipe ℕ} {l : Label} {k : ℕ}

/-! ### The last notification -/

/-- On the way to the wait, or in it. -/
def Consumer.waits (pc : Consumer) : Prop := pc = .lock ∨ pc = .wait ∨ pc = .blocked

/-- The producer notifies for the last time while the consumer, which has found nothing, has
not yet got the mutex for its wait. -/
def Lost (s : State) (l : Label) : Prop :=
  l = .producer ∧ s.producer = .notify none ∧ s.consumer = .lock

/-- No notification will come any more for this wait. -/
def Late (s : State) : Prop := s.producer.isLast ∧ s.consumer.waits

theorem Consumer.waits_ne_done {pc : Consumer} (waits : pc.waits) : pc ≠ .done := by
  rintro rfl
  rcases waits with wrong | wrong | wrong <;> cases wrong

theorem Consumer.notified_waits {pc : Consumer} (waits : pc.notified.waits) :
    pc = .lock ∨ pc = .wait := by
  cases pc with
  | lock => exact Or.inl rfl
  | wait => exact Or.inr rfl
  | _ => rcases waits with now | now | now <;> cases now

/-- With a condition variable the loop ends in a critical section. -/
theorem Plan.loop_not_last (plan : Plan) (signals : plan.signals = true) (i count : ℕ) :
    ¬ (plan.loop i count).isLast := by
  unfold Plan.loop
  rw [signals]
  rintro (now | now)
  all_goals
    split at now
    · cases now
    · cases now

theorem advanceProducer_last (signals : s.plan.signals = true)
    (hs : advanceProducer N s = some s') (last : s'.producer.isLast) :
    s.producer.isLast ∧ s'.consumer = s.consumer ∨
      s.producer = .notify none ∧ s'.consumer = s.consumer.notified := by
  have flushed {i count : ℕ} {pipe : Ypipe.State ℕ} (now : (s.flushes i count pipe).producer.isLast) :
      False := by
    unfold State.flushes Plan.flushed at now
    dsimp only at now
    split at now
    · split at now
      · rcases now with now | now <;> cases now
      · exact s.plan.loop_not_last signals _ _ now
    · rcases now with now | now <;> cases now
  unfold advanceProducer at hs
  cases now : s.producer with
  | done =>
    simp only [now] at hs
    cases hs
  | write i k count =>
    simp only [now] at hs
    obtain ⟨pipe, -, rfl⟩ := Option.map_eq_some_iff.mp hs
    rcases last with wrong | wrong <;> cases wrong
  | writing i k count =>
    simp only [now] at hs
    obtain ⟨pipe, -, rfl⟩ := Option.map_eq_some_iff.mp hs
    dsimp only at last
    split at last
    · rcases last with wrong | wrong <;> cases wrong
    · rcases last with wrong | wrong <;> cases wrong
  | add i k =>
    simp only [now] at hs
    obtain rfl := Option.some.inj hs
    rcases last with wrong | wrong <;> cases wrong
  | reload i k =>
    simp only [now] at hs
    obtain rfl := Option.some.inj hs
    dsimp only at last
    split at last
    · rcases last with wrong | wrong <;> cases wrong
    · rcases last with wrong | wrong <;> cases wrong
  | flush i count | flushing i count =>
    simp only [now] at hs
    obtain ⟨pipe, -, rfl⟩ := Option.map_eq_some_iff.mp hs
    exact (flushed last).elim
  | lock after =>
    simp only [now] at hs
    obtain ⟨-, ⟨⟩⟩ := Option.ite_none_right_eq_some.mp hs
    rcases last with wrong | wrong <;> cases wrong
  | notify after =>
    simp only [now] at hs
    obtain rfl := Option.some.inj hs
    rcases last with ⟨⟨⟩⟩ | wrong
    · exact Or.inr ⟨rfl, rfl⟩
    · cases wrong
  | unlock after =>
    simp only [now] at hs
    obtain rfl := Option.some.inj hs
    cases after with
    | none => exact Or.inl ⟨Or.inl rfl, rfl⟩
    | some round => exact (s.plan.loop_not_last signals _ _ last).elim

/-- The consumer comes to the wait only from a read that found nothing. -/
theorem ConsumerStep.waits (step : ConsumerStep p s s') (waits : s'.consumer.waits) :
    s.consumer.waits ∨
      s.plan.signals = true ∧ s.consumer = .reading ∧ p.taken = p.visible := by
  cases step with
  | moves now later =>
    left
    rw [later] at waits
    cases stage : s.consumer with
    | lock => exact Or.inl rfl
    | wait => exact Or.inr (Or.inl rfl)
    | test =>
      rw [stage, Consumer.after] at waits
      split at waits
      · rcases waits with wrong | wrong | wrong <;> cases wrong
      · rcases waits with wrong | wrong | wrong <;> cases wrong
    | blocked => exact absurd stage now.2.1
    | _ =>
      rw [stage] at waits
      rcases waits with wrong | wrong | wrong <;> cases wrong
  | goesOn now later =>
    rw [later] at waits
    rcases waits with wrong | wrong | wrong <;> cases wrong
  | takes now later =>
    rw [later] at waits
    rcases waits with wrong | wrong | wrong <;> cases wrong
  | fails now later drawn pays none =>
    cases signals : s.plan.signals with
    | true => exact Or.inr ⟨rfl, now, none⟩
    | false =>
      rw [later, signals] at waits
      rcases waits with wrong | wrong | wrong <;> cases wrong

theorem Inv.waits_signals (h : Inv N s old p) (waits : s.consumer.waits) : s.plan.signals = true := by
  have fits := h.draws.fits
  rcases waits with now | now | now
  all_goals
    rw [now] at fits
    exact fits.1

/-- A wait is late only because the last notification was lost. -/
theorem Inv.late_of_next (positive : 1 ≤ N) (h : Inv N s old p)
    (covers : s.plan.signals = true → s.plan.Covers)
    (hs : YqueueThreads.next N s l = some s') (late : Late s') : Late s ∨ Lost s l := by
  obtain ⟨last, waits⟩ := late
  cases l with
  | producer =>
    obtain ⟨-, -, ⟨same, -⟩ | ⟨-, woken, -⟩⟩ := advanceProducer_work h.writes.fits hs
    · have signals := h.waits_signals (same ▸ waits)
      rcases advanceProducer_last signals hs last with ⟨before, -⟩ | ⟨now, notified⟩
      · exact Or.inl ⟨before, same ▸ waits⟩
      · rw [notified] at waits
        rcases Consumer.notified_waits waits with locks | waiting
        · exact Or.inr ⟨rfl, now, locks⟩
        · have held : s.mutex = some .producer := (h.mutex .producer).mpr (by rw [State.holds, now]; rfl)
          have free := h.unheld_other (q := .consumer) held (by decide)
          rw [State.holds, waiting] at free
          cases free
    · rw [woken] at waits
      rcases waits with wrong | wrong | wrong <;> cases wrong
  | consumer =>
    obtain ⟨same, -, step⟩ := h.consumer_cases positive hs
    rw [same] at last
    rcases step.waits waits with before | ⟨signals, reading, none⟩
    · exact Or.inl ⟨last, before⟩
    · exact absurd none (h.finds (covers signals) last reading)
  | spurious =>
    obtain ⟨-, ⟨⟩⟩ := Option.ite_none_right_eq_some.mp hs
    rcases waits with wrong | wrong | wrong <;> cases wrong
  | main elapsed =>
    obtain ⟨⟨-, stopped, -⟩, step⟩ := advanceMain_cases hs
    cases step with
    | crashes | ends => exact absurd stopped (Consumer.waits_ne_done waits)
    | begins => rcases waits with wrong | wrong | wrong <;> cases wrong

/-- A late wait stays one. -/
theorem Late.next (late : Late s) (hs : YqueueThreads.next N s l = some s') (other : l ≠ .spurious) :
    Late s' := by
  obtain ⟨last, waits⟩ := late
  cases l with
  | spurious => exact absurd rfl other
  | producer =>
    rcases last with now | now
    · simp only [YqueueThreads.next, advanceProducer, now] at hs
      obtain rfl := Option.some.inj hs
      exact ⟨Or.inr rfl, waits⟩
    · simp only [YqueueThreads.next, advanceProducer, now] at hs
      cases hs
  | consumer =>
    rcases waits with now | now | now
    · simp only [YqueueThreads.next, advanceConsumer, now] at hs
      obtain ⟨-, ⟨⟩⟩ := Option.ite_none_right_eq_some.mp hs
      exact ⟨last, Or.inr (Or.inl rfl)⟩
    · simp only [YqueueThreads.next, advanceConsumer, now] at hs
      obtain rfl := Option.some.inj hs
      exact ⟨last, Or.inr (Or.inr rfl)⟩
    · simp only [YqueueThreads.next, advanceConsumer, now] at hs
      cases hs
  | main elapsed =>
    obtain ⟨⟨-, stopped, -⟩, -⟩ := advanceMain_cases hs
    exact absurd stopped (Consumer.waits_ne_done waits)

theorem Lost.late (lost : Lost s l) (hs : YqueueThreads.next N s l = some s') : Late s' := by
  obtain ⟨rfl, now, locks⟩ := lost
  simp only [YqueueThreads.next, advanceProducer, now, locks] at hs
  obtain rfl := Option.some.inj hs
  exact ⟨Or.inl rfl, Or.inl rfl⟩

/-- The division kills `main` where a pair took no millisecond, and for good. -/
theorem next_crashed (hs : YqueueThreads.next N s l = some s') :
    s'.main = .crashed ↔ s.main = .crashed ∨ l = .main 0 := by
  cases l with
  | producer => simp [(advance_pairs (Or.inl hs)).2.2.2]
  | consumer => simp [(advance_pairs (Or.inr hs)).2.2.2]
  | spurious =>
    obtain ⟨-, ⟨⟩⟩ := Option.ite_none_right_eq_some.mp hs
    simp
  | main elapsed =>
    obtain ⟨⟨-, -, joins⟩, step⟩ := advanceMain_cases hs
    cases step with
    | crashes zero => simp [zero]
    | ends took => simp [joins, took]
    | begins took =>
      change s.main = .crashed ↔ _
      simp [joins, took]

theorem crashed_iff {first : Plan} {pairs : List Plan} (run : (machine N first pairs).Run) {j : ℕ}
    (hj : j ≤ run.length) :
    (run.state j).main = .crashed ↔ ∃ i, i < j ∧ run.label i = .main 0 :=
  run.behind_iff (P := fun s => s.main = .crashed) (E := fun _ l => l = .main 0)
    (fun wrong => by cases wrong) (fun i hi => next_crashed (run.step i hi)) hj

/-- In a run without spurious wake-ups a wait is late exactly behind a notification that
was lost. -/
theorem late_iff (positive : 1 ≤ N) {first : Plan} {pairs : List Plan}
    (covers : ∀ plan ∈ first :: pairs, plan.signals = true → plan.Covers)
    (run : (machine N first pairs).Run)
    (awake : ∀ i, i < run.length → run.label i ≠ .spurious) {j : ℕ} (hj : j ≤ run.length) :
    Late (run.state j) ↔ ∃ i, i < j ∧ Lost (run.state i) (run.label i) := by
  refine run.behind_iff (P := Late) (E := Lost) ?_ (fun i hi => ?_) hj
  · rintro ⟨-, wrong | wrong | wrong⟩ <;> cases wrong
  · have hs := run.step i hi
    obtain ⟨⟨old, p, h⟩, finished, all, -⟩ := reach_inv positive (run.reach (Nat.le_of_lt hi))
    have here : (run.state i).plan ∈ first :: pairs :=
      all ▸ List.mem_append_right _ List.mem_cons_self
    constructor
    · exact h.late_of_next positive (covers _ here) hs
    · rintro (before | lost)
      · exact before.next hs (awake i hi)
      · exact lost.late hs

/-- Where a run without spurious wake-ups has come to rest, `main` has come to its end if no
last notification was lost and no pair took less than a millisecond, and only then. Of the
pairs it is asked that a producer with a condition variable writes what its consumer counts. -/
theorem last_notification_decides (positive : 1 ≤ N) {first : Plan} {pairs : List Plan}
    (covers : ∀ plan ∈ first :: pairs, plan.signals = true → plan.Covers)
    (run : (machine N first pairs).Run)
    (awake : ∀ i, i < run.length → run.label i ≠ .spurious)
    (quiet : Quiet N (run.state run.length)) :
    Finished (run.state run.length) ↔
      (∀ i, i < run.length → ¬ Lost (run.state i) (run.label i)) ∧
        ∀ i, i < run.length → run.label i ≠ .main 0 := by
  have late := late_iff positive covers run awake (Nat.le_refl _)
  have killed := crashed_iff run (Nat.le_refl _)
  have reached := run.reach (Nat.le_refl _)
  obtain ⟨⟨old, p, h⟩, -⟩ := reach_inv positive reached
  have ends := (h.quiet_iff positive (reach_ended reached)).mp quiet
  constructor
  · rintro ⟨done, -, stopped, -⟩
    refine ⟨fun i hi lost => ?_, fun i hi zero => ?_⟩
    · obtain ⟨-, waits⟩ := late.mpr ⟨i, hi, lost⟩
      exact absurd stopped (Consumer.waits_ne_done waits)
    · rw [killed.mpr ⟨i, hi, zero⟩] at done
      cases done
  · rintro ⟨heard, took⟩
    refine ends.resolve_right ?_
    rintro (crashed | ⟨-, returned, asleep⟩)
    · obtain ⟨i, hi, zero⟩ := killed.mp crashed
      exact took i hi zero
    · obtain ⟨i, hi, lost⟩ := late.mp ⟨Or.inr returned, Or.inr (Or.inr asleep)⟩
      exact heard i hi lost

/-- The first of the two pairs takes less than a millisecond. -/
def killedRun : (machine 2 (.plain 1 Nat.one_pos) [.condition 1 Nat.one_pos]).Run :=
  .ofSchedule _ .spurious (twoPairs.take 19 ++ [.main 0]) (by decide +kernel)

theorem last_notification_decides_twoPairs :
    (∀ i, i < 51 → ¬ Lost (twoPairsRun.state i) (twoPairsRun.label i)) ∧
      ¬ Finished (killedRun.state 20) := by
  have covers : ∀ plan ∈ [Plan.plain 1 Nat.one_pos, .condition 1 Nat.one_pos],
      plan.signals = true → plan.Covers := by
    simp only [List.forall_mem_cons]
    exact ⟨fun _ => Plan.plain_covers _, fun _ => Plan.condition_covers _, List.forall_mem_nil _⟩
  constructor
  · have awake : ∀ i, i < 51 → twoPairsRun.label i ≠ .spurious := by decide +kernel
    have ends : Finished (twoPairsRun.state 51) := ⟨by decide +kernel, by decide +kernel,
      by decide +kernel, List.isEmpty_iff.mp (by decide +kernel)⟩
    have reached := twoPairsRun.reach (Nat.le_refl _)
    obtain ⟨⟨old, p, h⟩, -⟩ := reach_inv (by decide) reached
    have quiet := (h.quiet_iff (by decide) (reach_ended reached)).mpr (Or.inl ends)
    exact ((last_notification_decides (by decide) covers twoPairsRun awake quiet).mp ends).1
  · have awake : ∀ i, i < 20 → killedRun.label i ≠ .spurious := by decide +kernel
    have reached := killedRun.reach (Nat.le_refl _)
    obtain ⟨⟨old, p, h⟩, -⟩ := reach_inv (by decide) reached
    have quiet := (h.quiet_iff (by decide) (reach_ended reached)).mpr
      (Or.inr (Or.inl (by decide +kernel)))
    intro ends
    obtain ⟨-, took⟩ := (last_notification_decides (by decide) covers killedRun awake quiet).mp ends
    exact took 19 (by decide +kernel) (by decide +kernel)

/-! ### A schedule that loses it

The earlier pairs come to their end. In the next one the consumer finds nothing at once and
is overtaken on its way to the wait: the producer writes everything, notifies and returns. -/

/-- Who moves next, where the pair with `k` pairs behind it is to be lost. -/
def adversary (k : ℕ) (s : State) : Label :=
  if s.later.length = k ∧ (s.consumer = .read ∨ s.consumer = .reading) then .consumer
  else if s.producer ≠ .done then .producer
  else if s.consumer = .done then .main 1
  else .consumer

/-- From a read that found nothing to the end of the wait. -/
def Consumer.inWait : Consumer → Bool
  | .lock | .wait | .blocked | .woken | .unlock => true
  | .read | .reading | .add _ | .test | .done => false

/-- How far the schedule has come: in an earlier pair, where the consumer starts when the
producer has returned, or in the pair that is to be lost, before, at and in the wait. -/
inductive Doomed (k : ℕ) (s : State) : Prop where
  | early (before : k < s.later.length) (first : s.producer ≠ .done → s.consumer = .read)
      (outside : s.consumer.inWait = false)
  | reads (here : s.later.length = k) (now : s.consumer = .read ∨ s.consumer = .reading)
      (none : s.drawn = []) (waits : s.producer = s.plan.loop 0 0)
  | overtaken (here : s.later.length = k) (now : s.consumer = .lock) (none : s.drawn = [])
  | sleeps (here : s.later.length = k) (now : s.consumer = .wait ∨ s.consumer = .blocked)
      (none : s.drawn = []) (returned : s.producer = .done)

/-- Before the first round nothing is flushed. -/
theorem Plan.loop_handed (plan : Plan) (count : ℕ) : (plan.loop 0 count).handed plan = 0 := by
  unfold Plan.loop
  by_cases more : 0 < plan.rounds
  · rw [if_pos more]
    exact Nat.zero_mul _
  · have none : plan.rounds = 0 := Nat.eq_zero_of_not_pos more
    have nothing : plan.rounds * plan.perRound = 0 := by rw [none, Nat.zero_mul]
    rw [if_neg more]
    cases plan.signals with
    | true => exact nothing
    | false => exact nothing

/-- With a condition variable a read that finds nothing comes closer to the wait. -/
theorem Inv.waiter_toDo (positive : 1 ≤ N) (h : Inv N s old p) (signals : s.plan.signals = true)
    (hs : YqueueThreads.advanceConsumer N s = some s') : s'.toDo 0 < s.toDo 0 := by
  have pays := h.consumer_pays positive signals hs
  obtain ⟨-, later, -, main⟩ := advance_pairs (Or.inr hs)
  unfold State.toDo
  rw [later, main]
  omega

/-- Only a read that finds nothing leads to the wait. -/
theorem ConsumerStep.outside (step : ConsumerStep p s s') (outside : s.consumer.inWait = false)
    (finds : s.consumer = .reading → p.taken ≠ p.visible) : s'.consumer.inWait = false := by
  cases step with
  | moves now later =>
    rw [later]
    cases stage : s.consumer with
    | lock | wait | blocked | woken | unlock =>
      rw [stage] at outside
      cases outside
    | test =>
      rw [Consumer.after]
      split
      · rfl
      · rfl
    | _ => rfl
  | goesOn now later => exact congrArg Consumer.inWait later
  | takes now later => exact congrArg Consumer.inWait later
  | fails now later drawn pays none => exact absurd none (finds now)

/-- A consumer outside the critical sections does not hold the producer up. -/
theorem Inv.producer_free (positive : 1 ≤ N) (h : Inv N s old p) (running : s.producer ≠ .done)
    (outside : s.consumer ≠ .wait ∧ s.consumer ≠ .unlock) :
    ∃ s', YqueueThreads.advanceProducer N s = some s' := by
  rcases h.producer_goes_on positive running with step | ⟨inside | inside, -⟩
  · exact step
  · exact absurd inside outside.1
  · exact absurd inside outside.2

/-- A consumer that is awake stays where it is when the producer moves. -/
theorem Inv.producer_leaves (h : Inv N s old p) (hs : YqueueThreads.advanceProducer N s = some s')
    (awake : s.consumer ≠ .blocked) : s'.consumer = s.consumer ∧ s'.drawn = s.drawn := by
  obtain ⟨-, drawn, ⟨same, -⟩ | ⟨asleep, -⟩⟩ := advanceProducer_work h.writes.fits hs
  · exact ⟨same, drawn⟩
  · exact absurd asleep awake

/-- The schedule goes on until the pair is lost. -/
theorem Inv.doomed_next (positive : 1 ≤ N) (h : Inv N s old p) (covers : s.plan.Covers)
    (signals : s.later.length = k → s.plan.signals = true)
    (joins : s.later ≠ [] → s.main = .joins) (doomed : Doomed k s)
    (goesOn : ¬ (s.later.length = k ∧ s.producer = .done ∧ s.consumer = .blocked)) :
    ∃ t, YqueueThreads.next N s (adversary k s) = some t ∧ t.toDo 0 < s.toDo 0 := by
  cases doomed with
  | early before first outside =>
    have other : ¬ (s.later.length = k ∧ (s.consumer = .read ∨ s.consumer = .reading)) := by
      rintro ⟨here, -⟩
      omega
    rw [adversary, if_neg other]
    by_cases returned : s.producer = .done
    · rw [if_neg (not_not.mpr returned)]
      by_cases stopped : s.consumer = .done
      · have more : s.main = .joins := joins (List.ne_nil_of_length_pos (Nat.zero_lt_of_lt before))
        rw [if_pos stopped]
        exact ⟨_, advanceMain_proceeds returned stopped more, (s.proceed_toDo more 0).1⟩
      · obtain ⟨t, step⟩ := h.consumer_goes_on positive returned stopped fun now => by
          rw [now] at outside
          cases outside
        rw [if_neg stopped]
        exact ⟨t, step, h.consumer_toDo positive step (h.finds covers (Or.inr returned)) 0⟩
    · obtain ⟨t, step⟩ := h.producer_free positive returned (by rw [first returned]; decide)
      rw [if_pos returned]
      exact ⟨t, step, h.producer_toDo step 0⟩
  | reads here now =>
    obtain ⟨t, step, -⟩ := h.advanceConsumer positive
      (by rcases now with now | now <;> rw [now] <;> decide)
      (by rcases now with now | now <;> rw [now] <;> decide)
      (by rcases now with now | now <;> rw [now] <;> rintro (wrong | wrong) <;> cases wrong)
    rw [adversary, if_pos ⟨here, now⟩]
    exact ⟨t, step, h.waiter_toDo positive (signals here) step⟩
  | overtaken here now =>
    have past : ¬ (s.later.length = k ∧ (s.consumer = .read ∨ s.consumer = .reading)) := by
      rw [now]
      rintro ⟨-, wrong | wrong⟩ <;> cases wrong
    rw [adversary, if_neg past]
    by_cases returned : s.producer = .done
    · obtain ⟨t, step⟩ := h.consumer_goes_on positive returned (by rw [now]; decide)
        (by rw [now]; decide)
      rw [if_neg (not_not.mpr returned), if_neg (by rw [now]; decide)]
      exact ⟨t, step, h.waiter_toDo positive (signals here) step⟩
    · obtain ⟨t, step⟩ := h.producer_free positive returned (by rw [now]; decide)
      rw [if_pos returned]
      exact ⟨t, step, h.producer_toDo step 0⟩
  | sleeps here now none returned =>
    have waiting : s.consumer = .wait := now.resolve_right fun asleep =>
      goesOn ⟨here, returned, asleep⟩
    have past : ¬ (s.later.length = k ∧ (s.consumer = .read ∨ s.consumer = .reading)) := by
      rw [waiting]
      rintro ⟨-, wrong | wrong⟩ <;> cases wrong
    obtain ⟨t, step⟩ := h.consumer_goes_on positive returned (by rw [waiting]; decide)
      (by rw [waiting]; decide)
    rw [adversary, if_neg past, if_neg (not_not.mpr returned), if_neg (by rw [waiting]; decide)]
    exact ⟨t, step, h.waiter_toDo positive (signals here) step⟩

/-- The pair begins with nothing to read. -/
theorem Inv.begins_empty (h : Inv N s old p) (none : s.drawn = []) (first : s.producer = s.plan.loop 0 0) :
    p.taken = p.visible := by
  rw [h.draws.taken, h.writes.handed, none, first, s.plan.loop_handed]
  rfl

theorem Inv.doomed (positive : 1 ≤ N) (h : Inv N s old p) (covers : s.plan.Covers)
    (signals : s.later.length = k → s.plan.signals = true) (doomed : Doomed k s)
    (hs : YqueueThreads.next N s (adversary k s) = some s') : Doomed k s' := by
  cases doomed with
  | early before first outside =>
    have other : ¬ (s.later.length = k ∧ (s.consumer = .read ∨ s.consumer = .reading)) := by
      rintro ⟨here, -⟩
      omega
    rw [adversary, if_neg other] at hs
    by_cases returned : s.producer = .done
    · rw [if_neg (not_not.mpr returned)] at hs
      by_cases stopped : s.consumer = .done
      · rw [if_pos stopped] at hs
        have hs : advanceMain s 1 = some s' := hs
        obtain ⟨-, step⟩ := advanceMain_cases hs
        cases step with
        | crashes zero => cases zero
        | ends took last =>
          rw [last] at before
          exact absurd before (Nat.not_lt_zero k)
        | @begins took plan later pairs =>
          rw [pairs, List.length_cons] at before
          by_cases here : later.length = k
          · exact .reads here (Or.inl rfl) rfl rfl
          · exact .early (Nat.lt_of_le_of_ne (Nat.le_of_lt_succ before) (Ne.symm here))
              (fun _ => rfl) rfl
      · rw [if_neg stopped] at hs
        obtain ⟨same, -, step⟩ := h.consumer_cases positive hs
        obtain ⟨-, later, -⟩ := advance_pairs (Or.inr hs)
        have finds := h.finds covers (Or.inr returned)
        exact .early (later ▸ before) (fun running => absurd (same.trans returned) running)
          (step.outside outside finds)
    · rw [if_pos returned] at hs
      obtain ⟨same, -⟩ := h.producer_leaves hs (by rw [first returned]; decide)
      obtain ⟨-, later, -⟩ := advance_pairs (Or.inl hs)
      exact .early (later ▸ before) (fun _ => same.trans (first returned)) (same ▸ outside)
  | reads here now none first =>
    rw [adversary, if_pos ⟨here, now⟩] at hs
    obtain ⟨same, -, step⟩ := h.consumer_cases positive hs
    obtain ⟨plan, later, -⟩ := advance_pairs (Or.inr hs)
    have first' : s'.producer = s'.plan.loop 0 0 := by rw [same, plan, first]
    cases step with
    | moves outside goes drawn =>
      have reads : s.consumer = .read := now.resolve_right outside.1
      rw [reads] at goes
      exact .reads (later ▸ here) (Or.inr goes) (drawn.trans none) first'
    | goesOn reading goes drawn => exact .reads (later ▸ here) (Or.inr goes) (drawn.trans none) first'
    | takes reading goes drawn pays some => exact absurd (h.begins_empty none first) (Nat.ne_of_lt some)
    | fails reading goes drawn =>
      rw [signals here] at goes
      exact .overtaken (later ▸ here) goes (drawn.trans none)
  | overtaken here now none =>
    have past : ¬ (s.later.length = k ∧ (s.consumer = .read ∨ s.consumer = .reading)) := by
      rw [now]
      rintro ⟨-, wrong | wrong⟩ <;> cases wrong
    rw [adversary, if_neg past] at hs
    by_cases returned : s.producer = .done
    · rw [if_neg (not_not.mpr returned), if_neg (by rw [now]; decide)] at hs
      obtain ⟨same, -, step⟩ := h.consumer_cases positive hs
      obtain ⟨-, later, -⟩ := advance_pairs (Or.inr hs)
      cases step with
      | moves outside goes drawn =>
        rw [now] at goes
        exact .sleeps (later ▸ here) (Or.inl goes) (drawn.trans none) (same.trans returned)
      | goesOn reading | takes reading | fails reading =>
        rw [now] at reading
        cases reading
    · rw [if_pos returned] at hs
      obtain ⟨same, drawn⟩ := h.producer_leaves hs (by rw [now]; decide)
      obtain ⟨-, later, -⟩ := advance_pairs (Or.inl hs)
      exact .overtaken (later ▸ here) (same.trans now) (drawn.trans none)
  | sleeps here now none returned =>
    have past : ¬ (s.later.length = k ∧ (s.consumer = .read ∨ s.consumer = .reading)) := by
      rcases now with now | now <;> rw [now] <;> rintro ⟨-, wrong | wrong⟩ <;> cases wrong
    have running : s.consumer ≠ .done := by rcases now with now | now <;> rw [now] <;> decide
    rw [adversary, if_neg past, if_neg (not_not.mpr returned), if_neg running] at hs
    obtain ⟨same, -, step⟩ := h.consumer_cases positive hs
    obtain ⟨-, later, -⟩ := advance_pairs (Or.inr hs)
    cases step with
    | moves outside goes drawn =>
      rw [now.resolve_right outside.2.1] at goes
      exact .sleeps (later ▸ here) (Or.inr goes) (drawn.trans none) (same.trans returned)
    | goesOn reading | takes reading | fails reading =>
      rcases now with now | now <;> rw [reading] at now <;> cases now

/-- The schedule gives every pair a time. -/
theorem adversary_alive {first : Plan} {pairs : List Plan}
    (reached : (machine N first pairs).ReachBy (fun s l => l = adversary k s) s) :
    s.main ≠ .crashed := by
  refine reached.invariant (P := fun s => s.main ≠ .crashed) _ (fun wrong => by cases wrong) ?_
  rintro s l t alive rfl hs crashed
  rcases (next_crashed hs).mp crashed with before | zero
  · exact alive before
  · rw [adversary] at zero
    split_ifs at zero
    all_goals cases zero

/-- The pairs up to one with as many pairs behind it. -/
theorem mem_upTo {plan : Plan} {plans before after : List Plan} (split : plans = before ++ plan :: after)
    (earlier : Earlier plans s) (here : after.length ≤ s.later.length) :
    s.plan ∈ before ++ [plan] := by
  obtain ⟨finished, all, -⟩ := earlier
  have same : (finished ++ [s.plan]) ++ s.later = (before ++ [plan]) ++ after := by
    rw [List.append_assoc, List.append_assoc]
    exact all.symm.trans split
  have length := congrArg List.length same
  simp only [List.length_append, List.length_singleton] at length
  have upTo : (finished ++ [s.plan]).IsPrefix (before ++ [plan]) :=
    List.prefix_of_prefix_length_le (List.prefix_append _ s.later)
      (same ▸ List.prefix_append _ after) (by simp only [List.length_append, List.length_singleton]; omega)
  exact upTo.subset (List.mem_append_right _ List.mem_cons_self)

theorem Doomed.behind (doomed : Doomed k s) : k ≤ s.later.length := by
  cases doomed with
  | early before => exact Nat.le_of_lt before
  | reads here | overtaken here | sleeps here => exact Nat.le_of_eq here.symm

/-- In each pair that uses the condition variable the last notification can be lost without
any spurious wake-up, if it and the pairs before it write what their consumers count: its
producer has returned, its consumer sleeps for good, and none of its items was read. -/
theorem last_notification_can_be_lost (positive : 1 ≤ N) {first plan : Plan}
    {pairs before after : List Plan} (split : first :: pairs = before ++ plan :: after)
    (covers : ∀ upTo ∈ before ++ [plan], upTo.Covers) (signals : plan.signals = true) :
    ∃ s, (machine N first pairs).ReachBy (fun _ l => l ≠ .spurious) s ∧ s.plan = plan ∧ Quiet N s ∧
      s.producer = .done ∧ s.consumer = .blocked ∧ s.main = .joins ∧
      (written s.pipe.history).length = (reads s.pipe.history).length + plan.items := by
  have here : ∀ s, (machine N first pairs).Reach s → s.later.length = after.length → s.plan = plan := by
    intro s reached same
    obtain ⟨-, finished, all, -⟩ := reach_inv positive reached
    obtain ⟨-, tails⟩ := List.append_inj' (all.symm.trans split) (by simp [same])
    exact (List.cons.inj tails).1
  have lost : ∀ s, (machine N first pairs).ReachBy (fun s l => l = adversary after.length s) s →
      Doomed after.length s := by
    intro s reached
    refine (reached.invariant (P := fun s => (machine N first pairs).Reach s ∧ Doomed after.length s) _
      ⟨.start, ?_⟩ ?_).2
    · have length := congrArg List.length split
      rw [List.length_cons, List.length_append, List.length_cons] at length
      by_cases same : pairs.length = after.length
      · exact .reads same (Or.inl rfl) rfl rfl
      · refine .early ?_ (fun _ => rfl) rfl
        change after.length < pairs.length
        omega
    · rintro s l t ⟨reached, doomed⟩ rfl hs
      obtain ⟨⟨old, p, h⟩, earlier⟩ := reach_inv positive reached
      have now := covers _ (mem_upTo split earlier doomed.behind)
      exact ⟨reached.next trivial hs,
        h.doomed positive now (fun same => (here s reached same).symm ▸ signals) doomed hs⟩
  have joins : ∀ s, (machine N first pairs).ReachBy (fun s l => l = adversary after.length s) s →
      s.later ≠ [] ∨ s.consumer = .blocked → s.main = .joins := by
    intro s reached goesOn
    cases stage : s.main with
    | joins => rfl
    | crashed => exact absurd stage (adversary_alive reached)
    | done =>
      obtain ⟨-, stopped, last⟩ := reach_ended reached.reach (by rw [stage]; decide)
      rcases goesOn with more | asleep
      · exact absurd (last stage) more
      · rw [asleep] at stopped
        cases stopped
  obtain ⟨-, s, -, reached, same, returned, asleep⟩ := Machine.ReachBy.finish (State.toDo 0)
    (fun s => s.later.length = after.length ∧ s.producer = .done ∧ s.consumer = .blocked)
    (fun s reached goesOn => by
      obtain ⟨⟨old, p, h⟩, earlier⟩ := reach_inv positive reached.reach
      have now := covers _ (mem_upTo split earlier (lost s reached).behind)
      obtain ⟨t, hs, lower⟩ := h.doomed_next positive now
        (fun same => (here s reached.reach same).symm ▸ signals)
        (fun more => joins s reached (Or.inl more)) (lost s reached) goesOn
      exact ⟨_, t, rfl, hs, lower⟩) .start
  have plan_eq := here s reached.reach same
  obtain ⟨⟨old, p, h⟩, -⟩ := reach_inv positive reached.reach
  have none : s.drawn = [] := by
    cases lost s reached with
    | early before => exact absurd same (Nat.ne_of_gt before)
    | reads here now => rcases now with now | now <;> rw [asleep] at now <;> cases now
    | overtaken here now =>
      rw [asleep] at now
      cases now
    | sleeps here now none => exact none
  refine ⟨s, ?_, plan_eq, ?_, returned, asleep, joins s reached (Or.inr asleep), ?_⟩
  · refine reached.invariant _ .start fun s l t earlier meets hs => earlier.next ?_ hs
    rw [meets, adversary]
    split_ifs <;> decide
  · exact (h.quiet_iff positive (reach_ended reached.reach)).mpr
      (Or.inr (Or.inr ⟨plan_eq ▸ signals, returned, asleep⟩))
  · obtain ⟨same, read⟩ := history_reads h.history
    have length : p.items.length = old.length + plan.items := by
      rw [h.writes.items, returned, List.length_append, List.length_range, plan_eq]
      exact congrArg _ (covers plan (List.mem_append_right _ List.mem_cons_self))
    have taken : p.taken = old.length := by rw [h.draws.taken, none]; rfl
    rw [← same, read, List.length_take, length, taken]
    omega

theorem last_notification_can_be_lost_default :
    ∃ s, (ofMain 100 2000000 (by decide)).ReachBy (fun _ l => l ≠ .spurious) s ∧
      s.plan = .condition 2000000 (by decide) ∧ Quiet 100 s ∧ s.producer = .done ∧
        s.consumer = .blocked ∧ s.main = .joins ∧
        (written s.pipe.history).length = (reads s.pipe.history).length + 2000000 := by
  have split : Plan.plain 2000000 (by decide) ::
      [.batch 2000000 (by decide), .condition 2000000 (by decide)] =
        [.plain 2000000 (by decide), .batch 2000000 (by decide)] ++
          .condition 2000000 (by decide) :: [] := rfl
  exact last_notification_can_be_lost (by decide) split (ofMain_covers (by decide) (by decide)) rfl

end YqueueThreads
