import CppConcurrency.YqueueThreadsProgress

/-!
# Whether the pairs come to their end

Where nothing but a spurious wake-up is possible, `main` has run every pair, or a consumer
sleeps on the condition variable behind a producer that has returned, or a pair took no
millisecond and the division by its time has killed `main`. With a spurious wake-up every pair
can come to its end whose producer writes as many items as its consumer counts.
-/

namespace YqueueThreads

open Machines Pipes Ypipe

variable {N : ℕ} {s s' : State} {old : List ℕ} {p : Pipe ℕ} {l : Label}

/-- `main` has run every pair. -/
def Finished (s : State) : Prop :=
  s.main = .done ∧ s.producer = .done ∧ s.consumer = .done ∧ s.later = []

/-- Nothing can happen but a spurious wake-up. -/
def Quiet (N : ℕ) (s : State) : Prop := ∀ l, l ≠ .spurious → next N s l = none

/-- A pair whose producer writes everything that the consumer counts. -/
def Plan.Covers (plan : Plan) : Prop := plan.rounds * plan.perRound = plan.items

/-- The last notification is over. -/
def Producer.isLast (pc : Producer) : Prop := pc = .unlock none ∨ pc = .done

/-! ### One of the threads goes on -/

/-- Who holds the mutex is inside a critical section. -/
theorem Inv.holder_inside (h : Inv N s old p) (held : s.mutex ≠ none) :
    (∃ after, s.producer = .notify after ∨ s.producer = .unlock after) ∨
      s.consumer = .wait ∨ s.consumer = .unlock := by
  obtain ⟨party, holds⟩ := Option.ne_none_iff_exists'.mp held
  have at_ := (h.mutex party).mp holds
  cases party with
  | producer =>
    left
    rw [State.holds] at at_
    cases now : s.producer with
    | notify after => exact ⟨after, Or.inl rfl⟩
    | unlock after => exact ⟨after, Or.inr rfl⟩
    | _ => rw [now] at at_; cases at_
  | consumer =>
    right
    rw [State.holds] at at_
    cases now : s.consumer with
    | wait => exact Or.inl rfl
    | unlock => exact Or.inr rfl
    | _ => rw [now] at at_; cases at_

/-- Until the producer has returned, it goes on or the consumer is in a critical section. -/
theorem Inv.producer_goes_on (positive : 1 ≤ N) (h : Inv N s old p) (running : s.producer ≠ .done) :
    (∃ s', YqueueThreads.advanceProducer N s = some s') ∨
      (s.consumer = .wait ∨ s.consumer = .unlock) ∧
        ∃ s', YqueueThreads.advanceConsumer N s = some s' := by
  by_cases free : ∀ after, s.producer = .lock after → s.mutex = none
  · obtain ⟨s', step, -⟩ := h.advanceProducer positive running free
    exact Or.inl ⟨s', step⟩
  · simp only [not_forall] at free
    obtain ⟨after, now, held⟩ := free
    right
    rcases h.holder_inside held with ⟨_, wrong | wrong⟩ | inside | inside
    · rw [now] at wrong; cases wrong
    · rw [now] at wrong; cases wrong
    · exact ⟨Or.inl inside, _, by simp only [YqueueThreads.advanceConsumer, inside]; rfl⟩
    · exact ⟨Or.inr inside, _, by simp only [YqueueThreads.advanceConsumer, inside]; rfl⟩

/-- When the producer has returned, the consumer goes on unless it has returned or sleeps. -/
theorem Inv.consumer_goes_on (positive : 1 ≤ N) (h : Inv N s old p) (returned : s.producer = .done)
    (running : s.consumer ≠ .done) (awake : s.consumer ≠ .blocked) :
    ∃ s', YqueueThreads.advanceConsumer N s = some s' := by
  obtain ⟨s', step, -⟩ := h.advanceConsumer positive running awake fun waits => by
    by_contra held
    rcases h.holder_inside held with ⟨_, wrong | wrong⟩ | inside | inside
    · rw [returned] at wrong; cases wrong
    · rw [returned] at wrong; cases wrong
    · rcases waits with now | now <;> rw [now] at inside <;> cases inside
    · rcases waits with now | now <;> rw [now] at inside <;> cases inside
  exact ⟨s', step⟩

/-- Behind two threads that have returned `main` goes on, whatever time the pair took. -/
theorem advanceMain_isSome (producer : s.producer = .done) (consumer : s.consumer = .done)
    (joins : s.main = .joins) (elapsed : ℤ) : (advanceMain s elapsed).isSome = true := by
  rw [advanceMain, if_pos ⟨producer, consumer, joins⟩]
  split
  · rfl
  · rfl

/-- With both threads returned, or one of them asleep for good, the threads do nothing. -/
theorem threads_rest (producer : s.producer = .done)
    (consumer : s.consumer = .blocked ∨ s.consumer = .done) :
    YqueueThreads.advanceProducer N s = none ∧ YqueueThreads.advanceConsumer N s = none := by
  constructor
  · simp only [advanceProducer, producer]
  · rcases consumer with now | now
    · simp only [advanceConsumer, now]
    · simp only [advanceConsumer, now]

theorem Inv.quiet_iff (positive : 1 ≤ N) (h : Inv N s old p) (ended : Ended s) :
    Quiet N s ↔ Finished s ∨ s.main = .crashed ∨
      s.plan.signals = true ∧ s.producer = .done ∧ s.consumer = .blocked := by
  constructor
  · intro quiet
    have noProducer : YqueueThreads.advanceProducer N s = none := quiet .producer nofun
    have noConsumer : YqueueThreads.advanceConsumer N s = none := quiet .consumer nofun
    have returned : s.producer = .done := by
      by_contra running
      rcases h.producer_goes_on positive running with ⟨s', step⟩ | ⟨-, s', step⟩
      · rw [noProducer] at step; cases step
      · rw [noConsumer] at step; cases step
    by_cases asleep : s.consumer = .blocked
    · have fits := h.draws.fits
      rw [asleep] at fits
      exact Or.inr (Or.inr ⟨fits.1, returned, asleep⟩)
    · have stopped : s.consumer = .done := by
        by_contra running
        obtain ⟨s', step⟩ := h.consumer_goes_on positive returned running asleep
        rw [noConsumer] at step
        cases step
      cases stage : s.main with
      | crashed => exact Or.inr (Or.inl rfl)
      | done =>
        obtain ⟨-, -, last⟩ := ended (by rw [stage]; decide)
        exact Or.inl ⟨stage, returned, stopped, last stage⟩
      | joins =>
        have goesOn := advanceMain_isSome returned stopped stage 1
        rw [show advanceMain s 1 = none from quiet (.main 1) (by decide)] at goesOn
        cases goesOn
  · intro ends l other
    obtain ⟨producer, consumer, joined⟩ : s.producer = .done ∧
        (s.consumer = .blocked ∨ s.consumer = .done) ∧ (s.main = .joins → s.consumer = .blocked) := by
      rcases ends with ⟨done, producer, consumer, -⟩ | crashed | ⟨-, producer, asleep⟩
      · exact ⟨producer, Or.inr consumer, fun joins => by rw [done] at joins; cases joins⟩
      · obtain ⟨producer, consumer, -⟩ := ended (by rw [crashed]; decide)
        exact ⟨producer, Or.inr consumer, fun joins => by rw [crashed] at joins; cases joins⟩
      · exact ⟨producer, Or.inl asleep, fun _ => asleep⟩
    obtain ⟨noProducer, noConsumer⟩ := threads_rest (N := N) producer consumer
    cases l with
    | spurious => exact absurd rfl other
    | producer => exact noProducer
    | consumer => exact noConsumer
    | main elapsed =>
      refine if_neg ?_
      rintro ⟨-, stopped, joins⟩
      rw [joined joins] at stopped
      cases stopped

/-! ### From every state `main` can come to its end -/

/-- What is left of this pair and the later ones. Where a sleeper has to be woken spuriously,
its sleep counts for more than what it does then. -/
def State.toDo (asleep : ℕ) (s : State) : ℕ :=
  s.producing + s.consuming asleep + (s.later.map fun plan => plan.bound + 1).sum +
    (decide (s.main = .joins)).toNat

theorem Inv.producer_toDo (h : Inv N s old p) (hs : YqueueThreads.advanceProducer N s = some s')
    (sleep : ℕ) : s'.toDo sleep < s.toDo sleep := by
  obtain ⟨reader, drawn, moves⟩ := advanceProducer_work h.writes.fits hs
  obtain ⟨plan, later, -, main⟩ := advance_pairs (Or.inl hs)
  unfold State.toDo State.consuming
  rw [plan, drawn, later, main]
  rcases moves with ⟨consumer, less⟩ | ⟨asleep, woken, less⟩
  · rw [consumer]
    have work := s.consumer.work_mono sleep reader
    omega
  · rw [asleep, woken, Consumer.work, Consumer.work]
    omega

/-- When everything was written and flushed, no read of a pair that covers its items fails. -/
theorem Inv.finds (h : Inv N s old p) (covers : s.plan.Covers) (last : s.producer.isLast)
    (reading : s.consumer = .reading) : p.taken ≠ p.visible := by
  intro none
  have draws := h.draws
  rw [reading] at draws
  have counted : s.drawn.length = s.countPop := draws.counted
  have missing : s.countPop < s.plan.items := draws.fits
  have handed : p.visible = old.length + s.plan.items := by
    refine h.writes.handed.trans (congrArg _ ?_)
    rcases last with now | now
    · rw [now]
      exact covers
    · rw [now]
      exact covers
  have taken := draws.taken
  omega

theorem Inv.consumer_toDo (positive : 1 ≤ N) (h : Inv N s old p)
    (hs : YqueueThreads.advanceConsumer N s = some s')
    (finds : s.consumer = .reading → p.taken ≠ p.visible) (sleep : ℕ) :
    s'.toDo sleep < s.toDo sleep := by
  obtain ⟨-, later, -, main⟩ := advance_pairs (Or.inr hs)
  obtain ⟨producing, less | ⟨reading, none, -⟩⟩ := h.advanceConsumer_work positive hs sleep
  · unfold State.toDo
    rw [later, main]
    omega
  · exact absurd none (finds reading)

theorem State.begin_toDo (s : State) {plan : Plan} {later : List Plan}
    (pairs : s.later = plan :: later) (sleep : ℕ) : (s.begin plan later).toDo sleep < s.toDo sleep := by
  have begun : (s.begin plan later).producing + (s.begin plan later).consuming sleep ≤ plan.bound :=
    s.begin_work plan later
  unfold State.toDo
  rw [pairs, List.map_cons, List.sum_cons]
  change _ + (later.map fun plan => plan.bound + 1).sum + (decide (s.main = .joins)).toNat < _
  omega

/-- With both threads joined and a time to divide by, `main` comes closer to its end. -/
theorem State.proceed_toDo (s : State) (joins : s.main = .joins) (sleep : ℕ) :
    s.proceed.toDo sleep < s.toDo sleep ∧ s.proceed.main ≠ .crashed := by
  unfold State.proceed
  split
  · unfold State.toDo
    rw [joins]
    exact ⟨Nat.lt_succ_self _, fun wrong => by cases wrong⟩
  · rename_i pairs
    refine ⟨s.begin_toDo pairs sleep, ?_⟩
    change s.main ≠ .crashed
    rw [joins]
    decide

theorem advanceMain_proceeds (producer : s.producer = .done) (consumer : s.consumer = .done)
    (joins : s.main = .joins) : advanceMain s 1 = some s.proceed := by
  rw [advanceMain, if_pos ⟨producer, consumer, joins⟩]
  rfl

/-- Some thread, a spurious wake-up or `main` brings the end closer. -/
theorem Inv.approaches (positive : 1 ≤ N) (h : Inv N s old p) (covers : s.plan.Covers)
    (ended : Ended s) (alive : s.main ≠ .crashed) (goesOn : ¬ Finished s) :
    ∃ l s', YqueueThreads.next N s l = some s' ∧ s'.main ≠ .crashed ∧ s'.toDo 14 < s.toDo 14 := by
  by_cases returned : s.producer = .done
  · by_cases stopped : s.consumer = .done
    · have joins : s.main = .joins := by
        cases stage : s.main with
        | joins => rfl
        | crashed => exact absurd stage alive
        | done =>
          obtain ⟨-, -, last⟩ := ended (by rw [stage]; decide)
          exact absurd ⟨stage, returned, stopped, last stage⟩ goesOn
      obtain ⟨lower, alive'⟩ := s.proceed_toDo joins 14
      exact ⟨.main 1, s.proceed, advanceMain_proceeds returned stopped joins, alive', lower⟩
    · by_cases asleep : s.consumer = .blocked
      · refine ⟨.spurious, { s with consumer := .woken }, if_pos asleep, alive, ?_⟩
        unfold State.toDo State.consuming
        rw [asleep, Consumer.work, Consumer.work]
        change s.producing + _ + _ + _ < _
        dsimp only
        omega
      · obtain ⟨s', step⟩ := h.consumer_goes_on positive returned stopped asleep
        have main := (advance_pairs (Or.inr step)).2.2.2
        exact ⟨.consumer, s', step, main ▸ alive,
          h.consumer_toDo positive step (h.finds covers (Or.inr returned)) 14⟩
  · rcases h.producer_goes_on positive returned with ⟨s', step⟩ | ⟨inside, s', step⟩
    · have main := (advance_pairs (Or.inl step)).2.2.2
      exact ⟨.producer, s', step, main ▸ alive, h.producer_toDo step 14⟩
    · have main := (advance_pairs (Or.inr step)).2.2.2
      refine ⟨.consumer, s', step, main ▸ alive,
        h.consumer_toDo positive step (fun reading => ?_) 14⟩
      rcases inside with now | now <;> rw [reading] at now <;> cases now

theorem Plan.batch_covers {n : ℕ} (positive : 0 < n) : (Plan.batch n positive).Covers ↔ 10 ∣ n :=
  (Nat.dvd_iff_div_mul_eq n 10).symm

theorem Plan.plain_covers {n : ℕ} (positive : 0 < n) : (Plan.plain n positive).Covers := Nat.mul_one n

theorem Plan.condition_covers {n : ℕ} (positive : 0 < n) : (Plan.condition n positive).Covers :=
  Nat.mul_one n

theorem ofMain_covers {n : ℕ} (positive : 0 < n) (tens : 10 ∣ n) :
    ∀ plan ∈ [Plan.plain n positive, .batch n positive, .condition n positive], plan.Covers := by
  simp only [List.forall_mem_cons]
  exact ⟨Plan.plain_covers positive, (Plan.batch_covers positive).mpr tens,
    Plan.condition_covers positive, List.forall_mem_nil _⟩

/-- From every state in which it is alive, `main` can come to its end. -/
def CanEnd (M : Machine State Label) : Prop :=
  ∀ s, M.Reach s → s.main ≠ .crashed → ∃ ls t, M.exec s ls = some t ∧ Finished t

theorem canEnd_iff (positive : 1 ≤ N) (first : Plan) (pairs : List Plan) :
    CanEnd (machine N first pairs) ↔ ∀ plan ∈ first :: pairs, plan.Covers := by
  constructor
  · intro ends plan there
    obtain ⟨ls, t, run, -, -, stopped, last⟩ := ends _ .start nofun
    obtain ⟨⟨old, p, h⟩, finished, all, -, planned⟩ :=
      reach_inv positive (Machine.reach_exec _ .start run)
    rw [all, last] at there
    rcases List.mem_append.mp there with early | now
    · exact planned plan early
    · rw [List.mem_singleton.mp now]
      exact (h.complete stopped).1.planned
  · intro covers s reached alive
    have step : ∀ s, (machine N first pairs).Reach s → s.main ≠ .crashed → ¬ Finished s →
        ∃ l t, True ∧ (machine N first pairs).next s l = some t ∧ t.main ≠ .crashed ∧
          t.toDo 14 < s.toDo 14 := by
      intro s reached alive goesOn
      obtain ⟨⟨old, p, h⟩, finished, all, -⟩ := reach_inv positive reached
      have here : s.plan ∈ first :: pairs := all ▸ List.mem_append_right _ List.mem_cons_self
      obtain ⟨l, t, hs, alive', lower⟩ :=
        h.approaches positive (covers _ here) (reach_ended reached) alive goesOn
      exact ⟨l, t, trivial, hs, alive', lower⟩
    obtain ⟨ls, t, run, -, -, finished⟩ := Machine.ReachBy.finish_keeping (State.toDo 14)
      (fun s => s.main ≠ .crashed) Finished step reached alive
    exact ⟨ls, t, run, finished⟩

/-- From every state in which it is alive `main` can come to its end, exactly if every producer
writes as many items as its consumer counts. For the pairs of the program this says that ten
divides the number of items. Where the division has killed it, nothing happens any more. -/
theorem main_can_end_iff (positive : 1 ≤ N) (first : Plan) (pairs : List Plan) :
    (CanEnd (machine N first pairs) ↔ ∀ plan ∈ first :: pairs, plan.Covers) ∧
      (∀ n (some : 0 < n), CanEnd (ofMain N n some) ↔ 10 ∣ n) ∧
      ∀ s, (machine N first pairs).Reach s → s.main = .crashed → ∀ l, next N s l = none := by
  refine ⟨canEnd_iff positive first pairs, fun n some => ?_, fun s reached crashed l => ?_⟩
  · refine (canEnd_iff positive _ _).trans ⟨fun covers => ?_, ofMain_covers some⟩
    exact (Plan.batch_covers some).mp (covers _ (by simp))
  · obtain ⟨⟨old, p, h⟩, -⟩ := reach_inv positive reached
    have ended := reach_ended reached
    obtain ⟨-, stopped, -⟩ := ended (by rw [crashed]; decide)
    by_cases spurious : l = .spurious
    · rw [spurious]
      exact if_neg (by rw [stopped]; decide)
    · exact (h.quiet_iff positive ended).mpr (Or.inr (Or.inl crashed)) l spurious

/-- The number of items that the program starts with, and one that ten does not divide. -/
theorem main_can_end_iff_default :
    CanEnd (ofMain 100 2000000 (by decide)) ∧ ¬ CanEnd (ofMain 100 15 (by decide)) := by
  obtain ⟨-, ofItems, -⟩ := main_can_end_iff (N := 100) (by decide) (.plain 15 (by decide)) []
  constructor
  · exact (ofItems 2000000 (by decide)).mpr (by decide)
  · exact fun ends => absurd ((ofItems 15 (by decide)).mp ends) (by decide)

/-- The pairs that use the condition variable take a bounded number of steps, and fourteen
more for each spurious wake-up. Where nothing else is possible `main` has come to its end, or
the division has killed it, or a consumer sleeps behind a producer that has returned. -/
theorem waiting_pairs_settle (positive : 1 ≤ N) {first : Plan} {pairs : List Plan}
    (run : (machine N first pairs).Run) :
    run.count waitingStep 0 run.length ≤
      (((first :: pairs).filter Plan.signals).map Plan.bound).sum +
        14 * run.count (fun _ l => l = .spurious) 0 run.length ∧
    (∀ n (some : 0 < n), (Plan.condition n some).bound = 38 * n + 26) ∧
    ∀ i, i ≤ run.length → (Quiet N (run.state i) ↔ Finished (run.state i) ∨
      (run.state i).main = .crashed ∨
      (run.state i).plan.signals = true ∧ (run.state i).producer = .done ∧
        (run.state i).consumer = .blocked) := by
  refine ⟨waiting_steps_le positive run, fun _ => Plan.condition_bound, fun i hi => ?_⟩
  obtain ⟨⟨old, p, h⟩, -⟩ := reach_inv positive (run.reach hi)
  exact h.quiet_iff positive (reach_ended (run.reach hi))

/-- Both pairs come to their end, and nothing is left to do. -/
theorem waiting_pairs_settle_twoPairs :
    twoPairsRun.count waitingStep 0 51 ≤ 64 ∧ Quiet 2 (twoPairsRun.state 51) := by
  obtain ⟨bounded, each, settles⟩ := waiting_pairs_settle (by decide) twoPairsRun
  have awake : twoPairsRun.count (fun _ l => l = .spurious) 0 51 = 0 := by decide +kernel
  change twoPairsRun.count waitingStep 0 51 ≤ (Plan.condition 1 Nat.one_pos).bound +
    14 * twoPairsRun.count _ 0 51 at bounded
  rw [awake, each] at bounded
  refine ⟨bounded, (settles 51 (by decide)).mpr (Or.inl ?_)⟩
  exact ⟨by decide +kernel, by decide +kernel, by decide +kernel,
    List.isEmpty_iff.mp (by decide +kernel)⟩

end YqueueThreads
