import CppConcurrency.YpipeProgress
import CppConcurrency.YqueueThreadsSafety

/-!
# How long a pair of threads runs

The calls of the pipe are bounded, so the producer is, and a consumer that waits on the
condition variable reads in vain at most once for each wake-up. A consumer that polls may
read in vain as often as it likes.
-/

namespace YqueueThreads

open Machines Pipes Ypipe

/-- The price of a notification: its three steps, and what the consumer may do in vain when
it is woken. -/
def Plan.price (plan : Plan) : ℕ := if plan.signals then 16 else 0

/-- A round of the producer: its items, the flush and a notification. -/
def Plan.round (plan : Plan) : ℕ := 7 * plan.perRound + (5 + plan.price)

/-- The rounds from `i` on, and the last notification. -/
def Plan.rest (plan : Plan) (i : ℕ) : ℕ := (plan.rounds - i) * plan.round + plan.price

/-- What is left to the producer after a critical section. -/
def Plan.restAfter (plan : Plan) : Option (ℕ × ℕ) → ℕ
  | some (i, _) => plan.rest i
  | none => 0

/-- What is left to the producer, where `call` is left to its call of the pipe. -/
def Producer.work (plan : Plan) (call : ℕ) : Producer → ℕ
  | .write i k _ => 7 * (plan.perRound - k) + (5 + plan.price) + plan.rest (i + 1)
  | .writing i k _ =>
    call + 2 + 7 * (plan.perRound - (k + 1)) + (5 + plan.price) + plan.rest (i + 1)
  | .add i k => 2 + 7 * (plan.perRound - (k + 1)) + (5 + plan.price) + plan.rest (i + 1)
  | .reload i k => 1 + 7 * (plan.perRound - (k + 1)) + (5 + plan.price) + plan.rest (i + 1)
  | .flush i _ => 5 + plan.price + plan.rest (i + 1)
  | .flushing i _ => call + plan.price + plan.rest (i + 1)
  | .lock after => 16 + plan.restAfter after
  | .notify after => 15 + plan.restAfter after
  | .unlock after => 1 + plan.restAfter after
  | .done => 0

/-- What is left to the consumer until it has read another item or sleeps, where `call` is
left to its call of the pipe and its sleep is priced at `asleep`. -/
def Consumer.work (asleep call : ℕ) : Consumer → ℕ
  | .read => 10
  | .reading => call + 2
  | .add _ => 12
  | .lock => asleep + 2
  | .wait => asleep + 1
  | .blocked => asleep
  | .woken => 13
  | .unlock => 12
  | .test => 11
  | .done => 0

def State.producing (s : State) : ℕ := s.producer.work s.plan (writerWork s.pipe)

def State.consuming (asleep : ℕ) (s : State) : ℕ :=
  s.consumer.work asleep (readerWork s.pipe) + 10 * (s.plan.items - s.drawn.length)

/-- A bound for a pair that uses the condition variable, without spurious wake-ups. -/
def Plan.bound (plan : Plan) : ℕ := plan.rest 0 + 10 + 10 * plan.items

theorem Plan.condition_bound {n : ℕ} (positive : 0 < n) :
    (Plan.condition n positive).bound = 38 * n + 26 := by
  change (n - 0) * 28 + 16 + 10 + 10 * n = 38 * n + 26
  omega

variable {N : ℕ} {s s' : State} {old : List ℕ} {p : Pipe ℕ} {pipe : Ypipe.State ℕ}

theorem Plan.rest_eq (plan : Plan) {i : ℕ} (more : i < plan.rounds) :
    plan.rest i = plan.round + plan.rest (i + 1) := by
  have split : plan.rounds - i = (plan.rounds - (i + 1)) + 1 := by omega
  rw [Plan.rest, Plan.rest, split, Nat.succ_mul]
  omega

theorem Plan.loop_work (plan : Plan) (call i count : ℕ) :
    (plan.loop i count).work plan call ≤ plan.rest i := by
  unfold Plan.loop
  by_cases more : i < plan.rounds
  · rw [if_pos more, plan.rest_eq more]
    exact Nat.le_refl _
  · rw [if_neg more, Plan.rest, Plan.price]
    cases plan.signals with
    | true => exact Nat.le_add_left _ _
    | false => exact Nat.zero_le _

theorem Plan.flushed_work (plan : Plan) (call i count : ℕ) (ok : Bool) :
    (plan.flushed i count ok).work plan call ≤ plan.price + plan.rest (i + 1) := by
  unfold Plan.flushed
  cases rings : plan.signals && !ok with
  | true =>
    have signals : plan.signals = true := (Bool.and_eq_true_iff.mp rings).1
    rw [Plan.price, signals]
    exact Nat.le_refl _
  | false => exact Nat.le_trans (plan.loop_work call (i + 1) count) (Nat.le_add_left _ _)

theorem Plan.resume_work (plan : Plan) (call : ℕ) (after : Option (ℕ × ℕ)) :
    (plan.resume after).work plan call ≤ plan.restAfter after := by
  cases after with
  | none => exact Nat.le_refl _
  | some round => exact plan.loop_work call round.1 round.2

theorem Producer.work_mono (plan : Plan) (pc : Producer) {call call' : ℕ} (less : call ≤ call') :
    pc.work plan call ≤ pc.work plan call' := by
  cases pc with
  | writing | flushing =>
    simp only [Producer.work]
    omega
  | _ => exact Nat.le_refl _

/-- A step inside a call of the writer, or the first one. -/
theorem writer_pays {l : Ypipe.Label ℕ} (writes : l.writes = true)
    (moved : Ypipe.next N s.pipe l = some pipe) :
    writerWork pipe + 1 ≤ writerWork s.pipe + 5 * l.calls.toNat ∧
      readerWork pipe ≤ readerWork s.pipe := by
  have paid := next_work moved
  rw [writes] at paid
  exact paid

theorem reader_pays {l : Ypipe.Label ℕ} (reads : l.writes = false)
    (moved : Ypipe.next N s.pipe l = some pipe) :
    readerWork pipe + 1 ≤ readerWork s.pipe + 8 * l.calls.toNat ∧
      writerWork pipe ≤ writerWork s.pipe := by
  have paid := next_work moved
  rw [reads] at paid
  exact paid.symm

theorem State.flushes_work {i count : ℕ} {left : ℕ} (pays : writerWork pipe + 1 ≤ left) :
    (s.flushes i count pipe).producing + 1 ≤ left + s.plan.price + s.plan.rest (i + 1) := by
  have done := s.plan.flushed_work (writerWork pipe) i count (flushed pipe)
  change Producer.work s.plan (writerWork pipe)
    (if pipe.writer.atRest then s.plan.flushed i count (flushed pipe) else .flushing i count) + 1 ≤ _
  cases pipe.writer.atRest with
  | true =>
    rw [if_pos rfl]
    omega
  | false =>
    rw [if_neg Bool.false_ne_true, Producer.work]
    omega

/-- Each step of the producer brings it closer to its end, and one that wakes the consumer
pays for what the consumer does then. -/
theorem advanceProducer_work (fits : s.producer.Fits s.plan) (hs : advanceProducer N s = some s') :
    readerWork s'.pipe ≤ readerWork s.pipe ∧ s'.drawn = s.drawn ∧
      (s'.consumer = s.consumer ∧ s'.producing + 1 ≤ s.producing ∨
        s.consumer = .blocked ∧ s'.consumer = .woken ∧ s'.producing + 14 ≤ s.producing) := by
  unfold advanceProducer at hs
  unfold State.producing
  cases now : s.producer with
  | done =>
    simp only [now] at hs
    cases hs
  | write i k count =>
    simp only [now] at hs
    obtain ⟨pipe, moved, rfl⟩ := Option.map_eq_some_iff.mp hs
    obtain ⟨-, reader⟩ := writer_pays rfl moved
    have call := writerWork_le pipe
    rw [now] at fits
    obtain ⟨-, inside, -⟩ := fits
    refine ⟨reader, rfl, Or.inl ⟨rfl, ?_⟩⟩
    simp only [Producer.work]
    omega
  | writing i k count =>
    simp only [now] at hs
    obtain ⟨pipe, moved, rfl⟩ := Option.map_eq_some_iff.mp hs
    obtain ⟨pays, reader⟩ := writer_pays rfl moved
    simp only [Label.calls, Bool.toNat_false] at pays
    refine ⟨reader, rfl, Or.inl ⟨rfl, ?_⟩⟩
    cases pipe.writer.atRest with
    | true =>
      simp only [if_true, Producer.work]
      omega
    | false =>
      simp only [Bool.false_eq_true, if_false, Producer.work]
      omega
  | add i k =>
    simp only [now] at hs
    obtain rfl := Option.some.inj hs
    refine ⟨Nat.le_refl _, rfl, Or.inl ⟨rfl, ?_⟩⟩
    simp only [Producer.work]
    omega
  | reload i k =>
    simp only [now] at hs
    obtain rfl := Option.some.inj hs
    rw [now] at fits
    obtain ⟨-, inside⟩ := fits
    refine ⟨Nat.le_refl _, rfl, Or.inl ⟨rfl, ?_⟩⟩
    by_cases more : k + 1 < s.plan.perRound
    · simp only [if_pos more, Producer.work]
      omega
    · simp only [if_neg more, Producer.work]
      omega
  | flush i count =>
    simp only [now] at hs
    obtain ⟨pipe, moved, rfl⟩ := Option.map_eq_some_iff.mp hs
    obtain ⟨-, reader⟩ := writer_pays rfl moved
    have call := writerWork_le pipe
    have pays : writerWork pipe + 1 ≤ 5 := Nat.succ_le_succ call
    exact ⟨reader, rfl, Or.inl ⟨rfl, State.flushes_work pays⟩⟩
  | flushing i count =>
    simp only [now] at hs
    obtain ⟨pipe, moved, rfl⟩ := Option.map_eq_some_iff.mp hs
    obtain ⟨pays, reader⟩ := writer_pays rfl moved
    exact ⟨reader, rfl, Or.inl ⟨rfl, State.flushes_work pays⟩⟩
  | lock after =>
    simp only [now] at hs
    obtain ⟨-, ⟨⟩⟩ := Option.ite_none_right_eq_some.mp hs
    refine ⟨Nat.le_refl _, rfl, Or.inl ⟨rfl, ?_⟩⟩
    simp only [Producer.work]
    omega
  | notify after =>
    simp only [now] at hs
    obtain rfl := Option.some.inj hs
    refine ⟨Nat.le_refl _, rfl, ?_⟩
    simp only [Producer.work]
    cases stage : s.consumer with
    | blocked => exact Or.inr ⟨rfl, rfl, by omega⟩
    | _ => exact Or.inl ⟨rfl, by omega⟩
  | unlock after =>
    simp only [now] at hs
    obtain rfl := Option.some.inj hs
    have later := s.plan.resume_work (writerWork s.pipe) after
    refine ⟨Nat.le_refl _, rfl, Or.inl ⟨rfl, ?_⟩⟩
    change Producer.work s.plan (writerWork s.pipe) (s.plan.resume after) + 1 ≤ 1 + s.plan.restAfter after
    omega

/-- Where a step of the consumer leads that is not inside a read. -/
def Consumer.after (plan : Plan) (countPop : ℕ) : Consumer → Consumer
  | .read => .reading
  | .add _ | .unlock => .test
  | .lock => .wait
  | .wait => .blocked
  | .woken => .unlock
  | .test => if plan.items ≤ countPop then .done else .read
  | pc => pc

/-- What a step of the consumer can be: a step outside the reads, or one inside a read that
goes on, takes an item or finds nothing. -/
inductive ConsumerStep (p : Pipe ℕ) (s s' : State) : Prop where
  | moves (now : s.consumer ≠ .reading ∧ s.consumer ≠ .blocked ∧ s.consumer ≠ .done)
      (later : s'.consumer = s.consumer.after s.plan s.countPop) (drawn : s'.drawn = s.drawn)
  | goesOn (now : s.consumer = .reading) (later : s'.consumer = .reading) (drawn : s'.drawn = s.drawn)
      (pays : readerWork s'.pipe + 1 ≤ readerWork s.pipe)
  | takes (now : s.consumer = .reading) (later : s'.consumer = .add s.countPop)
      (drawn : s'.drawn = s.drawn ++ [s.countPop]) (pays : 1 ≤ readerWork s.pipe)
      (some : p.taken < p.visible)
  | fails (now : s.consumer = .reading)
      (later : s'.consumer = if s.plan.signals then .lock else .test) (drawn : s'.drawn = s.drawn)
      (pays : 1 ≤ readerWork s.pipe) (none : p.taken = p.visible)

theorem Inv.consumer_cases (positive : 1 ≤ N) (h : Inv N s old p)
    (hs : YqueueThreads.advanceConsumer N s = some s') :
    s'.producer = s.producer ∧ writerWork s'.pipe ≤ writerWork s.pipe ∧ ConsumerStep p s s' := by
  obtain ⟨running, awake, -⟩ := advanceConsumer_ready hs
  unfold YqueueThreads.advanceConsumer at hs
  cases now : s.consumer with
  | done => exact absurd now running
  | blocked => exact absurd now awake
  | read =>
    simp only [now] at hs
    obtain ⟨pipe, moved, rfl⟩ := Option.map_eq_some_iff.mp hs
    exact ⟨rfl, (reader_pays rfl moved).2, .moves (by rw [now]; decide) (by rw [now]; rfl) rfl⟩
  | reading =>
    simp only [now] at hs
    obtain ⟨pipe, moved, -, step⟩ := h.reads positive now
    obtain rfl := Option.some.inj (hs.symm.trans (congrArg (Option.map _) moved))
    obtain ⟨pays, writer⟩ := reader_pays rfl moved
    simp only [Label.calls, Bool.toNat_false] at pays
    cases step with
    | goesOn inside =>
      have busy : pipe.reader.atRest = false := by
        cases stage : pipe.reader with
        | exchanges | takes | pops => rfl
        | rests => simp [stage, Ypipe.Reader.inRead] at inside
      have made : s.reads pipe = { s with pipe := pipe } := if_neg (Bool.eq_false_iff.mp busy)
      rw [made]
      exact ⟨rfl, writer, .goesOn now now rfl pays⟩
    | takes rests value some =>
      have made : s.reads pipe =
          { s with pipe := pipe, consumer := .add s.countPop, drawn := s.drawn ++ [s.countPop] } := by
        rw [State.reads, if_pos (by rw [rests]; rfl), value]
      rw [made]
      exact ⟨rfl, writer, .takes now rfl rfl (Nat.le_of_add_left_le pays) some⟩
    | fails rests value none =>
      have made : s.reads pipe =
          { s with pipe := pipe, consumer := if s.plan.signals then .lock else .test } := by
        rw [State.reads, if_pos (by rw [rests]; rfl), value]
      rw [made]
      exact ⟨rfl, writer, .fails now rfl rfl (Nat.le_of_add_left_le pays) none⟩
  | add | wait | unlock | test =>
    simp only [now] at hs
    obtain rfl := Option.some.inj hs
    exact ⟨rfl, Nat.le_refl _, .moves (by rw [now]; simp) (by rw [now]; rfl) rfl⟩
  | lock | woken =>
    simp only [now] at hs
    obtain ⟨-, ⟨⟩⟩ := Option.ite_none_right_eq_some.mp hs
    exact ⟨rfl, Nat.le_refl _, .moves (by rw [now]; decide) (by rw [now]; rfl) rfl⟩

/-- Each step of the consumer brings it closer to its end or its sleep, unless it is the end
of a read that found nothing. -/
theorem Inv.advanceConsumer_work (positive : 1 ≤ N) (h : Inv N s old p)
    (hs : YqueueThreads.advanceConsumer N s = some s') (asleep : ℕ) :
    s'.producing ≤ s.producing ∧ (s'.consuming asleep + 1 ≤ s.consuming asleep ∨
      s.consumer = .reading ∧ p.taken = p.visible ∧
        s'.consumer = (if s.plan.signals then .lock else .test) ∧ s'.drawn = s.drawn ∧
        3 + 10 * (s.plan.items - s.drawn.length) ≤ s.consuming asleep) := by
  obtain ⟨producer, writer, step⟩ := h.consumer_cases positive hs
  obtain ⟨plan, -, -⟩ := advance_pairs (Or.inr hs)
  have producing : s'.producing ≤ s.producing := by
    rw [State.producing, State.producing, producer, plan]
    exact Producer.work_mono _ _ writer
  refine ⟨producing, ?_⟩
  unfold State.consuming
  rw [plan]
  cases step with
  | moves outside later drawn =>
    left
    rw [later, drawn]
    have call := readerWork_le s'.pipe
    cases now : s.consumer with
    | reading => exact absurd now outside.1
    | blocked => exact absurd now outside.2.1
    | done => exact absurd now outside.2.2
    | test =>
      simp only [Consumer.after]
      by_cases enough : s.plan.items ≤ s.countPop
      · simp only [if_pos enough, Consumer.work]
        omega
      · simp only [if_neg enough, Consumer.work]
        omega
    | _ =>
      simp only [Consumer.after, Consumer.work]
      omega
  | goesOn now later drawn pays =>
    left
    rw [now, later, drawn]
    simp only [Consumer.work]
    omega
  | takes now later drawn pays =>
    have draws := h.draws
    rw [now] at draws
    have missing : s.drawn.length < s.plan.items := by
      rw [show s.drawn.length = s.countPop from draws.counted]
      exact draws.fits
    left
    rw [now, later, drawn, List.length_append, List.length_singleton]
    simp only [Consumer.work]
    omega
  | fails now later drawn pays none =>
    right
    rw [now]
    refine ⟨rfl, none, later, drawn, ?_⟩
    simp only [Consumer.work]
    omega

/-! ### The pairs that use the condition variable -/

/-- What is left of this pair and of the later ones, of those that use the condition variable. -/
def State.left (s : State) : ℕ :=
  (if s.plan.signals then s.producing + s.consuming 0 else 0) +
    ((s.later.filter Plan.signals).map Plan.bound).sum

/-- A step of a thread of a pair that uses the condition variable. -/
def waitingStep (s : State) (l : Label) : Bool := s.plan.signals && (l = .producer || l = .consumer)

theorem Consumer.work_mono (asleep : ℕ) (pc : Consumer) {call call' : ℕ} (less : call ≤ call') :
    pc.work asleep call ≤ pc.work asleep call' := by
  cases pc with
  | reading => exact Nat.add_le_add_right less 2
  | _ => exact Nat.le_refl _

/-- The producer pays for what it makes the consumer do. -/
theorem Inv.producer_pays (h : Inv N s old p) (hs : YqueueThreads.advanceProducer N s = some s') :
    s'.producing + s'.consuming 0 + 1 ≤ s.producing + s.consuming 0 := by
  obtain ⟨reader, drawn, moves⟩ := advanceProducer_work h.writes.fits hs
  obtain ⟨plan, -, -⟩ := advance_pairs (Or.inl hs)
  unfold State.consuming
  rw [plan, drawn]
  rcases moves with ⟨consumer, less⟩ | ⟨asleep, woken, less⟩
  · rw [consumer]
    have work := s.consumer.work_mono 0 reader
    omega
  · rw [asleep, woken, Consumer.work, Consumer.work]
    omega

/-- A consumer that found nothing has one wait left. -/
theorem Inv.consumer_pays (positive : 1 ≤ N) (h : Inv N s old p) (signals : s.plan.signals = true)
    (hs : YqueueThreads.advanceConsumer N s = some s') :
    s'.producing + s'.consuming 0 + 1 ≤ s.producing + s.consuming 0 := by
  obtain ⟨producing, less | ⟨-, -, locks, drawn, before⟩⟩ := h.advanceConsumer_work positive hs 0
  · omega
  · obtain ⟨plan, -, -⟩ := advance_pairs (Or.inr hs)
    have after : s'.consuming 0 = 2 + 10 * (s.plan.items - s.drawn.length) := by
      rw [State.consuming, locks, signals, drawn, plan]
      rfl
    omega

theorem State.begin_work (s : State) (plan : Plan) (later : List Plan) :
    (s.begin plan later).producing + (s.begin plan later).consuming 0 ≤ plan.bound := by
  have producing := plan.loop_work (writerWork s.pipe) 0 0
  change (plan.loop 0 0).work plan (writerWork s.pipe) + (10 + 10 * (plan.items - 0)) ≤ _
  rw [Plan.bound]
  omega

theorem State.begin_left (s : State) {plan : Plan} {later : List Plan}
    (pairs : s.later = plan :: later) : (s.begin plan later).left ≤ s.left := by
  have begun := s.begin_work plan later
  have left : (s.begin plan later).left ≤ ((s.later.filter Plan.signals).map Plan.bound).sum := by
    rw [State.left, pairs]
    cases signals : plan.signals with
    | true =>
      rw [List.filter_cons_of_pos signals, List.map_cons, List.sum_cons]
      simp only [State.begin, signals, if_true] at begun ⊢
      omega
    | false =>
      rw [List.filter_cons_of_neg (Bool.eq_false_iff.mp signals)]
      simp only [State.begin, signals, Bool.false_eq_true, if_false]
      omega
  exact Nat.le_trans left (Nat.le_add_left _ _)

theorem Inv.next_left (positive : 1 ≤ N) (h : Inv N s old p) {l : Label}
    (hs : YqueueThreads.next N s l = some s') :
    s'.left + (waitingStep s l).toNat ≤ s.left + 14 * (decide (l = .spurious)).toNat := by
  have threads (same : s'.plan = s.plan ∧ s'.later = s.later ∧ s'.results = s.results ∧
      s'.main = s.main) {c : ℕ} (pays : s.plan.signals = true →
        s'.producing + s'.consuming 0 + 1 ≤ s.producing + s.consuming 0 + c) :
      s'.left + s.plan.signals.toNat ≤ s.left + c := by
    rw [State.left, State.left, same.1, same.2.1]
    cases signals : s.plan.signals with
    | true =>
      have less := pays signals
      simp only [if_true, Bool.toNat_true]
      omega
    | false =>
      simp only [Bool.false_eq_true, if_false, Bool.toNat_false]
      omega
  cases l with
  | producer =>
    have less := threads (c := 0) (advance_pairs (Or.inl hs)) fun _ => h.producer_pays hs
    simpa [waitingStep] using less
  | consumer =>
    have less := threads (c := 0) (advance_pairs (Or.inr hs)) fun signals =>
      h.consumer_pays positive signals hs
    simpa [waitingStep] using less
  | spurious =>
    obtain ⟨asleep, ⟨⟩⟩ := Option.ite_none_right_eq_some.mp hs
    have woken : ({ s with consumer := .woken } : State).consuming 0 = s.consuming 0 + 13 := by
      rw [State.consuming, State.consuming, asleep, Consumer.work, Consumer.work]
      dsimp only
      omega
    have less := threads (c := 14) ⟨rfl, rfl, rfl, rfl⟩ fun _ => by
      rw [woken]
      exact Nat.le_refl _
    simp only [waitingStep, reduceCtorEq, decide_false, decide_true, Bool.or_false, Bool.and_false,
      Bool.toNat_false, Bool.toNat_true]
    omega
  | main elapsed =>
    have less : s'.left ≤ s.left := by
      obtain ⟨-, step⟩ := advanceMain_cases hs
      cases step with
      | crashes | ends => exact Nat.le_refl _
      | begins took pairs => exact s.begin_left pairs
    simpa [waitingStep] using less

/-- In every run the pairs that use the condition variable take a bounded number of steps,
and fourteen more for each spurious wake-up. -/
theorem waiting_steps_le (positive : 1 ≤ N) {first : Plan} {pairs : List Plan}
    (run : (machine N first pairs).Run) :
    run.count waitingStep 0 run.length ≤
      (((first :: pairs).filter Plan.signals).map Plan.bound).sum +
        14 * run.count (fun _ l => l = .spurious) 0 run.length := by
  have paid := run.total_le State.left (fun s l => (waitingStep s l).toNat)
    (fun _ l => 14 * (decide (l = .spurious)).toNat) (fun s l s' reached hs => by
      obtain ⟨⟨old, p, h⟩, -⟩ := reach_inv positive reached
      exact h.next_left positive hs) (Nat.zero_le _) (Nat.le_refl _)
  rw [Machine.Run.total_mul] at paid
  have begins : (run.state 0).left ≤ (((first :: pairs).filter Plan.signals).map Plan.bound).sum := by
    have begun : (start N first pairs).producing + (start N first pairs).consuming 0 ≤ first.bound :=
      (start N first pairs).begin_work first pairs
    rw [run.start]
    change (if first.signals then _ else 0) + _ ≤ _
    cases signals : first.signals with
    | true =>
      rw [List.filter_cons_of_pos signals, List.map_cons, List.sum_cons, if_pos rfl]
      exact Nat.add_le_add_right begun _
    | false =>
      rw [List.filter_cons_of_neg (Bool.eq_false_iff.mp signals), if_neg Bool.false_ne_true,
        Nat.zero_add]
      exact Nat.le_refl _
  exact Nat.le_trans (Nat.le_add_left _ _) (Nat.le_trans paid (Nat.add_le_add_right begins _))

end YqueueThreads
