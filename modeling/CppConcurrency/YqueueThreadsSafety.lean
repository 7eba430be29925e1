import CppConcurrency.YpipeCalls
import CppConcurrency.YqueueThreads

/-!
# What the consumers read

In every pair the consumer reads the numbers from zero on, each of them once and in order,
whatever the two threads do meanwhile. When it stops it has read every one of them, and the
pipe is empty for the next pair.
-/

namespace YqueueThreads

open Machines Pipes Ypipe

/-! ### Where the producer stands -/

/-- The items that were written before the loop goes on with this round, or ends. -/
def Plan.reached (plan : Plan) : Option (ℕ × ℕ) → ℕ
  | some (i, _) => i * plan.perRound
  | none => plan.rounds * plan.perRound

namespace Producer

variable (plan : Plan)

/-- The items in the pipe. -/
def written : Producer → ℕ
  | .write i k _ | .writing i k _ => i * plan.perRound + k
  | .add i k | .reload i k => i * plan.perRound + (k + 1)
  | .flush i _ | .flushing i _ => (i + 1) * plan.perRound
  | .lock after | .notify after | .unlock after => plan.reached after
  | .done => plan.rounds * plan.perRound

/-- Those of them that are complete: the last write of a round completes the round. -/
def completed : Producer → ℕ
  | .write i _ _ | .writing i _ _ => i * plan.perRound
  | .add i k | .reload i k => if k + 1 < plan.perRound then i * plan.perRound else (i + 1) * plan.perRound
  | .flush i _ | .flushing i _ => (i + 1) * plan.perRound
  | .lock after | .notify after | .unlock after => plan.reached after
  | .done => plan.rounds * plan.perRound

/-- Those of them that were flushed. -/
def handed : Producer → ℕ
  | .write i _ _ | .writing i _ _ | .add i _ | .reload i _ | .flush i _ | .flushing i _ =>
    i * plan.perRound
  | .lock after | .notify after | .unlock after => plan.reached after
  | .done => plan.rounds * plan.perRound

/-- `s_count_push`. -/
def counted : Producer → ℕ
  | .add i k => i * plan.perRound + k
  | pc => pc.written plan

/-- The local variables are in their range, and `count` counts what was written. -/
def Fits : Producer → Prop
  | .write i k count | .writing i k count =>
    i < plan.rounds ∧ k < plan.perRound ∧ count = i * plan.perRound + k
  | .add i k | .reload i k => i < plan.rounds ∧ k < plan.perRound
  | .flush i count | .flushing i count => i < plan.rounds ∧ count = (i + 1) * plan.perRound
  | .lock after | .notify after | .unlock after =>
    plan.signals = true ∧ ∀ i count, after = some (i, count) →
      i ≤ plan.rounds ∧ count = i * plan.perRound
  | .done => True

/-- The call of the pipe that it is in. -/
def InCall (writer : Ypipe.Writer ℕ) : Producer → Prop
  | .writing _ k count => writer = .pushes count (decide (k + 1 < plan.perRound))
  | .flushing _ _ => writer.inFlush = true
  | _ => writer = .rests

/-- It has the mutex. -/
def holds : Producer → Bool
  | .notify _ | .unlock _ => true
  | _ => false

end Producer

/-! ### Where the consumer stands -/

namespace Consumer

/-- The items it has read, when it has counted `countPop` of them. -/
def counted (countPop : ℕ) : Consumer → ℕ
  | .add _ => countPop + 1
  | _ => countPop

/-- It waits only with a condition variable, and reads only while items are missing. -/
def Fits (plan : Plan) (countPop : ℕ) : Consumer → Prop
  | .read | .reading => countPop < plan.items
  | .add value => value = countPop ∧ countPop < plan.items
  | .lock | .wait | .blocked | .woken | .unlock => plan.signals = true ∧ countPop < plan.items
  | .test => True
  | .done => plan.items ≤ countPop

def InCall (reader : Ypipe.Reader ℕ) : Consumer → Prop
  | .reading => reader.inRead = true
  | _ => reader = .rests

def holds : Consumer → Bool
  | .wait | .unlock => true
  | _ => false

end Consumer

def State.holds (s : State) : Party → Bool
  | .producer => s.producer.holds
  | .consumer => s.consumer.holds

/-- The pipe as the producer leaves it, behind the items of the earlier pairs. -/
structure Writes (plan : Plan) (old : List ℕ) (writer : Ypipe.Writer ℕ) (countPush : ℕ)
    (p : Pipe ℕ) (pc : Producer) : Prop where
  items : p.items = old ++ List.range (pc.written plan)
  completed : p.completed = old.length + pc.completed plan
  handed : p.visible = old.length + pc.handed plan
  counted : countPush = pc.counted plan
  fits : pc.Fits plan
  inCall : pc.InCall plan writer

/-- The pipe as the consumer leaves it. -/
structure Draws (plan : Plan) (old : List ℕ) (reader : Ypipe.Reader ℕ) (countPop lastValue : ℕ)
    (drawn : List ℕ) (p : Pipe ℕ) (pc : Consumer) : Prop where
  taken : p.taken = old.length + drawn.length
  numbers : drawn = List.range drawn.length
  counted : drawn.length = pc.counted countPop
  last : lastValue = countPop - 1
  fits : pc.Fits plan countPop
  inCall : pc.InCall reader

structure Inv (N : ℕ) (s : State) (old : List ℕ) (p : Pipe ℕ) : Prop where
  pipe : Ypipe.Inv N s.pipe p
  history : (Pipes.pipe ℕ).History s.pipe.history p
  writes : Writes s.plan old s.pipe.writer s.countPush p s.producer
  draws : Draws s.plan old s.pipe.reader s.countPop s.lastValue s.drawn p s.consumer
  mutex : ∀ party, s.mutex = some party ↔ s.holds party = true

variable {N : ℕ} {s s' : State} {old : List ℕ} {p p' : Pipe ℕ} {plan : Plan} {e : Event ℕ}
  {pipe : Ypipe.State ℕ} {countPush countPop lastValue : ℕ} {drawn : List ℕ}
  {writer : Ypipe.Writer ℕ} {reader : Ypipe.Reader ℕ} {producer : Producer} {consumer : Consumer}

theorem Writes.keeps (h : Writes plan old writer countPush p producer) (items : p'.items = p.items)
    (completed : p'.completed = p.completed) (visible : p'.visible = p.visible) :
    Writes plan old writer countPush p' producer :=
  { h with
    items := items.trans h.items
    completed := completed.trans h.completed
    handed := visible.trans h.handed }

theorem Draws.keeps (h : Draws plan old reader countPop lastValue drawn p consumer)
    (taken : p'.taken = p.taken) : Draws plan old reader countPop lastValue drawn p' consumer :=
  { h with taken := taken.trans h.taken }

theorem goesOn_pipe (h : Inv N s old p) (goesOn : GoesOn N s.pipe pipe p) :
    Ypipe.Inv N pipe p ∧ (Pipes.pipe ℕ).History pipe.history p :=
  ⟨goesOn.2, goesOn.1 ▸ h.history⟩

theorem returns_pipe (h : Inv N s old p) (returns : Returns N s.pipe pipe p e p') :
    Ypipe.Inv N pipe p' ∧ (Pipes.pipe ℕ).History pipe.history p' :=
  ⟨returns.2.2, returns.1 ▸ h.history.concat returns.2.1⟩

/-- At the head of the loop everything before the round is written and flushed. -/
theorem Plan.loop_writes (plan : Plan) {i : ℕ} (hi : i ≤ plan.rounds)
    (items : p.items = old ++ List.range (i * plan.perRound))
    (completed : p.completed = old.length + i * plan.perRound)
    (visible : p.visible = old.length + i * plan.perRound) :
    Writes plan old .rests (i * plan.perRound) p (plan.loop i (i * plan.perRound)) ∧
      (plan.loop i (i * plan.perRound)).holds = false := by
  unfold Plan.loop
  by_cases more : i < plan.rounds
  · rw [if_pos more]
    exact ⟨⟨items, completed, visible, rfl, ⟨more, plan.filled, rfl⟩, rfl⟩, rfl⟩
  · obtain rfl : i = plan.rounds := by omega
    rw [if_neg more]
    cases signals : plan.signals with
    | true => exact ⟨⟨items, completed, visible, rfl, ⟨signals, by nofun⟩, rfl⟩, rfl⟩
    | false => exact ⟨⟨items, completed, visible, rfl, trivial, rfl⟩, rfl⟩

theorem Consumer.notified_draws (h : Draws plan old reader countPop lastValue drawn p consumer) :
    Draws plan old reader countPop lastValue drawn p consumer.notified ∧
      consumer.notified.holds = consumer.holds := by
  cases consumer with
  | blocked => exact ⟨{ h with }, rfl⟩
  | _ => exact ⟨h, rfl⟩

/-- The mutex as a step leaves it that neither locks nor unlocks it. -/
theorem Inv.mutex_keeps (h : Inv N s old p) (same : s'.mutex = s.mutex)
    (producer : s'.producer.holds = s.producer.holds) (consumer : s'.consumer.holds = s.consumer.holds)
    (party : Party) : s'.mutex = some party ↔ s'.holds party = true := by
  rw [same, h.mutex]
  cases party with
  | producer => exact iff_of_eq (congrArg (· = true) producer.symm)
  | consumer => exact iff_of_eq (congrArg (· = true) consumer.symm)

theorem locks (party : Party) (taken : s.mutex = some party)
    (only : ∀ q, s.holds q = true ↔ q = party) (q : Party) :
    s.mutex = some q ↔ s.holds q = true := by
  rw [taken, only, Option.some.injEq]
  exact eq_comm

theorem unlocks (free : s.mutex = none) (nobody : ∀ q, s.holds q = false) (q : Party) :
    s.mutex = some q ↔ s.holds q = true := by
  rw [free, nobody]
  exact iff_of_false nofun nofun

theorem Inv.unheld (h : Inv N s old p) (free : s.mutex = none) (party : Party) :
    ¬ s.holds party = true := by
  rw [← h.mutex, free]
  nofun

theorem Inv.unheld_other (h : Inv N s old p) {party q : Party} (held : s.mutex = some party)
    (other : party ≠ q) : s.holds q = false := by
  refine Bool.eq_false_iff.mpr fun holds => other ?_
  exact Option.some.inj (held.symm.trans ((h.mutex q).mpr holds))

/-! ### Steps of the producer -/

/-- `write` has returned. -/
theorem Writes.wrote {i k count : ℕ} (h : Writes plan old writer countPush p (.writing i k count)) :
    Writes plan old .rests countPush (p.write count (decide (k + 1 < plan.perRound))) (.add i k) := by
  obtain ⟨fits, inside, counts⟩ := h.fits
  have length : p.items.length = old.length + (i * plan.perRound + k) := by
    rw [h.items, List.length_append, List.length_range]
    rfl
  refine ⟨?items, ?completed, h.handed, h.counted, ⟨fits, inside⟩, rfl⟩
  case items =>
    change p.items ++ [count] = old ++ List.range (i * plan.perRound + k + 1)
    rw [h.items, counts, List.append_assoc, List.range_succ]
    rfl
  case completed =>
    change (if decide (k + 1 < plan.perRound) then p.completed else p.items.length + 1) = _
    simp only [decide_eq_true_eq, Producer.completed]
    by_cases more : k + 1 < plan.perRound
    · rw [if_pos more, if_pos more]
      exact h.completed
    · have last : k + 1 = plan.perRound := by omega
      rw [if_neg more, if_neg more, length, Nat.succ_mul]
      omega

/-- An item is counted, and the round goes on or is flushed. -/
theorem Writes.counts {i k : ℕ} (h : Writes plan old writer countPush p (.reload i k)) :
    Writes plan old writer countPush p
      (if k + 1 < plan.perRound then .write i (k + 1) countPush else .flush i countPush) := by
  obtain ⟨fits, inside⟩ := h.fits
  have completed := h.completed
  simp only [Producer.completed] at completed
  by_cases more : k + 1 < plan.perRound
  · rw [if_pos more] at completed ⊢
    exact ⟨h.items, completed, h.handed, h.counted, ⟨fits, more, h.counted⟩, h.inCall⟩
  · have last : i * plan.perRound + (k + 1) = (i + 1) * plan.perRound := by
      rw [Nat.succ_mul, show k + 1 = plan.perRound by omega]
    have items : p.items = old ++ List.range ((i + 1) * plan.perRound) := last ▸ h.items
    rw [if_neg more] at completed ⊢
    exact ⟨items, completed, h.handed, h.counted.trans last, ⟨fits, h.counted.trans last⟩, h.inCall⟩

/-- The critical section ends. -/
theorem Writes.resumes {after : Option (ℕ × ℕ)}
    (h : Writes plan old writer countPush p (.unlock after)) :
    Writes plan old writer countPush p (plan.resume after) ∧ (plan.resume after).holds = false := by
  cases after with
  | none => exact ⟨{ h with fits := trivial }, rfl⟩
  | some round =>
    obtain ⟨i, count⟩ := round
    obtain ⟨inside, rfl⟩ := h.fits.2 i count rfl
    have rests : writer = .rests := h.inCall
    have counted : countPush = i * plan.perRound := h.counted
    rw [rests, counted]
    exact plan.loop_writes inside h.items h.completed h.handed

/-- Where a flush is or has just ended, everything of the round is complete. -/
theorem Writes.flushes (h : Writes plan old writer countPush p producer) {i : ℕ}
    (fits : i < plan.rounds) (written : producer.written plan = (i + 1) * plan.perRound)
    (completed : producer.completed plan = (i + 1) * plan.perRound)
    (counted : producer.counted plan = (i + 1) * plan.perRound) (items : p'.items = p.items)
    (same : p'.completed = p.completed) (visible : p'.visible = p.completed) (ok : Bool) :
    Writes plan old .rests countPush p' (plan.flushed i countPush ok) ∧
      (plan.flushed i countPush ok).holds = false := by
  have count : countPush = (i + 1) * plan.perRound := h.counted.trans counted
  have items' : p'.items = old ++ List.range ((i + 1) * plan.perRound) := by
    rw [items, h.items, written]
  have completed' : p'.completed = old.length + (i + 1) * plan.perRound := by
    rw [same, h.completed, completed]
  have visible' : p'.visible = old.length + (i + 1) * plan.perRound := by
    rw [visible, ← same, completed']
  rw [count, Plan.flushed]
  cases rings : plan.signals && !ok with
  | true =>
    have signals : plan.signals = true := (Bool.and_eq_true_iff.mp rings).1
    refine ⟨⟨items', completed', visible', rfl, ⟨signals, ?_⟩, rfl⟩, rfl⟩
    rintro _ _ ⟨⟩
    exact ⟨fits, rfl⟩
  | false => exact plan.loop_writes fits items' completed' visible'

theorem Inv.flushes (h : Inv N s old p) {i count : ℕ}
    (now : s.producer = .flush i count ∨ s.producer = .flushing i count)
    (same : pipe.reader = s.pipe.reader)
    (step : pipe.writer.inFlush = true ∧ GoesOn N s.pipe pipe p ∨
      pipe.writer = .rests ∧ ∃ ok p', Returns N s.pipe pipe p (.flush ok) p') :
    ∃ p', Inv N (s.flushes i count pipe) old p' := by
  have writes := h.writes
  have mutex := @Inv.mutex_keeps N s (s.flushes i count pipe) old p h rfl
  have free : s.producer.holds = false := by rcases now with now | now <;> rw [now] <;> rfl
  obtain ⟨fits, counts⟩ : i < s.plan.rounds ∧ count = (i + 1) * s.plan.perRound := by
    have fits := h.writes.fits
    rcases now with now | now <;> rw [now] at fits <;> exact fits
  obtain ⟨written, completed, counted, handed⟩ :
      s.producer.written s.plan = (i + 1) * s.plan.perRound ∧
      s.producer.completed s.plan = (i + 1) * s.plan.perRound ∧
      s.producer.counted s.plan = (i + 1) * s.plan.perRound ∧
      s.producer.handed s.plan = i * s.plan.perRound := by
    rcases now with now | now <;> rw [now] <;> exact ⟨rfl, rfl, rfl, rfl⟩
  have reader := h.draws
  rw [← same] at reader
  rcases step with ⟨inside, goesOn⟩ | ⟨returned, ok, p', returns⟩
  · obtain ⟨inv, history⟩ := goesOn_pipe h goesOn
    have busy : pipe.writer.atRest = false := by
      cases stage : pipe.writer with
      | exchanges | sets => rfl
      | rests | pushes | unpushes | takesBack => simp [stage, Ypipe.Writer.inFlush] at inside
    have goes : (s.flushes i count pipe).producer = .flushing i count := by
      rw [State.flushes, busy]
      rfl
    refine ⟨p, inv, history, ?_, reader, mutex (by rw [goes, free]; rfl) rfl⟩
    rw [goes]
    exact ⟨writes.items.trans (by rw [written]; rfl), writes.completed.trans (by rw [completed]; rfl),
      writes.handed.trans (by rw [handed]; rfl), writes.counted.trans (by rw [counted]; rfl),
      ⟨fits, counts⟩, inside⟩
  · obtain ⟨inv, history⟩ := returns_pipe h returns
    obtain ⟨items, same, taken, visible⟩ := h.pipe.lawful.flush_answers returns.2.1
    have answer : YqueueThreads.flushed pipe = ok := by
      rw [YqueueThreads.flushed, returns.1, List.getLast?_concat]
    have goes : (s.flushes i count pipe).producer = s.plan.flushed i s.countPush ok := by
      rw [State.flushes, returned, answer, counts, writes.counted, counted]
      rfl
    obtain ⟨later, noLock⟩ := writes.flushes fits written completed counted items same visible ok
    refine ⟨p', inv, history, ?_, reader.keeps taken, mutex (by rw [goes, free, noLock]) rfl⟩
    rw [goes, show (s.flushes i count pipe).pipe.writer = .rests from returned]
    exact later

/-- Each step of the producer that does not wait for the mutex is defined. -/
theorem Inv.advanceProducer (positive : 1 ≤ N) (h : Inv N s old p) (running : s.producer ≠ .done)
    (free : ∀ after, s.producer = .lock after → s.mutex = none) :
    ∃ s', YqueueThreads.advanceProducer N s = some s' ∧ ∃ p', Inv N s' old p' := by
  have writes := h.writes
  have mutex := fun {s'} => @Inv.mutex_keeps N s s' old p h
  unfold YqueueThreads.advanceProducer
  cases now : s.producer with
  | done => exact absurd now running
  | write i k count =>
    rw [now] at writes mutex
    obtain ⟨pipe, moved, reader, stage, goesOn⟩ := write_begins positive h.pipe writes.inCall count
      (decide (k + 1 < s.plan.perRound))
    obtain ⟨inv, history⟩ := goesOn_pipe h goesOn
    refine ⟨_, congrArg (Option.map _) moved, p, inv, history, ?_, ?_, mutex rfl rfl rfl⟩
    · exact ⟨writes.items, writes.completed, writes.handed, writes.counted, writes.fits, stage⟩
    · exact reader ▸ h.draws
  | writing i k count =>
    rw [now] at writes mutex
    obtain ⟨pipe, moved, reader, step⟩ := write_goesOn positive h.pipe writes.inCall
    refine ⟨_, congrArg (Option.map _) moved, ?_⟩
    rcases step with ⟨stage, goesOn⟩ | ⟨stage, p', returns⟩
    · obtain ⟨inv, history⟩ := goesOn_pipe h goesOn
      have busy : pipe.writer.atRest = false := by rw [stage]; rfl
      refine ⟨p, inv, history, ?_, reader ▸ h.draws, mutex rfl ?_ rfl⟩
      · simp only [busy, Bool.false_eq_true, if_false]
        exact ⟨writes.items, writes.completed, writes.handed, writes.counted, writes.fits, stage⟩
      · simp only [busy, Bool.false_eq_true, if_false]
    · obtain ⟨inv, history⟩ := returns_pipe h returns
      have rests : pipe.writer.atRest = true := by rw [stage]; rfl
      obtain rfl : p.write count (decide (k + 1 < s.plan.perRound)) = p' := returns.2.1
      refine ⟨_, inv, history, ?_, (reader ▸ h.draws).keeps rfl, mutex rfl ?_ rfl⟩
      · simp only [rests, if_true]
        exact stage ▸ writes.wrote
      · simp only [rests, if_true]
        rfl
  | add i k =>
    rw [now] at writes mutex
    refine ⟨_, rfl, p, h.pipe, h.history, ?_, h.draws, mutex rfl rfl rfl⟩
    exact ⟨writes.items, writes.completed, writes.handed, congrArg (· + 1) writes.counted, writes.fits,
      writes.inCall⟩
  | reload i k =>
    rw [now] at writes mutex
    exact ⟨_, rfl, p, h.pipe, h.history, writes.counts, h.draws, mutex rfl (by split <;> rfl) rfl⟩
  | flush i count =>
    rw [now] at writes
    obtain ⟨pipe, moved, reader, step⟩ := flush_begins positive h.pipe writes.inCall
    exact ⟨_, congrArg (Option.map _) moved, h.flushes (Or.inl now) reader step⟩
  | flushing i count =>
    rw [now] at writes
    obtain ⟨pipe, moved, reader, step⟩ := flush_goesOn positive h.pipe writes.inCall
    exact ⟨_, congrArg (Option.map _) moved, h.flushes (Or.inr now) reader step⟩
  | lock after =>
    rw [now] at writes
    refine ⟨_, if_pos (free after now), p, h.pipe, h.history, { writes with }, h.draws, ?_⟩
    exact locks .producer rfl fun party => by
      cases party with
      | producer => exact iff_of_true rfl rfl
      | consumer => exact iff_of_false (h.unheld (free after now) .consumer) (by decide)
  | notify after =>
    rw [now] at writes mutex
    obtain ⟨draws, same⟩ := Consumer.notified_draws h.draws
    exact ⟨_, rfl, p, h.pipe, h.history, { writes with }, draws, mutex rfl rfl same⟩
  | unlock after =>
    rw [now] at writes
    have held : s.mutex = some .producer := (h.mutex .producer).mpr (by rw [State.holds, now]; rfl)
    obtain ⟨later, noLock⟩ := writes.resumes
    refine ⟨_, rfl, p, h.pipe, h.history, later, h.draws, ?_⟩
    exact unlocks rfl fun party => by
      cases party with
      | producer => exact noLock
      | consumer => exact h.unheld_other (q := .consumer) held (by decide)

/-! ### Steps of the consumer -/

/-- A read goes on, takes the next number, or finds everything read that was flushed. -/
inductive Reads (N : ℕ) (s : State) (p : Pipe ℕ) (pipe : Ypipe.State ℕ) : Prop where
  | goesOn (inside : pipe.reader.inRead = true) (inv : GoesOn N s.pipe pipe p)
  | takes {p' : Pipe ℕ} (rests : pipe.reader = .rests) (value : fetched pipe = some s.countPop)
      (some : p.taken < p.visible) (taken : p'.taken = p.taken + 1)
      (kept : p'.items = p.items ∧ p'.completed = p.completed ∧ p'.visible = p.visible)
      (inv : Ypipe.Inv N pipe p' ∧ (Pipes.pipe ℕ).History pipe.history p')
  | fails {p' : Pipe ℕ} (rests : pipe.reader = .rests) (value : fetched pipe = none)
      (none : p.taken = p.visible) (taken : p'.taken = p.taken)
      (kept : p'.items = p.items ∧ p'.completed = p.completed ∧ p'.visible = p.visible)
      (inv : Ypipe.Inv N pipe p' ∧ (Pipes.pipe ℕ).History pipe.history p')

theorem Inv.reads (positive : 1 ≤ N) (h : Inv N s old p) (now : s.consumer = .reading) :
    ∃ pipe, Ypipe.next N s.pipe .readerStep = some pipe ∧ pipe.writer = s.pipe.writer ∧
      Reads N s p pipe := by
  have draws := h.draws
  rw [now] at draws
  have counted : s.drawn.length = s.countPop := draws.counted
  obtain ⟨pipe, moved, writer, step⟩ := read_goesOn positive h.pipe draws.inCall
  refine ⟨pipe, moved, writer, ?_⟩
  rcases step with ⟨inside, goesOn⟩ | ⟨rests, result, p', returns⟩
  · exact .goesOn inside goesOn
  · obtain ⟨items, completed, visible, answer⟩ := h.pipe.lawful.read_answers returns.2.1
    have value : fetched pipe = result := by
      rw [fetched, returns.1, List.getLast?_concat]
    rcases answer with ⟨x, rfl, item, some, taken⟩ | ⟨rfl, none, taken⟩
    · have number : x = s.countPop := by
        rw [h.writes.items, draws.taken, List.getElem?_append_right (Nat.le_add_right _ _),
          Nat.add_sub_cancel_left, counted] at item
        obtain ⟨inside, here⟩ := List.getElem?_eq_some_iff.mp item
        rw [← here, List.getElem_range]
      exact .takes rests (number ▸ value) some taken ⟨items, completed, visible⟩ (returns_pipe h returns)
    · exact .fails rests value none taken ⟨items, completed, visible⟩ (returns_pipe h returns)

theorem Draws.took (h : Draws plan old reader countPop lastValue drawn p .reading)
    (taken : p'.taken = p.taken + 1) :
    Draws plan old .rests countPop lastValue (drawn ++ [countPop]) p' (.add countPop) := by
  have counted : drawn.length = countPop := h.counted
  have numbers : drawn = List.range countPop := counted ▸ h.numbers
  refine ⟨?_, ?_, ?_, h.last, ⟨rfl, h.fits⟩, rfl⟩
  · rw [taken, h.taken, List.length_append, List.length_singleton, Nat.add_assoc]
  · rw [numbers, ← List.range_succ, List.length_range]
  · rw [List.length_append, List.length_singleton, counted]
    rfl

/-- Each step of the consumer that does not sleep or wait for the mutex is defined. -/
theorem Inv.advanceConsumer (positive : 1 ≤ N) (h : Inv N s old p) (running : s.consumer ≠ .done)
    (awake : s.consumer ≠ .blocked)
    (free : s.consumer = .lock ∨ s.consumer = .woken → s.mutex = none) :
    ∃ s', YqueueThreads.advanceConsumer N s = some s' ∧ ∃ p', Inv N s' old p' := by
  have draws := h.draws
  have mutex := fun {s'} => @Inv.mutex_keeps N s s' old p h
  unfold YqueueThreads.advanceConsumer
  cases now : s.consumer with
  | done => exact absurd now running
  | blocked => exact absurd now awake
  | read =>
    rw [now] at draws mutex
    obtain ⟨pipe, moved, writer, inside, goesOn⟩ := read_begins positive h.pipe draws.inCall
    obtain ⟨inv, history⟩ := goesOn_pipe h goesOn
    refine ⟨_, congrArg (Option.map _) moved, p, inv, history, writer ▸ h.writes, ?_, mutex rfl rfl rfl⟩
    exact ⟨draws.taken, draws.numbers, draws.counted, draws.last, draws.fits, inside⟩
  | reading =>
    obtain ⟨pipe, moved, writer, step⟩ := h.reads positive now
    rw [now] at draws
    refine ⟨s.reads pipe, congrArg (Option.map _) moved, ?_⟩
    rw [State.reads]
    cases step with
    | goesOn inside goesOn =>
      obtain ⟨inv, history⟩ := goesOn_pipe h goesOn
      have busy : pipe.reader.atRest = false := by
        cases stage : pipe.reader with
        | exchanges | takes | pops => rfl
        | rests => simp [stage, Ypipe.Reader.inRead] at inside
      rw [if_neg (Bool.eq_false_iff.mp busy)]
      refine ⟨p, inv, history, writer ▸ h.writes, ?_, mutex rfl rfl rfl⟩
      simp only [now]
      exact { draws with inCall := inside }
    | @takes p' rests value some taken kept inv =>
      rw [now] at mutex
      have returned : pipe.reader.atRest = true := by rw [rests]; rfl
      simp only [if_pos returned, value]
      refine ⟨p', inv.1, inv.2, ?_, rests ▸ draws.took taken, mutex rfl rfl rfl⟩
      exact (writer ▸ h.writes).keeps kept.1 kept.2.1 kept.2.2
    | @fails p' rests value none taken kept inv =>
      rw [now] at mutex
      have returned : pipe.reader.atRest = true := by rw [rests]; rfl
      have later := draws.keeps taken
      simp only [if_pos returned, value]
      refine ⟨p', inv.1, inv.2, (writer ▸ h.writes).keeps kept.1 kept.2.1 kept.2.2, ?_,
        mutex rfl rfl (by split <;> rfl)⟩
      cases signals : s.plan.signals with
      | true => exact ⟨later.taken, later.numbers, later.counted, later.last, ⟨signals, later.fits⟩, rests⟩
      | false => exact ⟨later.taken, later.numbers, later.counted, later.last, trivial, rests⟩
  | add value =>
    rw [now] at draws mutex
    obtain ⟨rfl, -⟩ := draws.fits
    refine ⟨_, rfl, p, h.pipe, h.history, h.writes, ?_, mutex rfl rfl rfl⟩
    exact ⟨draws.taken, draws.numbers, draws.counted, rfl, trivial, draws.inCall⟩
  | lock =>
    rw [now] at draws
    have unlocked := free (Or.inl now)
    refine ⟨_, if_pos unlocked, p, h.pipe, h.history, h.writes, { draws with }, ?_⟩
    exact locks .consumer rfl fun party => by
      cases party with
      | producer => exact iff_of_false (h.unheld unlocked .producer) (by decide)
      | consumer => exact iff_of_true rfl rfl
  | woken =>
    rw [now] at draws
    have unlocked := free (Or.inr now)
    refine ⟨_, if_pos unlocked, p, h.pipe, h.history, h.writes, { draws with }, ?_⟩
    exact locks .consumer rfl fun party => by
      cases party with
      | producer => exact iff_of_false (h.unheld unlocked .producer) (by decide)
      | consumer => exact iff_of_true rfl rfl
  | wait =>
    rw [now] at draws
    have held : s.mutex = some .consumer := (h.mutex .consumer).mpr (by rw [State.holds, now]; rfl)
    refine ⟨_, rfl, p, h.pipe, h.history, h.writes, { draws with }, ?_⟩
    exact unlocks rfl fun party => by
      cases party with
      | producer => exact h.unheld_other (q := .producer) held (by decide)
      | consumer => rfl
  | unlock =>
    rw [now] at draws
    have held : s.mutex = some .consumer := (h.mutex .consumer).mpr (by rw [State.holds, now]; rfl)
    refine ⟨_, rfl, p, h.pipe, h.history, h.writes, { draws with fits := trivial }, ?_⟩
    exact unlocks rfl fun party => by
      cases party with
      | producer => exact h.unheld_other (q := .producer) held (by decide)
      | consumer => rfl
  | test =>
    rw [now] at draws mutex
    refine ⟨_, rfl, p, h.pipe, h.history, h.writes, ?_, mutex rfl rfl (by split <;> rfl)⟩
    by_cases enough : s.plan.items ≤ s.countPop
    · simp only [if_pos enough]
      exact { draws with fits := enough }
    · simp only [if_neg enough]
      exact { draws with fits := Nat.lt_of_not_le enough }

/-! ### Whole runs -/

/-- What the producer flushed is within its rounds, and the last flush leaves nothing. -/
theorem Producer.handed_le (fits : producer.Fits plan) :
    producer.handed plan ≤ plan.rounds * plan.perRound ∧
      (producer.handed plan = plan.rounds * plan.perRound →
        producer.written plan = plan.rounds * plan.perRound ∧
          producer.counted plan = plan.rounds * plan.perRound) := by
  have early {i : ℕ} (hi : i < plan.rounds) : i * plan.perRound < plan.rounds * plan.perRound :=
    Nat.mul_lt_mul_of_pos_right hi plan.filled
  cases producer with
  | write | writing | add | reload | flush | flushing =>
    have before := early fits.1
    exact ⟨Nat.le_of_lt before, fun all => absurd all (Nat.ne_of_lt before)⟩
  | lock after | notify after | unlock after =>
    refine ⟨?_, fun all => ⟨all, all⟩⟩
    cases after with
    | none => exact Nat.le_refl _
    | some round => exact Nat.mul_le_mul_right _ (fits.2 round.1 round.2 rfl).1
  | done => exact ⟨Nat.le_refl _, fun all => ⟨all, all⟩⟩

theorem Inv.drawn_le (h : Inv N s old p) : s.drawn.length ≤ s.producer.handed s.plan := by
  have taken := h.pipe.lawful.taken_le
  rw [h.draws.taken, h.writes.handed] at taken
  omega

/-- A pair whose consumer has stopped. -/
structure Complete (s : State) : Prop where
  drawn : s.drawn = List.range s.plan.items
  popped : s.countPop = s.plan.items
  pushed : s.countPush = s.plan.items
  last : s.lastValue = s.plan.items - 1
  planned : s.plan.rounds * s.plan.perRound = s.plan.items
  empty : reads s.pipe.history = Pipes.written s.pipe.history

theorem Inv.complete (h : Inv N s old p) (stopped : s.consumer = .done) :
    Complete s ∧ p.taken = p.items.length := by
  have draws := h.draws
  rw [stopped] at draws
  have counted : s.drawn.length = s.countPop := draws.counted
  have enough : s.plan.items ≤ s.countPop := draws.fits
  obtain ⟨handed, all⟩ := Producer.handed_le h.writes.fits
  have drawn := h.drawn_le
  have atMost := s.plan.atMost
  obtain ⟨written, pushed⟩ := all (by omega)
  have items : p.items.length = old.length + s.plan.rounds * s.plan.perRound := by
    rw [h.writes.items, List.length_append, List.length_range, written]
  have taken : p.taken = p.items.length := by
    rw [draws.taken, items]
    omega
  have popped : s.countPop = s.plan.items := by omega
  refine ⟨⟨?_, popped, ?_, popped ▸ draws.last, by omega, ?_⟩, taken⟩
  · rw [draws.numbers, counted, popped]
  · rw [h.writes.counted, pushed]
    omega
  · obtain ⟨same, read⟩ := history_reads h.history
    rw [read, taken, List.take_length, same]

theorem Inv.begin (h : Inv N s old p) (producer : s.producer = .done) (consumer : s.consumer = .done)
    (plan : Plan) (later : List Plan) : Inv N (s.begin plan later) p.items p := by
  obtain ⟨complete, taken⟩ := h.complete consumer
  have lawful := h.pipe.lawful
  have visible := lawful.visible_le
  have completed := lawful.completed_le
  have before := lawful.taken_le
  have writer : s.pipe.writer = .rests := by
    have inCall := h.writes.inCall
    rw [producer] at inCall
    exact inCall
  have reader : s.pipe.reader = .rests := by
    have inCall := h.draws.inCall
    rw [consumer] at inCall
    exact inCall
  have free : s.mutex = none := by
    refine Option.eq_none_iff_forall_ne_some.mpr fun party held => ?_
    have holds := (h.mutex party).mp held
    cases party with
    | producer =>
      rw [State.holds, producer] at holds
      cases holds
    | consumer =>
      rw [State.holds, consumer] at holds
      cases holds
  obtain ⟨loop, noLock⟩ : Writes plan p.items .rests 0 p (plan.loop 0 0) ∧
      (plan.loop 0 0).holds = false := by
    have items : p.items = p.items ++ List.range (0 * plan.perRound) := by simp
    have loop := plan.loop_writes (Nat.zero_le _) items (by rw [Nat.zero_mul]; omega)
      (by rw [Nat.zero_mul]; omega)
    rwa [Nat.zero_mul] at loop
  refine ⟨h.pipe, h.history, writer ▸ loop, ?_, ?_⟩
  · exact ⟨taken, rfl, rfl, rfl, plan.positive, reader⟩
  · exact unlocks free fun party => by
      cases party with
      | producer => exact noLock
      | consumer => rfl

theorem start_inv (positive : 1 ≤ N) (plan : Plan) (later : List Plan) :
    Inv N (start N plan later) [] Pipe.new := by
  have pipe := Ypipe.start_inv (T := ℕ) positive
  obtain ⟨loop, noLock⟩ : Writes plan [] .rests 0 Pipe.new (plan.loop 0 0) ∧
      (plan.loop 0 0).holds = false := by
    have items : (Pipe.new : Pipe ℕ).items = [] ++ List.range (0 * plan.perRound) := by
      rw [Nat.zero_mul]
      rfl
    have loop := plan.loop_writes (Nat.zero_le _) items (by simp [Pipe.new]) (by simp [Pipe.new])
    rwa [Nat.zero_mul] at loop
  refine ⟨pipe, .nil, loop, ⟨rfl, rfl, rfl, rfl, plan.positive, rfl⟩, ?_⟩
  exact unlocks rfl fun party => by
    cases party with
    | producer => exact noLock
    | consumer => rfl

/-- The producer waits for nothing but the mutex. -/
theorem advanceProducer_ready (hs : advanceProducer N s = some s') :
    s.producer ≠ .done ∧ ∀ after, s.producer = .lock after → s.mutex = none := by
  refine ⟨fun now => ?_, fun after now => ?_⟩
  · simp [advanceProducer, now] at hs
  · simp only [advanceProducer, now] at hs
    exact (Option.ite_none_right_eq_some.mp hs).1

theorem advanceConsumer_ready (hs : advanceConsumer N s = some s') :
    s.consumer ≠ .done ∧ s.consumer ≠ .blocked ∧
      (s.consumer = .lock ∨ s.consumer = .woken → s.mutex = none) := by
  refine ⟨fun now => ?_, fun now => ?_, fun now => ?_⟩
  · simp [advanceConsumer, now] at hs
  · simp [advanceConsumer, now] at hs
  · rcases now with now | now
    all_goals
      simp only [advanceConsumer, now] at hs
      exact (Option.ite_none_right_eq_some.mp hs).1

/-- The threads leave the pairs and `main` alone. -/
theorem advance_pairs (hs : advanceProducer N s = some s' ∨ advanceConsumer N s = some s') :
    s'.plan = s.plan ∧ s'.later = s.later ∧ s'.results = s.results ∧ s'.main = s.main := by
  rcases hs with hs | hs
  · unfold advanceProducer at hs
    split at hs
    case h_1 | h_2 | h_5 | h_6 =>
      obtain ⟨pipe, -, rfl⟩ := Option.map_eq_some_iff.mp hs
      exact ⟨rfl, rfl, rfl, rfl⟩
    case h_3 | h_4 | h_8 | h_9 =>
      obtain rfl := Option.some.inj hs
      exact ⟨rfl, rfl, rfl, rfl⟩
    case h_7 =>
      obtain ⟨-, ⟨⟩⟩ := Option.ite_none_right_eq_some.mp hs
      exact ⟨rfl, rfl, rfl, rfl⟩
    case h_10 => cases hs
  · unfold advanceConsumer at hs
    split at hs
    case h_1 =>
      obtain ⟨pipe, -, rfl⟩ := Option.map_eq_some_iff.mp hs
      exact ⟨rfl, rfl, rfl, rfl⟩
    case h_2 =>
      obtain ⟨pipe, -, rfl⟩ := Option.map_eq_some_iff.mp hs
      unfold State.reads
      split
      · split <;> exact ⟨rfl, rfl, rfl, rfl⟩
      · exact ⟨rfl, rfl, rfl, rfl⟩
    case h_3 | h_5 | h_8 | h_9 =>
      obtain rfl := Option.some.inj hs
      exact ⟨rfl, rfl, rfl, rfl⟩
    case h_4 | h_7 =>
      obtain ⟨-, ⟨⟩⟩ := Option.ite_none_right_eq_some.mp hs
      exact ⟨rfl, rfl, rfl, rfl⟩
    case h_6 | h_10 => cases hs

/-- What the end of a `test_queue` leads to. -/
inductive MainStep (s : State) (elapsed : ℤ) : State → Prop where
  | crashes (zero : elapsed = 0) : MainStep s elapsed { s with main := .crashed }
  | ends (took : elapsed ≠ 0) (last : s.later = []) : MainStep s elapsed { s with main := .done }
  | begins (took : elapsed ≠ 0) {plan : Plan} {later : List Plan} (pairs : s.later = plan :: later) :
      MainStep s elapsed (s.begin plan later)

/-- `main` goes on when both threads have returned. -/
theorem advanceMain_cases {elapsed : ℤ} (hs : advanceMain s elapsed = some s') :
    (s.producer = .done ∧ s.consumer = .done ∧ s.main = .joins) ∧ MainStep s elapsed s' := by
  obtain ⟨joined, hs⟩ := Option.ite_none_right_eq_some.mp hs
  refine ⟨joined, ?_⟩
  by_cases zero : elapsed = 0
  · rw [ops, if_pos zero] at hs
    obtain rfl := Option.some.inj hs
    exact .crashes zero
  · rw [ops, if_neg zero] at hs
    obtain rfl := Option.some.inj hs
    unfold State.proceed
    split
    · rename_i last
      exact .ends zero last
    · rename_i pairs
      exact .begins zero pairs

/-- The next step is one that a thread takes, a spurious wake-up, or the next pair. -/
theorem Inv.next (positive : 1 ≤ N) (h : Inv N s old p) {l : Label}
    (hs : YqueueThreads.next N s l = some s') : ∃ old' p', Inv N s' old' p' := by
  cases l with
  | producer =>
    obtain ⟨running, free⟩ := advanceProducer_ready hs
    obtain ⟨t, step, p', h'⟩ := h.advanceProducer positive running free
    obtain rfl := Option.some.inj (step.symm.trans hs)
    exact ⟨old, p', h'⟩
  | consumer =>
    obtain ⟨running, awake, free⟩ := advanceConsumer_ready hs
    obtain ⟨t, step, p', h'⟩ := h.advanceConsumer positive running awake free
    obtain rfl := Option.some.inj (step.symm.trans hs)
    exact ⟨old, p', h'⟩
  | spurious =>
    obtain ⟨now, ⟨⟩⟩ := Option.ite_none_right_eq_some.mp hs
    obtain ⟨draws, same⟩ := Consumer.notified_draws h.draws
    rw [now] at draws same
    exact ⟨old, p, h.pipe, h.history, h.writes, draws, h.mutex_keeps rfl rfl (by rw [now]; rfl)⟩
  | main elapsed =>
    obtain ⟨⟨producer, consumer, -⟩, step⟩ := advanceMain_cases hs
    cases step with
    | crashes | ends => exact ⟨old, p, { h with }⟩
    | begins => exact ⟨p.items, p, h.begin producer consumer _ _⟩

/-- The pairs before this one read everything that they were meant to. -/
def Earlier (plans : List Plan) (s : State) : Prop :=
  ∃ finished : List Plan, plans = finished ++ s.plan :: s.later ∧
    s.results = finished.map (fun plan => List.range plan.items) ∧
      ∀ plan ∈ finished, plan.rounds * plan.perRound = plan.items

theorem Inv.earlier (h : Inv N s old p) {plans : List Plan} (earlier : Earlier plans s) {l : Label}
    (hs : YqueueThreads.next N s l = some s') : Earlier plans s' := by
  obtain ⟨finished, all, results, planned⟩ := earlier
  have kept : s'.plan = s.plan ∧ s'.later = s.later ∧ s'.results = s.results ∧ s'.main = s.main →
      Earlier plans s' := by
    rintro ⟨plan, later, same, -⟩
    exact ⟨finished, by rw [plan, later]; exact all, same.trans results, planned⟩
  cases l with
  | producer => exact kept (advance_pairs (Or.inl hs))
  | consumer => exact kept (advance_pairs (Or.inr hs))
  | spurious =>
    obtain ⟨-, ⟨⟩⟩ := Option.ite_none_right_eq_some.mp hs
    exact kept ⟨rfl, rfl, rfl, rfl⟩
  | main elapsed =>
    obtain ⟨⟨-, consumer, -⟩, step⟩ := advanceMain_cases hs
    cases step with
    | crashes | ends => exact ⟨finished, all, results, planned⟩
    | begins took pairs =>
      obtain ⟨complete, -⟩ := h.complete consumer
      refine ⟨finished ++ [s.plan], ?_, ?_, ?_⟩
      · rw [all, pairs, List.append_assoc]
        rfl
      · change s.results ++ [s.drawn] = _
        rw [results, complete.drawn, List.map_append]
        rfl
      · intro plan there
        rcases List.mem_append.mp there with old | new
        · exact planned plan old
        · rw [List.mem_singleton.mp new]
          exact complete.planned

theorem reach_inv (positive : 1 ≤ N) {first : Plan} {pairs : List Plan}
    (reached : (machine N first pairs).Reach s) :
    (∃ old p, Inv N s old p) ∧ Earlier (first :: pairs) s := by
  refine reached.invariant (P := fun s => (∃ old p, Inv N s old p) ∧ Earlier (first :: pairs) s) _
    ⟨⟨[], .new, start_inv positive first pairs⟩, [], rfl, rfl, by simp⟩ ?_
  rintro s l t ⟨⟨old, p, h⟩, earlier⟩ - hs
  exact ⟨h.next positive hs, h.earlier earlier hs⟩

/-- `main` stops, at its end or by the division, only where both threads have returned. -/
def Ended (s : State) : Prop :=
  s.main ≠ .joins → s.producer = .done ∧ s.consumer = .done ∧ (s.main = .done → s.later = [])

theorem next_ended (ended : Ended s) {l : Label} (hs : YqueueThreads.next N s l = some s') :
    Ended s' := by
  intro stopped
  cases l with
  | producer =>
    obtain ⟨-, -, -, main⟩ := advance_pairs (Or.inl hs)
    exact absurd (ended (main ▸ stopped)).1 (advanceProducer_ready hs).1
  | consumer =>
    obtain ⟨-, -, -, main⟩ := advance_pairs (Or.inr hs)
    exact absurd (ended (main ▸ stopped)).2.1 (advanceConsumer_ready hs).1
  | spurious =>
    obtain ⟨asleep, ⟨⟩⟩ := Option.ite_none_right_eq_some.mp hs
    obtain ⟨-, returned, -⟩ := ended stopped
    rw [asleep] at returned
    cases returned
  | main elapsed =>
    obtain ⟨⟨producer, consumer, joins⟩, step⟩ := advanceMain_cases hs
    cases step with
    | crashes => exact ⟨producer, consumer, fun wrong => by cases wrong⟩
    | ends took last => exact ⟨producer, consumer, fun _ => last⟩
    | begins => exact absurd joins stopped

theorem reach_ended {first : Plan} {pairs : List Plan} (reached : (machine N first pairs).Reach s) :
    Ended s :=
  reached.invariant (P := Ended) _ (fun stopped => absurd rfl stopped)
    fun _ _ _ ended _ hs => next_ended ended hs

/-- What the consumers read: in order and without a gap, and everything before they stop. -/
structure Delivered (plans : List Plan) (s : State) : Prop where
  inOrder : s.drawn = List.range s.drawn.length
  within : s.drawn.length ≤ s.plan.items
  earlier : ∃ finished : List Plan, plans = finished ++ s.plan :: s.later ∧
    s.results = finished.map fun plan => List.range plan.items
  complete : s.consumer = .done → Complete s

theorem items_are_delivered (positive : 1 ≤ N) {first : Plan} {pairs : List Plan}
    (reached : (machine N first pairs).Reach s) : Delivered (first :: pairs) s := by
  obtain ⟨⟨old, p, h⟩, finished, all, results, -⟩ := reach_inv positive reached
  refine ⟨h.draws.numbers, ?_, ⟨finished, all, results⟩, fun stopped => (h.complete stopped).1⟩
  have drawn := h.drawn_le
  have handed := (Producer.handed_le h.writes.fits).1
  have atMost := s.plan.atMost
  omega

/-- The first consumer polls once too early, and the second one waits and is notified. -/
def twoPairs : List Label :=
  .replicate 3 .consumer ++ .replicate 10 .producer ++ .replicate 6 .consumer ++ [.main 3] ++
    .replicate 4 .consumer ++ .replicate 13 .producer ++ .replicate 13 .consumer ++ [.main 1]

def twoPairsRun : (machine 2 (.plain 1 Nat.one_pos) [.condition 1 Nat.one_pos]).Run :=
  .ofSchedule _ .spurious twoPairs (by decide +kernel)

theorem items_are_delivered_twoPairs :
    Delivered [.plain 1 Nat.one_pos, .condition 1 Nat.one_pos] (twoPairsRun.state 51) :=
  items_are_delivered (by decide) (twoPairsRun.reach (Nat.le_refl _))

end YqueueThreads
