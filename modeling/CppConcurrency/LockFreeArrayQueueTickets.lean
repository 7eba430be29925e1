import CppConcurrency.LockFreeArrayQueueCas
import CppConcurrency.PhasedRing
import CppConcurrency.Threads
import Mathlib.Data.List.GetD
import Mathlib.Data.List.Nodup

/-!
# The ticket invariant of `LockFreeArrayQueue` in CAS mode

The two indices are the tickets of a ring whose slots count their uses, and the marker of
a slot says which use is next. A claim keeps the indices within the size of each other,
whatever the slots look like. A call past its wait loop has its turn, and nobody else
uses the slot until it stores the marker.
-/

namespace LockFreeArray

open Machines Threads WordCounters PhasedRings

universe u v

variable {E : Type u} {Tid : Type v} {k : ℕ}

/-- The value of the push that claimed index `n`. -/
def State.sent (s : State Tid E) (n : ℕ) : Option E := s.pushes[n]?.map fun e => e.2.2

namespace Call

/-- The write index of a push that has not finished. -/
def pushing : Call E → Option ℕ
  | .pushWait _ write | .pushStore _ write | .pushMark write => some write
  | _ => none

/-- The read index of a pop that has not finished. -/
def popping : Call E → Option ℕ
  | .popWait read | .popTake read | .popLeave read _ | .popMark read _ => some read
  | _ => none

/-- The index whose element was stored and not yet marked. -/
def storing : Call E → Option ℕ
  | .pushMark write => some write
  | _ => none

/-- The index whose element was taken and not yet marked. -/
def taking : Call E → Option ℕ
  | .popLeave read _ | .popMark read _ => some read
  | _ => none

/-- The indices that a call is busy with. -/
def uses (call : Call E) : Option ℕ × Option ℕ × Option ℕ × Option ℕ :=
  (call.pushing, call.popping, call.storing, call.taking)

end Call

/-- What a running call of `t` may rely on. -/
def Fact (R : PhasedRing (2 ^ k)) (s : State Tid E) (t : Tid) : Call E → Prop
  | .pushClaim _ write => write < R.head + 2 ^ k
  | .pushWait e write => s.pushes[write]? = some (write, t, e) ∧ ¬ R.Filled write
  | .pushStore e write => s.pushes[write]? = some (write, t, e) ∧ R.ToFill write
  | .pushMark write => ∃ e, s.pushes[write]? = some (write, t, e) ∧ R.ToFill write ∧
      s.q.elementQueue (write % 2 ^ k) = e
  | .popLoadRead write => write ≤ R.tail
  | .popClaim read => read < R.tail
  | .popWait read => s.pops[read]? = some (read, t) ∧ ¬ R.Emptied read
  | .popTake read =>
    s.pops[read]? = some (read, t) ∧ R.ToEmpty read ∧ read ∉ s.taken.map Prod.fst
  | .popLeave read e | .popMark read e =>
    s.pops[read]? = some (read, t) ∧ R.ToEmpty read ∧ (read, t, e) ∈ s.taken
  | .popReturn (some e) => ∃ read, (read, t, e) ∈ s.taken
  | _ => True

/-- The invariant: indices, markers, history and calls all agree with one ring. -/
structure Inv (R : PhasedRing (2 ^ k)) (s : State Tid E) : Prop where
  size : s.q.maxQueueSize = 2 ^ k
  writeIndex : s.q.writeIndex = R.tail
  readIndex : s.q.readIndex = R.head
  fill_marker : ∀ n, R.ToFill n → s.q.activeQueue (n % 2 ^ k) = pushMarker (2 ^ k) n
  empty_marker : ∀ n, R.ToEmpty n → s.q.activeQueue (n % 2 ^ k) = popMarker n
  pushes_length : s.pushes.length = R.tail
  pops_length : s.pops.length = R.head
  pushes_index : ∀ (n : ℕ) e, s.pushes[n]? = some e → e.1 = n
  pops_index : ∀ (n : ℕ) e, s.pops[n]? = some e → e.1 = n
  facts : ∀ t, Fact R s t (s.call t)
  pushing : ∀ n, n < R.tail → R.Filled n ∨ ∃ t, (s.call t).pushing = some n
  popping : ∀ n, n < R.head → R.Emptied n ∨ ∃ t, (s.call t).popping = some n
  stored : ∀ n, n ∈ s.stored ↔ R.Filled n ∨ ∃ t, (s.call t).storing = some n
  taken : ∀ n, n ∈ s.taken.map Prod.fst ↔ R.Emptied n ∨ ∃ t, (s.call t).taking = some n
  held : ∀ n, R.ToEmpty n → n ∉ s.taken.map Prod.fst →
    some (s.q.elementQueue (n % 2 ^ k)) = s.sent n
  obtained : ∀ n t e, (n, t, e) ∈ s.taken → s.pops[n]? = some (n, t) ∧ s.sent n = some e
  once : (s.taken.map Prod.fst).Nodup

theorem start_inv {moved : E → E} [DecidableEq Tid] {lock : ℤ} {blank : E} {q : LockFreeArrayQueue E}
    (accepted : LockFreeArrayQueue.init lock blank (2 ^ k) = .ok q) :
    Inv (.fresh (2 ^ k)) (machine Tid moved q).start := by
  rw [LockFreeArrayQueue.init] at accepted
  split_ifs at accepted
  cases accepted
  have idle : ∀ (f : Call E → Option ℕ) (n : ℕ), f .rest = none → ¬ ∃ _ : Tid, f .rest = some n := by
    rintro f n none ⟨_, some⟩
    rw [none] at some
    cases some
  refine ⟨rfl, rfl, rfl, ?_, ?_, rfl, rfl, ?_, ?_, fun _ => trivial, ?_, ?_, ?_, ?_, ?_, ?_, .nil⟩
  · intro n turn
    -- every slot waits for its first lap
    change 0 = 2 * (n / 2 ^ k) at turn
    have first : n < 2 ^ k := by
      by_contra far
      have := Nat.div_pos (Nat.le_of_not_lt far) (Nat.two_pow_pos k)
      omega
    rw [pushMarker, if_neg (by omega)]
    rfl
  · intro n turn
    change 0 = 2 * (n / 2 ^ k) + 1 at turn
    omega
  · intro n e wrong
    cases wrong
  · intro n e wrong
    cases wrong
  · intro n below
    cases below
  · intro n below
    cases below
  · intro n
    apply iff_of_false List.not_mem_nil
    exact not_or.mpr ⟨Nat.not_lt_zero _, idle Call.storing n rfl⟩
  · intro n
    apply iff_of_false List.not_mem_nil
    exact not_or.mpr ⟨Nat.not_lt_zero _, idle Call.taking n rfl⟩
  · intro n turn
    change 0 = 2 * (n / 2 ^ k) + 1 at turn
    omega
  · intro n t e wrong
    cases wrong

/-! ### Markers -/

section Markers

variable {R : PhasedRing (2 ^ k)} {s : State Tid E} {n m : ℕ}

theorem pushMarker_nonpos (size n : ℕ) : pushMarker size n ≤ 0 := by
  rw [pushMarker]
  split_ifs <;> omega

/-- In one slot every lap has its own marker. -/
theorem pushMarker_inj {size : ℕ} (slot : n % size = m % size)
    (same : pushMarker size n = pushMarker size m) : n = m := by
  rw [pushMarker, pushMarker] at same
  split_ifs at same with hn hm hm
  · omega
  · omega
  · omega
  · rwa [Nat.mod_eq_of_lt (by omega), Nat.mod_eq_of_lt (by omega)] at slot

theorem Inv.transIndex (h : Inv R s) (n : ℕ) : s.q.transIndex n = n % 2 ^ k := by
  rw [LockFreeArrayQueue.transIndex, h.size, Nat.and_two_pow_sub_one_eq_mod]

/-- A push that finds its marker has its turn. -/
theorem Inv.toFill (h : Inv R s)
    (marked : s.q.activeQueue (n % 2 ^ k) = pushMarker (2 ^ k) n) : R.ToFill n := by
  obtain ⟨m, slot, -, turn⟩ := R.exists_turn (Nat.two_pow_pos k) (Nat.mod_lt n (Nat.two_pow_pos k))
  rcases turn with turn | turn
  · have other := h.fill_marker m turn
    rw [slot, marked] at other
    exact pushMarker_inj slot other.symm ▸ turn
  · have other := h.empty_marker m turn
    rw [slot, marked, popMarker] at other
    have := pushMarker_nonpos (2 ^ k) n
    omega

/-- A pop that finds its marker has its turn. -/
theorem Inv.toEmpty (h : Inv R s) (marked : s.q.activeQueue (n % 2 ^ k) = popMarker n) :
    R.ToEmpty n := by
  obtain ⟨m, slot, -, turn⟩ := R.exists_turn (Nat.two_pow_pos k) (Nat.mod_lt n (Nat.two_pow_pos k))
  rcases turn with turn | turn
  · have other := h.fill_marker m turn
    rw [slot, marked, popMarker] at other
    have := pushMarker_nonpos (2 ^ k) m
    omega
  · have other := h.empty_marker m turn
    rw [slot, marked, popMarker, popMarker] at other
    have same : m = n := by omega
    exact same ▸ turn

end Markers

/-! ### What other threads keep -/

section Frame

variable {R R' : PhasedRing (2 ^ k)} {s s' : State Tid E} {t u : Tid} {n m : ℕ} {call : Call E}

theorem sent_extends (pushes : ∀ (m : ℕ) e, s.pushes[m]? = some e → s'.pushes[m]? = some e)
    {e : E} (sent : s.sent n = some e) : s'.sent n = some e := by
  obtain ⟨entry, found, value⟩ := Option.map_eq_some_iff.mp sent
  rw [State.sent, pushes n entry found]
  exact congrArg some value

/-- Drawing a ticket disturbs no fact. -/
theorem Fact.grow (h : Fact R s t call) (tail : R.tail ≤ R'.tail) (head : R.head ≤ R'.head)
    (phase : R'.phase = R.phase)
    (pushes : ∀ (m : ℕ) e, s.pushes[m]? = some e → s'.pushes[m]? = some e)
    (pops : ∀ (m : ℕ) e, s.pops[m]? = some e → s'.pops[m]? = some e)
    (elements : s'.q.elementQueue = s.q.elementQueue) (taken : s'.taken = s.taken) :
    Fact R' s' t call := by
  have toFill : ∀ n, R.ToFill n → R'.ToFill n := fun n turn => (congrFun phase _).trans turn
  have toEmpty : ∀ n, R.ToEmpty n → R'.ToEmpty n := fun n turn => (congrFun phase _).trans turn
  have filled : ∀ n, ¬ R.Filled n → ¬ R'.Filled n := fun n free full =>
    free (by rwa [PhasedRing.Filled, phase] at full)
  have emptied : ∀ n, ¬ R.Emptied n → ¬ R'.Emptied n := fun n free full =>
    free (by rwa [PhasedRing.Emptied, phase] at full)
  cases call with
  | pushClaim e write => exact Nat.lt_of_lt_of_le h (Nat.add_le_add_right head _)
  | pushWait e write => exact ⟨pushes _ _ h.1, filled _ h.2⟩
  | pushStore e write => exact ⟨pushes _ _ h.1, toFill _ h.2⟩
  | pushMark write =>
    obtain ⟨e, mine, turn, element⟩ := h
    exact ⟨e, pushes _ _ mine, toFill _ turn, by rw [elements, element]⟩
  | popLoadRead write => exact Nat.le_trans h tail
  | popClaim read => exact Nat.lt_of_lt_of_le h tail
  | popWait read => exact ⟨pops _ _ h.1, emptied _ h.2⟩
  | popTake read => exact ⟨pops _ _ h.1, toEmpty _ h.2.1, taken ▸ h.2.2⟩
  | popLeave read e | popMark read e => exact ⟨pops _ _ h.1, toEmpty _ h.2.1, taken ▸ h.2.2⟩
  | popReturn e =>
    cases e with
    | none => trivial
    | some e =>
      obtain ⟨read, mine⟩ := h
      exact ⟨read, taken ▸ mine⟩
  | rest | pushLoadWrite | pushLoadRead | pushReturn | popLoadWrite | undefined => trivial

/-- `t` has its turn on a ticket it claimed. -/
def Turn (R : PhasedRing (2 ^ k)) (s : State Tid E) (t : Tid) (n : ℕ) : Prop :=
  (∃ e, s.pushes[n]? = some (n, t, e)) ∧ R.ToFill n ∨ s.pops[n]? = some (n, t) ∧ R.ToEmpty n

/-- Two threads do not have their turns on one slot. -/
theorem Turn.apart (turn : Turn R s t n) (turn' : Turn R s u m) (other : u ≠ t) :
    m % 2 ^ k ≠ n % 2 ^ k := by
  intro slot
  rcases turn with ⟨⟨e, mine⟩, turn⟩ | ⟨mine, turn⟩ <;>
    rcases turn' with ⟨⟨e', yours⟩, turn'⟩ | ⟨yours, turn'⟩
  · obtain rfl := turn.inj turn' slot.symm
    rw [mine] at yours
    simp only [Option.some.injEq, Prod.mk.injEq, true_and] at yours
    exact other yours.1.symm
  · exact turn.apart turn' slot.symm
  · exact turn'.apart turn slot
  · obtain rfl := turn.inj turn' slot.symm
    rw [mine] at yours
    simp only [Option.some.injEq, Prod.mk.injEq, true_and] at yours
    exact other yours.symm

/-- A step that uses the slot of ticket `m` only: its phase moves on by one at most, and
only the ticket's element is taken. -/
structure Within (m : ℕ) (R R' : PhasedRing (2 ^ k)) (s s' : State Tid E) : Prop where
  tail : R'.tail = R.tail
  head : R'.head = R.head
  away : ∀ i, i ≠ m % 2 ^ k → R'.phase i = R.phase i
  here : R'.phase (m % 2 ^ k) ≤ R.phase (m % 2 ^ k) + 1
  pushes : s'.pushes = s.pushes
  pops : s'.pops = s.pops
  elements : ∀ i, i ≠ m % 2 ^ k → s'.q.elementQueue i = s.q.elementQueue i
  keeps : s.taken ⊆ s'.taken
  fresh : ∀ n, n ≠ m → n ∉ s.taken.map Prod.fst → n ∉ s'.taken.map Prod.fst

/-- What a thread does in its turn disturbs no fact of another one. -/
theorem Fact.slot (h : Fact R s u call) (other : u ≠ t) (turn : Turn R s t m)
    (within : Within m R R' s s') : Fact R' s' u call := by
  obtain ⟨tail, head, away, here, pushes, pops, elements, keeps, fresh⟩ := within
  have toFill : ∀ n, n % 2 ^ k ≠ m % 2 ^ k → R.ToFill n → R'.ToFill n := fun n apart turn =>
    (away _ apart).trans turn
  have toEmpty : ∀ n, n % 2 ^ k ≠ m % 2 ^ k → R.ToEmpty n → R'.ToEmpty n := fun n apart turn =>
    (away _ apart).trans turn
  cases call with
  | pushClaim e write =>
    change write < R'.head + 2 ^ k
    rw [head]
    exact h
  | pushWait e write =>
    obtain ⟨mine, free⟩ := h
    refine ⟨pushes ▸ mine, fun full => ?_⟩
    rw [PhasedRing.Filled] at free full
    by_cases slot : write % 2 ^ k = m % 2 ^ k
    · rw [slot] at free full
      rcases turn with ⟨⟨e', yours⟩, turn⟩ | ⟨-, turn⟩
      · -- both are producers, and the other one is on an earlier lap
        have apart : write ≠ m := by
          rintro rfl
          rw [mine] at yours
          simp only [Option.some.injEq, Prod.mk.injEq, true_and] at yours
          exact other yours.1
        have laps : write / 2 ^ k ≠ m / 2 ^ k := fun same => apart (lap_inj slot same)
        rw [PhasedRing.ToFill] at turn
        omega
      · rw [PhasedRing.ToEmpty] at turn
        omega
    · rw [away _ slot] at full
      exact free full
  | pushStore e write =>
    obtain ⟨mine, yours⟩ := h
    have apart := turn.apart (Or.inl ⟨⟨e, mine⟩, yours⟩) other
    exact ⟨pushes ▸ mine, toFill _ apart yours⟩
  | pushMark write =>
    obtain ⟨e, mine, yours, element⟩ := h
    have apart := turn.apart (Or.inl ⟨⟨e, mine⟩, yours⟩) other
    exact ⟨e, pushes ▸ mine, toFill _ apart yours, by rw [elements _ apart, element]⟩
  | popLoadRead write =>
    change write ≤ R'.tail
    rw [tail]
    exact h
  | popClaim read =>
    change read < R'.tail
    rw [tail]
    exact h
  | popWait read =>
    obtain ⟨mine, free⟩ := h
    refine ⟨pops ▸ mine, fun full => ?_⟩
    rw [PhasedRing.Emptied] at free full
    by_cases slot : read % 2 ^ k = m % 2 ^ k
    · rw [slot] at free full
      rcases turn with ⟨-, turn⟩ | ⟨yours, turn⟩
      · rw [PhasedRing.ToFill] at turn
        omega
      · have apart : read ≠ m := by
          rintro rfl
          rw [mine] at yours
          simp only [Option.some.injEq, Prod.mk.injEq, true_and] at yours
          exact other yours
        have laps : read / 2 ^ k ≠ m / 2 ^ k := fun same => apart (lap_inj slot same)
        rw [PhasedRing.ToEmpty] at turn
        omega
    · rw [away _ slot] at full
      exact free full
  | popTake read =>
    obtain ⟨mine, yours, left⟩ := h
    have apart := turn.apart (Or.inr ⟨mine, yours⟩) other
    exact ⟨pops ▸ mine, toEmpty _ apart yours, fresh _ (fun same => apart (by rw [same])) left⟩
  | popLeave read e | popMark read e =>
    obtain ⟨mine, yours, logged⟩ := h
    have apart := turn.apart (Or.inr ⟨mine, yours⟩) other
    exact ⟨pops ▸ mine, toEmpty _ apart yours, keeps logged⟩
  | popReturn e =>
    cases e with
    | none => trivial
    | some e =>
      obtain ⟨read, mine⟩ := h
      exact ⟨read, keeps mine⟩
  | rest | pushLoadWrite | pushLoadRead | pushReturn | popLoadWrite | undefined => trivial

end Frame

/-! ### One step of one call -/

section Steps

variable [DecidableEq Tid] {R R' : PhasedRing (2 ^ k)} {s s' : State Tid E} {t : Tid}

/-! A step of `t` may start or end its use of an index. -/

section Busy

variable {f : Call E → Option ℕ} {call : Call E} {n : ℕ}

theorem busy_same (same : f call = f (s.call t)) :
    (∃ u, f (Function.update s.call t call u) = some n) ↔ ∃ u, f (s.call u) = some n :=
  exists_update_same (P := fun c => f c = some n) (by rw [same])

theorem busy_join (off : f (s.call t) = none) :
    (∃ u, f (Function.update s.call t call u) = some n) ↔
      (∃ u, f (s.call u) = some n) ∨ f call = some n := by
  refine exists_update_join (P := fun c => f c = some n) fun busy => ?_
  rw [off] at busy
  cases busy

theorem busy_leave (t : Tid) (call : Call E) (off : f call = none) : (∃ u, f (s.call u) = some n) ↔
    (∃ u, f (Function.update s.call t call u) = some n) ∨ f (s.call t) = some n := by
  refine exists_update_leave (P := fun c => f c = some n) fun busy => ?_
  rw [off] at busy
  cases busy

end Busy

section Unmoved

variable {call : Call E}

theorem Inv.pushing_same (h : Inv R s) (same : call.pushing = (s.call t).pushing) (n : ℕ)
    (below : n < R.tail) :
    R.Filled n ∨ ∃ u, (Function.update s.call t call u).pushing = some n := by
  rw [busy_same same]
  exact h.pushing n below

theorem Inv.popping_same (h : Inv R s) (same : call.popping = (s.call t).popping) (n : ℕ)
    (below : n < R.head) :
    R.Emptied n ∨ ∃ u, (Function.update s.call t call u).popping = some n := by
  rw [busy_same same]
  exact h.popping n below

theorem Inv.stored_same (h : Inv R s) (same : call.storing = (s.call t).storing) (n : ℕ) :
    n ∈ s.stored ↔ R.Filled n ∨ ∃ u, (Function.update s.call t call u).storing = some n := by
  rw [busy_same same]
  exact h.stored n

theorem Inv.taken_same (h : Inv R s) (same : call.taking = (s.call t).taking) (n : ℕ) :
    n ∈ s.taken.map Prod.fst ↔
      R.Emptied n ∨ ∃ u, (Function.update s.call t call u).taking = some n := by
  rw [busy_same same]
  exact h.taken n

end Unmoved

/-- The fact of the thread that moved, and those of the others. -/
theorem facts_update {call : Call E} (mine : Fact R' s' t call)
    (others : ∀ u, u ≠ t → Fact R' s' u (s.call u)) (u : Tid) :
    Fact R' s' u (Function.update s.call t call u) := by
  by_cases here : u = t
  · subst here
    rw [Function.update_self]
    exact mine
  · rw [Function.update_of_ne here]
    exact others u here

/-- A step that moves the call and nothing else. -/
theorem Inv.setCall (h : Inv R s) {call : Call E} (fact : Fact R s t call)
    (uses : call.uses = (s.call t).uses) : Inv R (s.setCall t call) := by
  simp only [Call.uses, Prod.mk.injEq] at uses
  obtain ⟨pushing, popping, storing, taking⟩ := uses
  have kept {u : Tid} {c : Call E} (fact : Fact R s u c) : Fact R (s.setCall t call) u c :=
    fact.grow le_rfl le_rfl rfl (fun _ _ e => e) (fun _ _ e => e) rfl rfl
  exact { h with
    facts := facts_update (kept fact) fun u _ => kept (h.facts u)
    pushing := h.pushing_same pushing
    popping := h.popping_same popping
    stored := h.stored_same storing
    taken := h.taken_same taking }

omit [DecidableEq Tid] in
theorem Inv.taking_owner (h : Inv R s) {n : ℕ} (taking : (s.call t).taking = some n) :
    s.pops[n]? = some (n, t) ∧ R.ToEmpty n := by
  have fact := h.facts t
  cases hc : s.call t with
  | popLeave read e | popMark read e =>
    rw [hc] at fact taking
    obtain rfl := Option.some.inj taking
    exact ⟨fact.1, fact.2.1⟩
  | _ =>
    rw [hc] at taking
    cases taking

omit [DecidableEq Tid] in
theorem Inv.storing_owner (h : Inv R s) {n : ℕ} (storing : (s.call t).storing = some n) :
    (∃ e, s.pushes[n]? = some (n, t, e) ∧ s.q.elementQueue (n % 2 ^ k) = e) ∧ R.ToFill n := by
  have fact := h.facts t
  cases hc : s.call t with
  | pushMark write =>
    rw [hc] at fact storing
    obtain rfl := Option.some.inj storing
    obtain ⟨e, mine, turn, element⟩ := fact
    exact ⟨⟨e, mine, element⟩, turn⟩
  | _ =>
    rw [hc] at storing
    cases storing

theorem Inv.moves (h : Inv R s) {call : Call E} (moves : Moves s.q (s.call t) call) :
    Inv R (s.setCall t call) := by
  have fact := h.facts t
  generalize hc : s.call t = before at moves fact
  have uses : before.uses = (s.call t).uses := congrArg Call.uses hc.symm
  cases moves with
  | pushLoadWrite | pushFull | pushOverflow | pushLost | popEmpty | popOverflow | popLost
  | undefined => exact h.setCall trivial uses
  | popLoadWrite => exact h.setCall h.writeIndex.le uses
  | @pushRoom e write room =>
    refine h.setCall ?_ uses
    rw [LockFreeArrayQueue.isFull, decide_eq_false_iff_not, h.size, h.readIndex] at room
    change write < R.head + 2 ^ k
    omega
  | pushSpin e write | popSpin read => exact h.setCall fact uses
  | @pushReady e write marked =>
    rw [h.transIndex, h.size] at marked
    exact h.setCall ⟨fact.1, h.toFill marked⟩ uses
  | @popMore write more =>
    refine h.setCall ?_ uses
    rw [LockFreeArrayQueue.isEmpty, decide_eq_false_iff_not, h.readIndex] at more
    change s.q.readIndex < R.tail
    rw [h.readIndex]
    exact Nat.lt_of_lt_of_le (Nat.lt_of_not_le more) fact
  | @popReady read marked =>
    rw [h.transIndex] at marked
    obtain ⟨mine, free⟩ := fact
    refine h.setCall ⟨mine, h.toEmpty marked, fun old => ?_⟩ uses
    rcases (h.taken read).mp old with gone | ⟨u, taking⟩
    · exact free gone
    · -- the thread that took it would be this one
      obtain ⟨yours, -⟩ := h.taking_owner taking
      rw [mine] at yours
      simp only [Option.some.injEq, Prod.mk.injEq, true_and] at yours
      rw [← yours, hc] at taking
      cases taking

/-- A push claims the next index while its slot may still be in use. -/
theorem Inv.pushClaim (h : Inv R s) {e : E} {write : ℕ} (hc : s.call t = .pushClaim e write)
    (same : s.q.writeIndex = write) : ∃ R' : PhasedRing (2 ^ k), Inv R' { s with
      q := { s.q with writeIndex := write + 1 }
      pushes := s.pushes ++ [(write, t, e)]
      call := Function.update s.call t (.pushWait e write) } := by
  have fact := h.facts t
  rw [hc] at fact
  obtain rfl : write = R.tail := same.symm.trans h.writeIndex
  have room : R.tail < R.head + 2 ^ k := fact
  have len := h.pushes_length
  have last : (s.pushes ++ [(R.tail, t, e)])[R.tail]? = some (R.tail, t, e) := by
    rw [← len, List.getElem?_concat_length]
  refine ⟨R.draw room, {
    h with
    writeIndex := rfl
    fill_marker := h.fill_marker
    empty_marker := h.empty_marker
    pushes_length := ?length
    pushes_index := concat_forall h.pushes_index len.symm
    facts := ?facts
    pushing := ?pushing
    popping := h.popping_same (by rw [hc]; rfl)
    stored := h.stored_same (by rw [hc]; rfl)
    taken := h.taken_same (by rw [hc]; rfl)
    held := ?held
    obtained := ?obtained }⟩
  case length =>
    rw [List.length_append, len]
    rfl
  case facts =>
    refine facts_update ⟨last, fun full => ?_⟩ fun u _ => ?_
    · exact absurd (R.filled_drawn _ full) (Nat.lt_irrefl _)
    · exact (h.facts u).grow (Nat.le_succ _) le_rfl rfl (concat_old _) (fun _ _ e => e) rfl rfl
  case pushing =>
    intro n below
    rw [busy_join (f := Call.pushing) (by rw [hc]; rfl)]
    rcases Nat.lt_succ_iff_lt_or_eq.mp below with old | rfl
    · exact (h.pushing n old).imp_right Or.inl
    · exact Or.inr (Or.inr rfl)
  case held =>
    intro n turn left
    exact (sent_extends (s := s) (concat_old _) (h.held n turn left).symm).symm
  case obtained =>
    intro n u x found
    obtain ⟨mine, sent⟩ := h.obtained n u x found
    exact ⟨mine, sent_extends (s := s) (concat_old _) sent⟩

/-- A pop claims the next index while its element may not be in yet. -/
theorem Inv.popClaim (h : Inv R s) {read : ℕ} (hc : s.call t = .popClaim read)
    (same : s.q.readIndex = read) : ∃ R' : PhasedRing (2 ^ k), Inv R' { s with
      q := { s.q with readIndex := read + 1 }
      pops := s.pops ++ [(read, t)]
      call := Function.update s.call t (.popWait read) } := by
  have fact := h.facts t
  rw [hc] at fact
  obtain rfl : read = R.head := same.symm.trans h.readIndex
  have more : R.head < R.tail := fact
  have len := h.pops_length
  have last : (s.pops ++ [(R.head, t)])[R.head]? = some (R.head, t) := by
    rw [← len, List.getElem?_concat_length]
  refine ⟨R.take more, {
    h with
    readIndex := rfl
    fill_marker := h.fill_marker
    empty_marker := h.empty_marker
    pops_length := ?length
    pops_index := concat_forall h.pops_index len.symm
    facts := ?facts
    pushing := h.pushing_same (by rw [hc]; rfl)
    popping := ?popping
    stored := h.stored_same (by rw [hc]; rfl)
    taken := h.taken_same (by rw [hc]; rfl)
    held := h.held
    obtained := ?obtained }⟩
  case length =>
    rw [List.length_append, len]
    rfl
  case facts =>
    refine facts_update ⟨last, fun gone => ?_⟩ fun u _ => ?_
    · exact absurd (R.emptied_drawn _ gone) (Nat.lt_irrefl _)
    · exact (h.facts u).grow le_rfl (Nat.le_succ _) rfl (fun _ _ e => e) (concat_old _) rfl rfl
  case popping =>
    intro n below
    rw [busy_join (f := Call.popping) (by rw [hc]; rfl)]
    rcases Nat.lt_succ_iff_lt_or_eq.mp below with old | rfl
    · exact (h.popping n old).imp_right Or.inl
    · exact Or.inr (Or.inr rfl)
  case obtained =>
    intro n u x found
    obtain ⟨mine, sent⟩ := h.obtained n u x found
    exact ⟨concat_old _ _ _ mine, sent⟩

/-- The facts of all threads after `t` made a step in its turn. -/
theorem Inv.others (h : Inv R s) {m : ℕ} (turn : Turn R s t m) {call : Call E}
    (mine : Fact R' s' t call) (within : Within m R R' s s') (u : Tid) :
    Fact R' s' u (Function.update s.call t call u) :=
  facts_update mine (fun u hu => (h.facts u).slot hu turn within) u

/-- The element goes into a slot whose last element was taken. -/
theorem Inv.pushStore (h : Inv R s) {e : E} {write : ℕ} (hc : s.call t = .pushStore e write) :
    Inv R { s with
      q := s.q.setElement (s.q.transIndex write) e
      stored := s.stored ++ [write]
      call := Function.update s.call t (.pushMark write) } := by
  have fact := h.facts t
  rw [hc] at fact
  obtain ⟨mine, turn⟩ := fact
  have elements : ∀ i, i ≠ write % 2 ^ k →
      (s.q.setElement (s.q.transIndex write) e).elementQueue i = s.q.elementQueue i := by
    intro i away
    rw [h.transIndex]
    exact Function.update_of_ne away _ _
  refine { h with
    facts := h.others (Or.inl ⟨⟨e, mine⟩, turn⟩) ?fact {
      tail := rfl
      head := rfl
      away := fun _ _ => rfl
      here := Nat.le_succ _
      pushes := rfl
      pops := rfl
      elements := elements
      keeps := List.Subset.refl _
      fresh := fun _ _ left => left }
    pushing := h.pushing_same (by rw [hc]; rfl)
    popping := h.popping_same (by rw [hc]; rfl)
    stored := ?stored
    taken := h.taken_same (by rw [hc]; rfl)
    held := ?held }
  case fact =>
    refine ⟨e, mine, turn, ?_⟩
    rw [h.transIndex]
    exact Function.update_self ..
  case stored =>
    intro n
    rw [busy_join (f := Call.storing) (by rw [hc]; rfl), ← or_assoc, ← h.stored n,
      List.mem_append, List.mem_singleton]
    exact or_congr_right ⟨fun same => congrArg some same.symm, fun same => (Option.some.inj same).symm⟩
  case held =>
    intro n turn' left
    rw [elements _ (turn.apart turn').symm]
    exact h.held n turn' left

/-- The marker lets the pop of the same index go on. -/
theorem Inv.pushMark (h : Inv R s) {write : ℕ} (hc : s.call t = .pushMark write) :
    ∃ R' : PhasedRing (2 ^ k), Inv R' { s with
      q := s.q.setActive (s.q.transIndex write) (write + 1)
      call := Function.update s.call t (.pushReturn true) } := by
  have fact := h.facts t
  rw [hc] at fact
  obtain ⟨e, mine, turn, element⟩ := fact
  have drawn : write < R.tail := by
    rw [← h.pushes_length]
    exact (List.getElem?_eq_some_iff.mp mine).1
  refine ⟨R.fill write drawn turn, { h with
    fill_marker := ?fill
    empty_marker := ?empty
    facts := h.others (Or.inl ⟨⟨e, mine⟩, turn⟩) trivial {
      tail := rfl
      head := rfl
      away := ?away
      here := ?here
      pushes := rfl
      pops := rfl
      elements := fun _ _ => rfl
      keeps := List.Subset.refl _
      fresh := fun _ _ left => left }
    pushing := ?pushing
    popping := ?popping
    stored := ?stored
    taken := ?taken
    held := ?held }⟩
  case fill =>
    intro n turn'
    obtain ⟨apart, turn'⟩ := R.toFill_fill drawn turn turn'
    rw [h.transIndex]
    exact (Function.update_of_ne apart _ _).trans (h.fill_marker n turn')
  case empty =>
    intro n turn'
    rw [h.transIndex]
    rcases R.toEmpty_fill drawn turn turn' with rfl | ⟨apart, turn'⟩
    · exact Function.update_self ..
    · exact (Function.update_of_ne apart _ _).trans (h.empty_marker n turn')
  case away =>
    intro i away
    rw [R.fill_phase, if_neg away]
  case here => rw [R.fill_phase, if_pos rfl, turn]
  case pushing =>
    intro n below
    have old := h.pushing n below
    rw [busy_leave (f := Call.pushing) t (.pushReturn true) rfl, hc] at old
    rw [R.filled_fill]
    rcases old with full | other | same
    · exact Or.inl (Or.inl full)
    · exact Or.inr other
    · exact Or.inl (Or.inr (Option.some.inj same).symm)
  case popping =>
    intro n below
    rw [R.emptied_fill]
    exact h.popping_same (by rw [hc]; rfl) n below
  case stored =>
    intro n
    rw [h.stored n, R.filled_fill, busy_leave (f := Call.storing) t (.pushReturn true) rfl,
      hc, or_right_comm, or_assoc]
    exact or_congr_right (or_congr_right
      ⟨fun same => (Option.some.inj same).symm, fun same => congrArg some same.symm⟩)
  case taken =>
    intro n
    rw [R.emptied_fill]
    exact h.taken_same (by rw [hc]; rfl) n
  case held =>
    intro n turn' left
    rcases R.toEmpty_fill drawn turn turn' with rfl | ⟨-, turn'⟩
    · have sent : s.sent n = some e := by rw [State.sent, mine, Option.map_some]
      exact (congrArg some element).trans sent.symm
    · exact h.held n turn' left

/-- The value read is the one that the push of the same index stored. -/
theorem Inv.popTake (h : Inv R s) {read : ℕ} (hc : s.call t = .popTake read) :
    Inv R { s with
      taken := s.taken ++ [(read, t, s.q.elementQueue (s.q.transIndex read))]
      call := Function.update s.call t
        (.popLeave read (s.q.elementQueue (s.q.transIndex read))) } := by
  have fact := h.facts t
  rw [hc] at fact
  obtain ⟨mine, turn, left⟩ := fact
  have value := h.held read turn left
  rw [h.transIndex]
  refine { h with
    facts := h.others (Or.inr ⟨mine, turn⟩) ?fact {
      tail := rfl
      head := rfl
      away := fun _ _ => rfl
      here := Nat.le_succ _
      pushes := rfl
      pops := rfl
      elements := fun _ _ => rfl
      keeps := List.subset_append_left _ _
      fresh := ?fresh }
    pushing := h.pushing_same (by rw [hc]; rfl)
    popping := h.popping_same (by rw [hc]; rfl)
    stored := h.stored_same (by rw [hc]; rfl)
    taken := ?taken
    held := ?held
    obtained := ?obtained
    once := ?once }
  case fact => exact ⟨mine, turn, List.mem_append_right _ (List.mem_singleton_self _)⟩
  case fresh =>
    intro n other old
    rw [List.map_append, List.map_singleton, List.mem_append, List.mem_singleton]
    exact not_or.mpr ⟨old, other⟩
  case taken =>
    intro n
    rw [busy_join (f := Call.taking) (by rw [hc]; rfl), ← or_assoc, ← h.taken n, List.map_append,
      List.map_singleton, List.mem_append, List.mem_singleton]
    exact or_congr_right ⟨fun same => congrArg some same.symm, fun same => (Option.some.inj same).symm⟩
  case held =>
    intro n turn' left'
    rw [List.map_append, List.mem_append] at left'
    exact h.held n turn' fun old => left' (Or.inl old)
  case obtained =>
    intro n u x found
    rcases List.mem_append.mp found with old | now
    · exact h.obtained n u x old
    · obtain ⟨rfl, rfl, rfl⟩ := by simpa using now
      exact ⟨mine, value.symm⟩
  case once =>
    rw [List.map_append, List.map_singleton, List.nodup_append]
    refine ⟨h.once, List.nodup_singleton _, ?_⟩
    rintro n old _ now rfl
    rw [List.mem_singleton.mp now] at old
    exact left old

theorem Inv.popLeave (h : Inv R s) {read : ℕ} {e : E} (hc : s.call t = .popLeave read e) (left : E) :
    Inv R { s with
      q := s.q.setElement (s.q.transIndex read) left
      call := Function.update s.call t (.popMark read e) } := by
  have fact := h.facts t
  rw [hc] at fact
  obtain ⟨mine, turn, logged⟩ := fact
  have elements : ∀ i, i ≠ read % 2 ^ k →
      (s.q.setElement (s.q.transIndex read) left).elementQueue i = s.q.elementQueue i := by
    intro i away
    rw [h.transIndex]
    exact Function.update_of_ne away _ _
  refine { h with
    facts := h.others (Or.inr ⟨mine, turn⟩) ⟨mine, turn, logged⟩ {
      tail := rfl
      head := rfl
      away := fun _ _ => rfl
      here := Nat.le_succ _
      pushes := rfl
      pops := rfl
      elements := elements
      keeps := List.Subset.refl _
      fresh := fun _ _ left => left }
    pushing := h.pushing_same (by rw [hc]; rfl)
    popping := h.popping_same (by rw [hc]; rfl)
    stored := h.stored_same (by rw [hc]; rfl)
    taken := h.taken_same (by rw [hc]; rfl)
    held := ?held }
  case held =>
    intro n turn' untaken
    have apart : n % 2 ^ k ≠ read % 2 ^ k := by
      intro slot
      obtain rfl := turn'.inj turn slot
      exact untaken (List.mem_map.mpr ⟨_, logged, rfl⟩)
    rw [elements _ apart]
    exact h.held n turn' untaken

/-- The marker lets the push one lap later go on. -/
theorem Inv.popMark (h : Inv R s) {read : ℕ} {e : E} (hc : s.call t = .popMark read e) :
    ∃ R' : PhasedRing (2 ^ k), Inv R' { s with
      q := s.q.setActive (s.q.transIndex read) (-popMarker read)
      call := Function.update s.call t (.popReturn (some e)) } := by
  have fact := h.facts t
  rw [hc] at fact
  obtain ⟨mine, turn, logged⟩ := fact
  have drawn : read < R.head := by
    rw [← h.pops_length]
    exact (List.getElem?_eq_some_iff.mp mine).1
  refine ⟨R.empty read drawn turn, { h with
    fill_marker := ?fill
    empty_marker := ?empty
    facts := h.others (Or.inr ⟨mine, turn⟩) ⟨read, logged⟩ {
      tail := rfl
      head := rfl
      away := ?away
      here := ?here
      pushes := rfl
      pops := rfl
      elements := fun _ _ => rfl
      keeps := List.Subset.refl _
      fresh := fun _ _ left => left }
    pushing := ?pushing
    popping := ?popping
    stored := ?stored
    taken := ?taken
    held := ?held }⟩
  case fill =>
    intro n turn'
    rw [h.transIndex]
    rcases R.toFill_empty drawn turn (Nat.two_pow_pos k) turn' with rfl | ⟨apart, turn'⟩
    · have marker : pushMarker (2 ^ k) (read + 2 ^ k) = -popMarker read := by
        rw [pushMarker, if_pos (Nat.le_add_left _ _), popMarker]
        push_cast
        ring
      rw [Nat.add_mod_right, marker]
      exact Function.update_self ..
    · exact (Function.update_of_ne apart _ _).trans (h.fill_marker n turn')
  case empty =>
    intro n turn'
    obtain ⟨apart, turn'⟩ := R.toEmpty_empty drawn turn turn'
    rw [h.transIndex]
    exact (Function.update_of_ne apart _ _).trans (h.empty_marker n turn')
  case away =>
    intro i away
    rw [R.empty_phase, if_neg away]
  case here => rw [R.empty_phase, if_pos rfl, turn]
  case pushing =>
    intro n below
    rw [R.filled_empty]
    exact h.pushing_same (by rw [hc]; rfl) n below
  case popping =>
    intro n below
    have old := h.popping n below
    rw [busy_leave (f := Call.popping) t (.popReturn (some e)) rfl, hc] at old
    rw [R.emptied_empty]
    rcases old with gone | other | same
    · exact Or.inl (Or.inl gone)
    · exact Or.inr other
    · exact Or.inl (Or.inr (Option.some.inj same).symm)
  case stored =>
    intro n
    rw [R.filled_empty]
    exact h.stored_same (by rw [hc]; rfl) n
  case taken =>
    intro n
    rw [h.taken n, R.emptied_empty, busy_leave (f := Call.taking) t (.popReturn (some e)) rfl, hc,
      or_right_comm, or_assoc]
    exact or_congr_right (or_congr_right
      ⟨fun same => (Option.some.inj same).symm, fun same => congrArg some same.symm⟩)
  case held =>
    intro n turn' left
    exact h.held n (R.toEmpty_empty drawn turn turn').2 left

/-- Every step of every thread keeps the invariant. -/
theorem Inv.step (h : Inv R s) {moved : E → E} {l : Label Tid E} (hs : next moved s l = some s') :
    ∃ R' : PhasedRing (2 ^ k), Inv R' s' := by
  cases next_step hs with
  | @invoke t rest op =>
    refine ⟨R, h.setCall (by cases op <;> trivial) ?_⟩
    cases hc : s.call t <;> rw [hc] at rest <;> cases rest <;> cases op <;> rfl
  | move moves => exact ⟨R, h.moves moves⟩
  | pushClaim hc same => exact h.pushClaim hc same
  | pushStore hc => exact ⟨R, h.pushStore hc⟩
  | pushMark hc => exact h.pushMark hc
  | popClaim hc same => exact h.popClaim hc same
  | popTake hc => exact ⟨R, h.popTake hc⟩
  | popLeave hc => exact ⟨R, h.popLeave hc _⟩
  | popMark hc => exact h.popMark hc

end Steps

end LockFreeArray
