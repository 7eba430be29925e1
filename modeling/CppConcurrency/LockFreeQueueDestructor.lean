import CppConcurrency.LockFreeQueueStorage
import Mathlib.Data.Fintype.Basic
import Mathlib.Data.List.Range

/-!
# The destructor of `LockFreeQueueCpp11` and the life of every element

When all calls have returned, the slots that hold an element are those of the tickets
from `_head` to `_tail`, one each. The destructor's loop compares wrapped counters for
inequality, which is enough because they are at most `_capacity` apart.
-/

namespace LockFreeQueue

open Machines WordCounters TicketRings LockFreeQueueCpp11

universe u v

variable {Tid : Type v} {T : Type u} {k : ℕ}

/-- `for(size_t i = _head; i != _tail; ++i) (&_queue[i & _capacityMask].data)->~T();` from
`i` on: the slots it visits and the queue it leaves. There is no result when it runs out
of fuel or comes to a slot that holds no element. -/
def destroyLoop : ℕ → SizeT → LockFreeQueueCpp11 T → Option (List ℕ × LockFreeQueueCpp11 T)
  | 0, i, q => if i ≠ q.tail then none else some ([], q)
  | fuel + 1, i, q =>
    if i ≠ q.tail then
      match (q.node i).data with
      | some _ =>
        (destroyLoop fuel (i + 1) (q.storeData i none)).map fun (slots, q') => (q.slot i :: slots, q')
      | none => none
    else some ([], q)

/-- `~LockFreeQueueCpp11()`. -/
def destroy (fuel : ℕ) (q : LockFreeQueueCpp11 T) : Option (List ℕ × LockFreeQueueCpp11 T) :=
  destroyLoop fuel q.head q

section Loop

variable {R : TicketRing (2 ^ k)} {q : LockFreeQueueCpp11 T}

/-- The loop's condition tells the tickets of one lap from the last. -/
theorem OnRing.more {n count : ℕ} (ring : OnRing k R q) (last : n + count = R.tail)
    (near : count ≤ 2 ^ k) (some : 0 < count) : BitVec.ofNat 64 n ≠ q.tail := by
  have wrap := capacity_lt_wrap ring.small
  rw [ring.tail]
  intro same
  have := ofNat_inj_of_near (by omega) (by omega) same
  omega

/-- From ticket `n` on the loop visits the slots of the tickets up to `_tail`. -/
theorem destroyLoop_eq {n count : ℕ} (ring : OnRing k R q) (last : n + count = R.tail)
    (near : count ≤ 2 ^ k)
    (live : ∀ m, n ≤ m → m < R.tail → (q.queue (m % 2 ^ k)).data.isSome = true) :
    ∃ q', (∀ fuel, destroyLoop (fuel + count) (BitVec.ofNat 64 n) q =
        some ((List.range' n count).map (· % 2 ^ k), q')) ∧
      ∀ i, (q'.queue i).data =
        if i ∈ (List.range' n count).map (· % 2 ^ k) then none else (q.queue i).data := by
  induction count generalizing n q with
  | zero =>
    obtain rfl : n = R.tail := last
    refine ⟨q, fun fuel => ?_, fun i => by simp⟩
    cases fuel with
    | zero => simp [destroyLoop, ring.tail]
    | succ fuel => simp [destroyLoop, ring.tail]
  | succ count ih =>
    have more := ring.more last near (Nat.succ_pos count)
    obtain ⟨value, found⟩ := Option.isSome_iff_exists.mp (live n le_rfl (by omega))
    have here : (q.node (BitVec.ofNat 64 n)).data = some value := by rw [ring.node_ofNat, found]
    have slot := ring.slot_ofNat n
    have others : ∀ m, n + 1 ≤ m → m < R.tail →
        ((q.storeData (BitVec.ofNat 64 n) none).queue (m % 2 ^ k)).data.isSome = true := by
      intro m later below
      rw [storeData_data, slot, if_neg]
      · exact live m (by omega) below
      · intro same
        rcases eq_or_lap same.symm (by omega) with equal | lap <;> omega
    obtain ⟨q', loop, after⟩ := ih (n := n + 1) (ring.storeData (BitVec.ofNat 64 n) none) (by omega)
      (by omega) others
    refine ⟨q', fun fuel => ?_, fun i => ?_⟩
    · have next : BitVec.ofNat 64 n + 1 = BitVec.ofNat 64 (n + 1) := (BitVec.ofNat_add n 1).symm
      rw [← Nat.add_assoc, destroyLoop, if_pos more, here]
      dsimp only
      rw [next, loop, slot]
      rfl
    · rw [after, storeData_data, slot]
      simp only [List.range'_succ, List.map_cons, List.mem_cons]
      by_cases first : i = n % 2 ^ k
      · simp [first]
      · rw [if_neg first]
        simp only [first, false_or]

omit R in
/-- Tickets less than a lap apart have different slots. -/
theorem slots_nodup {n count : ℕ} (near : count ≤ 2 ^ k) :
    ((List.range' n count).map (· % 2 ^ k)).Nodup := by
  refine List.Nodup.map_on ?_ List.nodup_range'
  intro a ha b hb same
  have inA := List.mem_range'_1.mp ha
  have inB := List.mem_range'_1.mp hb
  rcases Nat.le_total a b with below | below
  · rcases eq_or_lap same below with equal | lap <;> omega
  · rcases eq_or_lap same.symm below with equal | lap <;> omega

end Loop

/-! ### Runs -/

/-- The call has a push ticket and has not made its final store. -/
def Call.pushing : Call T → Bool
  | .pushConstruct _ _ | .pushPublish _ => true
  | _ => false

/-- The call has a pop ticket and has not made its final store. -/
def Call.popping : Call T → Bool
  | .popCopy _ | .popDestroy _ _ | .popRelease _ _ => true
  | _ => false

/-- Every ticket is used up or in the hands of a running call. -/
structure Pending (s : State Tid T) : Prop where
  pushes : ∀ n, n < s.pushes.length →
    n ∈ s.filled ∨ ∃ t, (s.call t).pushing = true ∧ s.seen t = n
  pops : ∀ n, n < s.pops.length →
    n ∈ s.released ∨ ∃ t, (s.call t).popping = true ∧ s.seen t = n

/-- No call begins or takes a step while another one runs. -/
def Alone (s : State Tid T) (l : Label Tid T) : Prop :=
  ∀ u, u ≠ l.thread → (s.call u).atRest = true

instance [Fintype Tid] [DecidableEq Tid] (s : State Tid T) (l : Label Tid T) :
    Decidable (Alone s l) :=
  inferInstanceAs (Decidable (∀ u, u ≠ l.thread → (s.call u).atRest = true))

/-- A call that runs alone has seen the latest ticket when it comes to its claim. -/
def Current (s : State Tid T) : Prop :=
  ∀ t, match s.call t with
    | .pushTest _ _ | .pushClaim _ _ => s.seen t = s.pushes.length
    | .popTest _ | .popClaim _ => s.seen t = s.pops.length
    | _ => True

section Runs

variable [DecidableEq Tid] {s s' : State Tid T} {l : Label Tid T}

omit [DecidableEq Tid] in
theorem Current.timely (current : Current s) (l : Label Tid T) : Timely s l := by
  cases l with
  | invoke t op => trivial
  | step t spurious =>
    have now := current t
    rw [Timely]
    cases hc : s.call t with
    | pushClaim data tail | popClaim tail =>
      rw [hc] at now
      dsimp only at now ⊢
      omega
    | _ => trivial

theorem Current.next (current : Current s) (alone : Alone s l) (hs : next s l = some s') :
    Current s' := by
  intro u
  by_cases here : u = l.thread
  · subst here
    have now := current l.thread
    cases next_step hs with
    | @invoke t rest op => cases op <;> simp [Label.thread, State.setCall, Op.invoke]
    | @step t running spurious =>
      change match s.call t with
        | .pushTest _ _ | .pushClaim _ _ => s.seen t = s.pushes.length
        | .popTest _ | .popClaim _ => s.seen t = s.pops.length
        | _ => True at now
      cases hc : s.call t with
      | rest | pushReturn | popReturn => simp [hc, Call.atRest] at running
      | pushTest data tail =>
        rw [hc] at now
        by_cases pass : (s.q.node tail).tail = tail
        · simpa [Label.thread, record, advance, hc, pass, State.setCall] using now
        · simp [Label.thread, record, advance, hc, pass, State.setCall]
      | popTest head =>
        rw [hc] at now
        by_cases pass : (s.q.node head).head = head
        · simpa [Label.thread, record, advance, hc, pass, State.setCall] using now
        · simp [Label.thread, record, advance, hc, pass, State.setCall]
      | pushClaim data tail =>
        by_cases won : s.q.tail = tail ∧ spurious = false
        · simp [Label.thread, record, advance, hc, won, State.setCall, State.see]
        · simp [Label.thread, record, advance, hc, won, State.setCall, State.see]
      | popClaim head =>
        by_cases won : s.q.head = head ∧ spurious = false
        · simp [Label.thread, record, advance, hc, won, State.setCall, State.see]
        · simp [Label.thread, record, advance, hc, won, State.setCall, State.see]
      | _ => simp [Label.thread, record, advance, hc, State.setCall, State.see]
  · obtain ⟨call, -⟩ := next_other hs here
    have rest := alone u here
    rw [call]
    cases hc : s.call u <;> simp_all [Call.atRest]

omit [DecidableEq Tid] in
theorem Call.pushing_of_unclaimed {call : Call T} (unclaimed : call.claimed = false) :
    call.pushing = false := by
  cases call with
  | pushConstruct | pushPublish => cases unclaimed
  | _ => rfl

omit [DecidableEq Tid] in
theorem Call.popping_of_unclaimed {call : Call T} (unclaimed : call.claimed = false) :
    call.popping = false := by
  cases call with
  | popCopy | popDestroy | popRelease => cases unclaimed
  | _ => rfl

/-- A push ticket joins those in use when it is drawn. -/
theorem pushing_next (hs : next s l = some s') (m : ℕ) :
    (m ∈ s'.filled ∨ ∃ u, (s'.call u).pushing = true ∧ s'.seen u = m) ↔
      (m ∈ s.filled ∨ ∃ u, (s.call u).pushing = true ∧ s.seen u = m) ∨
        s.pushes.length < s'.pushes.length ∧ m = s.pushes.length := by
  refine tickets_next hs Call.pushing ?_
  cases next_moves hs with
  | seek before after data =>
    simp [State.setCall, State.see, Call.pushing_of_unclaimed before,
      Call.pushing_of_unclaimed after]
  | claimPush hc | publish hc =>
    simp [Label.thread, hc, State.setCall, State.see, Call.pushing, eq_comm]
  | construct hc | claimPop hc | copy hc | destroy hc | release hc =>
    simp [Label.thread, hc, State.setCall, State.see, Call.pushing]

/-- A pop ticket joins those in use when it is drawn. -/
theorem popping_next (hs : next s l = some s') (m : ℕ) :
    (m ∈ s'.released ∨ ∃ u, (s'.call u).popping = true ∧ s'.seen u = m) ↔
      (m ∈ s.released ∨ ∃ u, (s.call u).popping = true ∧ s.seen u = m) ∨
        s.pops.length < s'.pops.length ∧ m = s.pops.length := by
  refine tickets_next hs Call.popping ?_
  cases next_moves hs with
  | seek before after data =>
    simp [State.setCall, State.see, Call.popping_of_unclaimed before,
      Call.popping_of_unclaimed after]
  | claimPop hc | release hc =>
    simp [Label.thread, hc, State.setCall, State.see, Call.popping, eq_comm]
  | claimPush hc | construct hc | publish hc | copy hc | destroy hc =>
    simp [Label.thread, hc, State.setCall, State.see, Call.popping]

theorem claims_grow (hs : next s l = some s') :
    s'.pushes.length ≤ s.pushes.length + 1 ∧ s'.pops.length ≤ s.pops.length + 1 := by
  cases next_moves hs with
  | claimPush | claimPop => simp [State.see, State.setCall]
  | _ => exact ⟨Nat.le_succ _, Nat.le_succ _⟩

theorem Pending.next (pending : Pending s) (hs : next s l = some s') : Pending s' := by
  obtain ⟨pushes, pops⟩ := claims_grow hs
  constructor
  · intro n below
    rw [pushing_next hs]
    rcases Nat.lt_or_ge n s.pushes.length with old | now
    · exact Or.inl (pending.pushes n old)
    · exact Or.inr ⟨by omega, by omega⟩
  · intro n below
    rw [popping_next hs]
    rcases Nat.lt_or_ge n s.pops.length with old | now
    · exact Or.inl (pending.pops n old)
    · exact Or.inr ⟨by omega, by omega⟩

omit [DecidableEq Tid] in
/-- With no call running, every ticket is used up. -/
theorem Pending.at_rest (pending : Pending s) (rest : ∀ t, (s.call t).atRest = true) :
    (∀ n, n < s.pushes.length → n ∈ s.filled) ∧ ∀ n, n < s.pops.length → n ∈ s.released := by
  constructor
  · intro n below
    refine (pending.pushes n below).resolve_right ?_
    rintro ⟨t, busy, -⟩
    have idle := rest t
    cases hc : s.call t <;> simp_all [Call.atRest, Call.pushing]
  · intro n below
    refine (pending.pops n below).resolve_right ?_
    rintro ⟨t, busy, -⟩
    have idle := rest t
    cases hc : s.call t <;> simp_all [Call.atRest, Call.popping]

omit [DecidableEq Tid] in
/-- With no call running, the elements constructed are those of the push tickets and
the elements that pops destroyed are those of the pop tickets. -/
theorem Inv.at_rest {R : TicketRing (2 ^ k)} (h : Inv R s) (pending : Pending s)
    (rest : ∀ t, (s.call t).atRest = true) (n : ℕ) :
    (Constructed s n ↔ n < s.pushes.length) ∧ (Destroyed s n ↔ n < s.pops.length) := by
  have idle : ∀ (p : Call T → Bool), (∀ c, c.atRest = true → p c = false) →
      ¬ ∃ t, p (s.call t) = true ∧ s.seen t = n := by
    rintro p off ⟨t, busy, -⟩
    rw [off _ (rest t)] at busy
    cases busy
  have hi := Nat.mod_lt n (Nat.two_pow_pos k)
  have order := R.head_le_tail
  rw [h.pushes_length, h.pops_length]
  constructor
  · constructor
    · rintro (filled | publishing)
      · rcases (h.filled n).mp filled with gone | ⟨now, full⟩
        · have := R.passed (Nat.two_pow_pos k) gone
          omega
        · have := R.full_drawn _ hi full
          omega
      · exact absurd publishing (idle _ (by rintro ⟨⟩ <;> simp [Call.atRest, Call.publishing]))
    · intro below
      exact Or.inl ((pending.at_rest rest).1 n (by rwa [h.pushes_length]))
  · constructor
    · rintro (released | releasing)
      · exact R.passed (Nat.two_pow_pos k) ((h.released n).mp released)
      · exact absurd releasing (idle _ (by rintro ⟨⟩ <;> simp [Call.atRest, Call.releasing]))
    · intro below
      exact Or.inl ((pending.at_rest rest).2 n (by rwa [h.pops_length]))

variable {capacity : SizeT} {run : (machine Tid T capacity).Run}

theorem meets_timely (alone : run.Meets Alone) : run.Meets Timely := by
  intro i hi
  have current : Current (run.state i) :=
    (run.reachBy alone hi.le).invariant _ (fun _ => trivial)
      fun _ _ _ current alone hs => current.next alone hs
  exact current.timely _

theorem run_pending {i : ℕ} (hi : i ≤ run.length) : Pending (run.state i) := by
  refine (run.reach hi).invariant _ ⟨?_, ?_⟩ fun _ _ _ pending _ hs => pending.next hs
  · intro n below
    cases below
  · intro n below
    cases below

theorem run_stored (pos : 1 ≤ capacity.toNat) (small : capacity.toNat ≤ 2 ^ 63)
    (timely : run.Meets Timely) :
    ∃ k, (new (T := T) capacity).capacity.toNat = 2 ^ k ∧ ∀ i, i ≤ run.length →
      ∃ R : TicketRing (2 ^ k), Inv R (run.state i) ∧ Stored k (run.state i) := by
  obtain ⟨k, hcap, start⟩ := start_inv Tid T capacity pos small
  refine ⟨k, hcap, fun i hi => ?_⟩
  refine (run.reachBy timely hi).invariant
    (P := fun s => ∃ R : TicketRing (2 ^ k), Inv R s ∧ Stored k s) _ ?_ ?_
  · obtain ⟨R, h⟩ := start
    refine ⟨R, h, fun i _ => iff_of_false Bool.false_ne_true ?_⟩
    rintro ⟨n, -, filled | ⟨t, publishing, -⟩, -⟩
    · cases filled
    · cases publishing
  · rintro s l s' ⟨R, h, stored⟩ timely hs
    obtain ⟨R', h'⟩ := h.step timely hs
    exact ⟨R', h', stored.next h hs⟩

/-- Placement new is told raw storage in every step of the run, and a destructor call an
element. -/
theorem run_respects_storage (pos : 1 ≤ capacity.toNat) (small : capacity.toNat ≤ 2 ^ 63)
    (timely : run.Meets Timely) {i : ℕ} (hi : i < run.length) {t : Tid} :
    (∀ data tail, (run.state i).call t = .pushConstruct data tail →
      ((run.state i).q.node tail).data = none) ∧
    (∀ head result, (run.state i).call t = .popDestroy head result →
      ((run.state i).q.node head).data.isSome = true) := by
  obtain ⟨k, -, inv⟩ := run_stored pos small timely
  obtain ⟨R, h, stored⟩ := inv i hi.le
  exact ⟨fun _ _ hc => (h.construct_raw stored hc).2.1,
    fun _ _ hc => (h.destroy_live stored hc).2.1⟩

/-- Each ticket's element is constructed once and destroyed by a pop at most once. -/
theorem run_emitted (pos : 1 ≤ capacity.toNat) (small : capacity.toNat ≤ 2 ^ 63)
    (timely : run.Meets Timely) {i : ℕ} (hi : i ≤ run.length) :
    ((run.emitted construction i).Nodup ∧
      ∀ n, n ∈ run.emitted construction i ↔ Constructed (run.state i) n) ∧
    ((run.emitted destruction i).Nodup ∧
      ∀ n, n ∈ run.emitted destruction i ↔ Destroyed (run.state i) n) := by
  obtain ⟨k, -, inv⟩ := run_stored pos small timely
  constructor
  · refine run.emitted_once ?_ (fun j hj => constructed_next (run.step j hj)) ?_ hi
    · rintro n (filled | ⟨t, publishing, -⟩)
      · cases filled
      · cases publishing
    · intro j hj n event
      obtain ⟨R, h, stored⟩ := inv j hj.le
      obtain ⟨t, _, _, _, -, hc, emits, -, -⟩ | ⟨_, _, _, _, -, -, -, none, -⟩ | ⟨none, -, -⟩ :=
        storage_next (run.step j hj)
      · rw [event] at emits
        rw [Option.some.inj emits]
        exact (h.construct_raw stored hc).2.2.1
      · rw [none] at event
        cases event
      · rw [none] at event
        cases event
  · refine run.emitted_once ?_ (fun j hj => destroyed_next (run.step j hj)) ?_ hi
    · rintro n (released | ⟨t, releasing, -⟩)
      · cases released
      · cases releasing
    · intro j hj n event
      obtain ⟨R, h, stored⟩ := inv j hj.le
      obtain ⟨_, _, _, _, -, -, -, none, -⟩ | ⟨t, _, _, _, -, hc, emits, -, -⟩ | ⟨-, none, -⟩ :=
        storage_next (run.step j hj)
      · rw [none] at event
        cases event
      · rw [event] at emits
        rw [Option.some.inj emits]
        exact (h.destroy_live stored hc).2.2.2.1
      · rw [none] at event
        cases event

omit [DecidableEq Tid] in
/-- What the destructor does when no call is running. -/
theorem Inv.destroy {R : TicketRing (2 ^ k)} (h : Inv R s) (stored : Stored k s)
    (pending : Pending s) (rest : ∀ t, (s.call t).atRest = true) :
    ∃ slots q', (∀ fuel, 2 ^ k ≤ fuel → LockFreeQueue.destroy fuel s.q = some (slots, q')) ∧
      slots.length = s.pushes.length - s.pops.length ∧ slots.length ≤ 2 ^ k ∧ slots.Nodup ∧
      slots = (List.range' s.pops.length slots.length).map (fun n => s.q.slot (BitVec.ofNat 64 n)) ∧
      (∀ i, i < 2 ^ k → ((s.q.queue i).data.isSome = true ↔ i ∈ slots)) ∧
      ∀ i, i < 2 ^ k → (q'.queue i).data = none := by
  have order := R.head_le_tail
  have bound := R.tail_le_head_add (Nat.two_pow_pos k)
  have pushes := h.pushes_length
  have pops := h.pops_length
  have near : R.tail - R.head ≤ 2 ^ k := by omega
  have slot : ∀ n, s.q.slot (BitVec.ofNat 64 n) = n % 2 ^ k := h.ring.slot_ofNat
  -- the slots with an element are those of the tickets from `_head` to `_tail`
  have live : ∀ i, i < 2 ^ k → ((s.q.queue i).data.isSome = true ↔
      i ∈ (List.range' R.head (R.tail - R.head)).map (· % 2 ^ k)) := by
    intro i hi
    rw [stored i hi, List.mem_map]
    refine exists_congr fun n => ?_
    obtain ⟨constructed, destroyed⟩ := h.at_rest pending rest n
    rw [constructed, destroyed, List.mem_range'_1, pushes, pops, and_comm]
    exact and_congr_left fun _ => by omega
  have inside : ∀ m, R.head ≤ m → m < R.tail → (s.q.queue (m % 2 ^ k)).data.isSome = true := by
    intro m later below
    refine (live _ (Nat.mod_lt m (Nat.two_pow_pos k))).mpr (List.mem_map.mpr ⟨m, ?_, rfl⟩)
    exact List.mem_range'_1.mpr ⟨later, by omega⟩
  have last : R.head + (R.tail - R.head) = R.tail := by omega
  obtain ⟨q', loop, after⟩ := destroyLoop_eq h.ring last near inside
  refine ⟨(List.range' R.head (R.tail - R.head)).map (· % 2 ^ k), q', ?_, ?_, ?_, slots_nodup near,
    ?_, live, ?_⟩
  · intro fuel enough
    obtain ⟨more, rfl⟩ : ∃ more, fuel = more + (R.tail - R.head) :=
      ⟨fuel - (R.tail - R.head), by omega⟩
    rw [LockFreeQueue.destroy, h.ring.head]
    exact loop more
  · rw [List.length_map, List.length_range', pushes, pops]
  · rw [List.length_map, List.length_range']
    exact near
  · rw [List.length_map, List.length_range', pops]
    exact List.map_congr_left fun n _ => (slot n).symm
  · intro i hi
    rw [after]
    split_ifs with visited
    · rfl
    · exact Option.not_isSome_iff_eq_none.mp fun found => visited ((live i hi).mp found)

/-- Every run of calls, one after the other or overlapping in time, and the destructor
after it. Placement new never meets an element and pop's destructor call always does.
The destructor's loop makes one iteration for each element held, at most `_capacity`,
in different slots, which are those that hold an element, and leaves none. Each element
constructed was destroyed once, by a pop or in the loop. -/
theorem elements_are_destroyed_once (pos : 1 ≤ capacity.toNat) (small : capacity.toNat ≤ 2 ^ 63)
    (run : (machine Tid T capacity).Run) (calls : run.Meets Alone ∨ run.Meets Timely) :
    (∀ i, i < run.length → ∀ t,
      (∀ data tail, (run.state i).call t = .pushConstruct data tail →
        ((run.state i).q.node tail).data = none) ∧
      ∀ head result, (run.state i).call t = .popDestroy head result →
        ((run.state i).q.node head).data.isSome = true) ∧
    ∀ s, s = run.state run.length → (∀ t, (s.call t).atRest = true) →
      ∃ slots q', (∀ fuel, (new (T := T) capacity).capacity.toNat ≤ fuel →
          destroy fuel s.q = some (slots, q')) ∧
        slots.length = s.pushes.length - s.pops.length ∧
        slots.length ≤ (new (T := T) capacity).capacity.toNat ∧ slots.Nodup ∧
        slots = (List.range' s.pops.length slots.length).map
          (fun n => s.q.slot (BitVec.ofNat 64 n)) ∧
        (∀ i, i < (new (T := T) capacity).capacity.toNat →
          ((s.q.queue i).data.isSome = true ↔ i ∈ slots) ∧ (q'.queue i).data = none) ∧
        (run.emitted construction run.length).Nodup ∧
        (run.emitted construction run.length).Perm
          (run.emitted destruction run.length ++ List.range' s.pops.length slots.length) := by
  have timely : run.Meets Timely := calls.elim meets_timely id
  refine ⟨fun i hi t => run_respects_storage pos small timely hi, ?_⟩
  rintro s rfl rest
  obtain ⟨k, hcap, inv⟩ := run_stored pos small timely
  obtain ⟨R, h, stored⟩ := inv run.length le_rfl
  have pending : Pending (run.state run.length) := run_pending le_rfl
  obtain ⟨⟨once, constructed⟩, once', destroyed⟩ := run_emitted pos small timely le_rfl
  obtain ⟨slots, q', loop, length, few, nodup, tickets, live, raw⟩ := h.destroy stored pending rest
  rw [hcap]
  refine ⟨slots, q', loop, length, few, nodup, tickets, fun i hi => ⟨live i hi, raw i hi⟩, once, ?_⟩
  have order := R.head_le_tail
  have pushes := h.pushes_length
  have pops := h.pops_length
  have apart : (run.emitted destruction run.length ++
      List.range' (run.state run.length).pops.length slots.length).Nodup := by
    refine List.nodup_append.mpr ⟨once', List.nodup_range', ?_⟩
    rintro n popped _ left rfl
    have below := (h.at_rest pending rest n).2.mp ((destroyed n).mp popped)
    have above := List.mem_range'_1.mp left
    omega
  refine (List.perm_ext_iff_of_nodup once apart).mpr fun n => ?_
  rw [List.mem_append, constructed, destroyed, (h.at_rest pending rest n).1,
    (h.at_rest pending rest n).2, List.mem_range'_1, length]
  omega

end Runs

/-- Two pushes, a pop and a third push into the slot that the pop emptied. -/
def pushedTwice : List (Label (Fin 2) ℕ) :=
  [.invoke 0 (.push 5), .step 0 false, .step 0 false, .step 0 false, .step 0 false, .step 0 false,
    .invoke 1 (.push 6), .step 1 false, .step 1 false, .step 1 false, .step 1 false, .step 1 false,
    .invoke 0 .pop, .step 0 false, .step 0 false, .step 0 false, .step 0 false, .step 0 false,
    .step 0 false, .invoke 1 (.push 7), .step 1 false, .step 1 false, .step 1 false, .step 1 false,
    .step 1 false]

def pushedTwiceRun : (machine (Fin 2) ℕ 2).Run :=
  .ofSchedule _ (.step 0 false) pushedTwice (by decide +kernel)

theorem elements_are_destroyed_once_pushed :
    ∃ slots q', destroy 2 (pushedTwiceRun.state 25).q = some (slots, q') ∧ slots.length = 2 ∧
      slots.Nodup := by
  have alone : ∀ i, i < 25 → Alone (pushedTwiceRun.state i) (pushedTwiceRun.label i) := by
    decide +kernel
  have last : 25 = pushedTwiceRun.length := by decide +kernel
  have capacity : (new (T := ℕ) 2).capacity.toNat ≤ 2 := by decide +kernel
  have rest : ∀ t, ((pushedTwiceRun.state 25).call t).atRest = true := by decide +kernel
  have counts : (pushedTwiceRun.state 25).pushes.length - (pushedTwiceRun.state 25).pops.length = 2 := by
    decide +kernel
  obtain ⟨slots, q', loop, length, -, nodup, -⟩ :=
    (elements_are_destroyed_once (by decide) (by decide) pushedTwiceRun
      (Or.inl fun i hi => alone i (last ▸ hi))).2 _ (congrArg pushedTwiceRun.state last) rest
  exact ⟨slots, q', loop 2 capacity, length.trans counts, nodup⟩

end LockFreeQueue
