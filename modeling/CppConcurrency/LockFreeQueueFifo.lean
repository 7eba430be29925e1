import CppConcurrency.LockFreeQueueSlots

/-!
# Calls that do not overlap make a bounded FIFO

The specification is a list with a bound. Fullness and emptiness are decided by the
queue from sequence numbers only; the ring shows that both tests agree with the
number of elements held, also after the 64-bit counters have wrapped.
-/

namespace LockFreeQueue

open Machines TicketRings LockFreeQueueCpp11

universe u v

variable {T : Type u}

/-- What the class is for: a list of at most `cap` values, and the state in which a
call on it returns. -/
def fifo (cap : ℕ) (held : List T) : Op T → List T × Call T
  | .push data =>
    if held.length < cap then (held ++ [data], .pushReturn true) else (held, .pushReturn false)
  | .pop =>
    match held with
    | [] => ([], .popReturn false none)
    | value :: rest => (rest, .popReturn true (some value))

def fifoRun (cap : ℕ) : List T → List (Op T) → List (Call T) × List T
  | held, [] => ([], held)
  | held, op :: rest =>
    let later := fifoRun cap (fifo cap held op).1 rest
    ((fifo cap held op).2 :: later.1, later.2)

/-- Flags under which the compare-exchange of a call fails `n` times and then works. -/
def patience (n : ℕ) : List Bool := List.replicate (2 * n + 1) true ++ List.replicate 5 false

/-- A ring with no call in progress: every ticket drawn is filled, every ticket taken
is released, and the slots of the tickets in between store the elements in order. -/
structure Quiet (k : ℕ) (R : TicketRing (2 ^ k)) (q : LockFreeQueueCpp11 T)
    (held : List T) : Prop where
  ring : OnRing k R q
  length : R.tail = R.head + held.length
  released : ∀ i, i < 2 ^ k → R.head ≤ R.turn i
  filled : ∀ i, i < 2 ^ k → (R.full i ↔ R.turn i < R.tail)
  stored : ∀ j (hj : j < held.length), (q.queue ((R.head + j) % 2 ^ k)).data = some held[j]
  vacant : ∀ i, i < 2 ^ k → ¬ R.full i → (q.queue i).data = none

/-- `q` holds the elements `held`, oldest first. -/
def Holds (k : ℕ) (q : LockFreeQueueCpp11 T) (held : List T) : Prop :=
  ∃ R, Quiet k R q held

/-! ### A quiet ring is an intact list -/

section Quiet

variable {k : ℕ} {R : TicketRing (2 ^ k)} {q : LockFreeQueueCpp11 T} {held : List T}

theorem Quiet.length_le (h : Quiet k R q held) : held.length ≤ 2 ^ k := by
  have := R.tail_le_head_add (Nat.two_pow_pos k)
  have := h.length
  omega

theorem Holds.length_le (h : Holds k q held) : held.length ≤ 2 ^ k := by
  obtain ⟨R, quiet⟩ := h
  exact quiet.length_le

theorem Quiet.slots (h : Quiet k R q held) : Slots k R q (held.map some) := by
  refine ⟨h.ring, ?_, ?_, h.vacant⟩
  · rw [List.length_map]
    exact h.length
  · intro j x found
    rw [List.getElem?_map] at found
    obtain ⟨value, here, rfl⟩ := Option.map_eq_some_iff.mp found
    obtain ⟨inside, rfl⟩ := List.getElem?_eq_some_iff.mp here
    have hi := Nat.mod_lt (R.head + j) (Nat.two_pow_pos k)
    have length := h.length
    have turn := R.turn_waiting (Nat.two_pow_pos k) (k := R.head + j) (by omega) (by omega)
    refine ⟨iff_of_true ((h.filled _ hi).mpr ?_) rfl, h.stored j inside⟩
    rw [turn]
    omega

theorem Quiet.room (h : Quiet k R q held) : Room R (2 ^ k - held.length) false := by
  have := h.length_le
  have := h.length
  exact ⟨R.head, by omega, h.released, rfl⟩

/-- No element is missing and no slot is lost. -/
theorem holds_iff : Holds k q held ↔ Damages k q (.intact (2 ^ k) held) := by
  constructor
  · rintro ⟨R, h⟩
    exact ⟨R, h.slots, h.room⟩
  · rintro ⟨R, slots, n, last, least, blocked⟩
    obtain rfl : n = R.head := blocked
    have length : R.tail = R.head + held.length := by
      rw [slots.length, Damaged.intact, List.length_map]
    have item : ∀ j (hj : j < held.length), R.full ((R.head + j) % 2 ^ k) ∧
        (q.queue ((R.head + j) % 2 ^ k)).data = some held[j] := by
      intro j hj
      have found : (held.map some)[j]? = some (some held[j]) := by simp [hj]
      obtain ⟨full, data⟩ := slots.item j _ found
      exact ⟨full.mpr rfl, data⟩
    refine ⟨R, slots.ring, length, least, fun i hi => ⟨R.full_drawn i hi, fun drawn => ?_⟩,
      fun j hj => (item j hj).2, slots.vacant⟩
    have low := least i hi
    have full := (item (R.turn i - R.head) (by omega)).1
    rw [show R.head + (R.turn i - R.head) = R.turn i by omega, R.turn_slot i hi] at full
    exact full

theorem Holds.push_test (h : Holds k q held) :
    (q.node q.tail).tail = q.tail ↔ held.length < 2 ^ k := by
  rw [(holds_iff.mp h).push_test]
  exact Nat.sub_pos_iff_lt

theorem Holds.pop_test (h : Holds k q held) : (q.node q.head).head = q.head ↔ held ≠ [] := by
  rw [(holds_iff.mp h).pop_test]
  cases held with
  | nil => simp [Damaged.intact]
  | cons value rest => simp [Damaged.intact]

theorem Holds.push (h : Holds k q held) (room : held.length < 2 ^ k) (data : T) :
    Holds k (pushed q data) (held ++ [data]) := by
  obtain ⟨-, after⟩ := (holds_iff.mp h).push (Nat.sub_pos_of_lt room) data
  apply holds_iff.mpr
  rw [Damaged.intact, List.map_append, List.length_append]
  exact after

theorem Holds.pop {value : T} {rest : List T} (h : Holds k q (value :: rest)) :
    (q.node q.head).data = some value ∧ Holds k (popped q) rest := by
  obtain ⟨oldest, -, after⟩ := (holds_iff.mp h).pop rfl
  refine ⟨oldest, holds_iff.mpr ?_⟩
  have room : 2 ^ k - (value :: rest).length + 1 = 2 ^ k - rest.length := by
    have := h.length_le
    rw [List.length_cons] at this ⊢
    omega
  rw [Damaged.intact, ← room]
  exact after

end Quiet

/-! ### A call that runs alone -/

section Drive

variable {q q' : LockFreeQueueCpp11 T} {call : Call T}

theorem drive_atRest (h : call.atRest = true) (flags : List Bool) :
    drive q call flags = some (q, call) := by
  cases flags <;> simp [drive, h]

theorem drive_push_full {data : T} (full : (q.node q.tail).tail ≠ q.tail) (flags : List Bool)
    (h : drive q (.pushTest data q.tail) flags = some (q', call)) :
    q' = q ∧ call = .pushReturn false := by
  cases flags with
  | nil => simp [drive, Call.atRest] at h
  | cons spurious rest =>
    simp only [drive, Call.atRest, advance, if_pos full] at h
    rw [if_neg Bool.false_ne_true, drive_atRest rfl] at h
    simpa [eq_comm] using h

/-- The loop of `push` on a ready slot: induction on the flags, from the test and
from the compare-exchange at once. -/
theorem drive_push_ready {data : T} (ready : (q.node q.tail).tail = q.tail)
    (flags : List Bool) :
    (drive q (.pushTest data q.tail) flags = some (q', call) →
      q' = pushed q data ∧ call = .pushReturn true) ∧
    (drive q (.pushClaim data q.tail) flags = some (q', call) →
      q' = pushed q data ∧ call = .pushReturn true) := by
  induction flags with
  | nil => constructor <;> intro h <;> simp [drive, Call.atRest] at h
  | cons spurious rest ih =>
    constructor
    · intro h
      apply ih.2
      simpa [drive, Call.atRest, advance, ready] using h
    · intro h
      cases spurious with
      | true =>
        apply ih.1
        simpa [drive, Call.atRest, advance] using h
      | false =>
        simp only [drive, Call.atRest, advance, and_self, if_true, if_neg Bool.false_ne_true] at h
        rcases rest with _ | ⟨f, _ | ⟨g, rest⟩⟩
        · simp [drive, Call.atRest] at h
        · simp [drive, Call.atRest, advance] at h
        · simp only [drive, Call.atRest, advance] at h
          rw [drive_atRest rfl] at h
          simpa [pushed, eq_comm] using h

theorem drive_pop_empty (empty : (q.node q.head).head ≠ q.head) (flags : List Bool)
    (h : drive q (.popTest q.head) flags = some (q', call)) :
    q' = q ∧ call = .popReturn false none := by
  cases flags with
  | nil => simp [drive, Call.atRest] at h
  | cons spurious rest =>
    simp only [drive, Call.atRest, advance, if_pos empty] at h
    rw [if_neg Bool.false_ne_true, drive_atRest rfl] at h
    simpa [eq_comm] using h

theorem drive_pop_ready (ready : (q.node q.head).head = q.head) (flags : List Bool) :
    (drive q (.popTest q.head) flags = some (q', call) →
      q' = popped q ∧ call = .popReturn true (q.node q.head).data) ∧
    (drive q (.popClaim q.head) flags = some (q', call) →
      q' = popped q ∧ call = .popReturn true (q.node q.head).data) := by
  induction flags with
  | nil => constructor <;> intro h <;> simp [drive, Call.atRest] at h
  | cons spurious rest ih =>
    constructor
    · intro h
      apply ih.2
      simpa [drive, Call.atRest, advance, ready] using h
    · intro h
      cases spurious with
      | true =>
        apply ih.1
        simpa [drive, Call.atRest, advance] using h
      | false =>
        simp only [drive, Call.atRest, advance, and_self, if_true, if_neg Bool.false_ne_true] at h
        rcases rest with _ | ⟨f, _ | ⟨g, _ | ⟨e, rest⟩⟩⟩
        · simp [drive, Call.atRest] at h
        · simp [drive, Call.atRest, advance] at h
        · simp [drive, Call.atRest, advance] at h
        · simp only [drive, Call.atRest, advance] at h
          rw [drive_atRest rfl] at h
          simpa [popped, LockFreeQueueCpp11.node, LockFreeQueueCpp11.slot, eq_comm] using h

/-- A call never hangs: once the compare-exchange stops failing, it returns. -/
theorem drive_patience (q : LockFreeQueueCpp11 T) (op : Op T) (n : ℕ) :
    (drive q op.invoke (patience n)).isSome = true := by
  rw [patience, List.replicate_succ, List.cons_append]
  cases op with
  | push data =>
    simp only [drive, Op.invoke, Call.atRest, advance]
    induction n with
    | zero =>
      by_cases ready : (q.node q.tail).tail = q.tail
      · simp [List.replicate, drive, Call.atRest, advance, ready]
      · simp [List.replicate, drive, Call.atRest, advance, ready]
    | succ n ih =>
      by_cases ready : (q.node q.tail).tail = q.tail
      · simpa [Nat.mul_succ, List.replicate_succ, drive, Call.atRest, advance, ready] using ih
      · simp [Nat.mul_succ, List.replicate_succ, drive, Call.atRest, advance, ready]
  | pop =>
    simp only [drive, Op.invoke, Call.atRest, advance]
    induction n with
    | zero =>
      by_cases ready : (q.node q.head).head = q.head
      · simp [List.replicate, drive, Call.atRest, advance, ready]
      · simp [List.replicate, drive, Call.atRest, advance, ready]
    | succ n ih =>
      by_cases ready : (q.node q.head).head = q.head
      · simpa [Nat.mul_succ, List.replicate_succ, drive, Call.atRest, advance, ready] using ih
      · simp [Nat.mul_succ, List.replicate_succ, drive, Call.atRest, advance, ready]

end Drive

/-! ### Alone among other threads -/

section Alone

variable {Tid : Type v} [DecidableEq Tid] {capacity : SizeT}

/-- One step of a call that stands at `c`. -/
theorem next_running {s : State Tid T} {t : Tid} {c : Call T} (hc : s.call t = c)
    (running : c.atRest = false) (spurious : Bool) :
    next s (.step t spurious) =
      some { (record s t (advance s.q spurious c).2).setCall t (advance s.q spurious c).2 with
        q := (advance s.q spurious c).1 } := by
  simp only [next, hc, running, Bool.false_eq_true, if_false]

variable (capacity)

/-- The first of several steps of one thread. -/
theorem exec_running {s : State Tid T} {t : Tid} {c : Call T} (hc : s.call t = c)
    (running : c.atRest = false) {n : ℕ} :
    (machine Tid T capacity).exec s (List.replicate (n + 1) (.step t false)) =
      (machine Tid T capacity).exec
        { (record s t (advance s.q false c).2).setCall t (advance s.q false c).2 with
          q := (advance s.q false c).1 } (List.replicate n (.step t false)) :=
  Machine.exec_step _ (next_running hc running false) _

/-- From a compare-exchange that finds the counter it expects to the return. -/
theorem exec_push_claim (s : State Tid T) {t : Tid} {data : T} {tail : SizeT}
    (hc : s.call t = .pushClaim data tail) (now : s.q.tail = tail) :
    (machine Tid T capacity).exec s (List.replicate 3 (.step t false)) =
      some { s with
        q := ({ s.q with tail := tail + 1 }.storeData tail (some data)).storeHead tail tail
        call := Function.update s.call t (.pushReturn true)
        seen := Function.update s.seen t s.pushes.length
        pushes := s.pushes ++ [(tail, t, data)]
        filled := s.filled ++ [s.pushes.length] } := by
  rw [exec_running _ hc rfl]
  simp only [advance, record, hc, now, State.setCall, State.see, and_self, if_true]
  rw [exec_running _ (Function.update_self ..) rfl]
  simp only [advance, record, State.setCall, Function.update_self, Function.update_idem]
  rw [exec_running _ (Function.update_self ..) rfl]
  simp only [advance, record, State.setCall, Function.update_self, Function.update_idem]
  rfl

/-- What a push does to the whole state when no other thread moves. -/
theorem exec_push_alone (s : State Tid T) {t : Tid} {data : T}
    (rest : (s.call t).atRest = true) (ready : (s.q.node s.q.tail).tail = s.q.tail) :
    (machine Tid T capacity).exec s (.invoke t (.push data) :: List.replicate 5 (.step t false)) =
      some { s with
        q := pushed s.q data
        call := Function.update s.call t (.pushReturn true)
        seen := Function.update s.seen t s.pushes.length
        pushes := s.pushes ++ [(s.q.tail, t, data)]
        filled := s.filled ++ [s.pushes.length] } := by
  have invoked : next s (.invoke t (.push data)) = some (s.setCall t (.pushLoad data)) :=
    if_pos rest
  rw [Machine.exec_step _ invoked]
  rw [exec_running _ (Function.update_self ..) rfl]
  simp only [advance, record, State.setCall, State.see, Function.update_self, Function.update_idem]
  rw [exec_running _ (Function.update_self ..) rfl]
  simp only [advance, record, State.setCall, Function.update_self, Function.update_idem,
    if_neg (not_not.mpr ready)]
  rw [exec_push_claim _ _ (Function.update_self ..) rfl]
  simp only [Function.update_idem, pushed]

theorem exec_pop_alone (s : State Tid T) {t : Tid} (rest : (s.call t).atRest = true)
    (ready : (s.q.node s.q.head).head = s.q.head) :
    (machine Tid T capacity).exec s (.invoke t .pop :: List.replicate 6 (.step t false)) =
      some { s with
        q := popped s.q
        call := Function.update s.call t (.popReturn true (s.q.node s.q.head).data)
        seen := Function.update s.seen t s.pops.length
        pops := s.pops ++ [(s.q.head, t)]
        copied := s.copied ++ [(s.pops.length, t, (s.q.node s.q.head).data)]
        released := s.released ++ [s.pops.length] } := by
  have invoked : next s (.invoke t .pop) = some (s.setCall t .popLoad) := if_pos rest
  rw [Machine.exec_step _ invoked]
  rw [exec_running _ (Function.update_self ..) rfl]
  simp only [advance, record, State.setCall, State.see, Function.update_self, Function.update_idem]
  rw [exec_running _ (Function.update_self ..) rfl]
  simp only [advance, record, State.setCall, Function.update_self, Function.update_idem,
    if_neg (not_not.mpr ready)]
  rw [exec_running _ (Function.update_self ..) rfl]
  simp only [advance, record, State.setCall, State.see, Function.update_self,
    Function.update_idem, and_self, if_true]
  rw [exec_running _ (Function.update_self ..) rfl]
  simp only [advance, record, State.setCall, Function.update_self, Function.update_idem]
  rw [exec_running _ (Function.update_self ..) rfl]
  simp only [advance, record, State.setCall, Function.update_self, Function.update_idem]
  rw [exec_running _ (Function.update_self ..) rfl]
  simp only [advance, record, State.setCall, Function.update_self, Function.update_idem]
  rfl

end Alone

/-- One call on a queue holding `held` does what the list does, and a refused call
leaves every word of the queue as it was. -/
theorem drive_fifo {k : ℕ} {q q' : LockFreeQueueCpp11 T} {held : List T} (h : Holds k q held)
    (op : Op T) (flags : List Bool) {call : Call T}
    (hd : drive q op.invoke flags = some (q', call)) :
    call = (fifo (2 ^ k) held op).2 ∧ Holds k q' (fifo (2 ^ k) held op).1 ∧
      (call.refused = true → q' = q) := by
  cases flags with
  | nil => cases op <;> simp [drive, Op.invoke, Call.atRest] at hd
  | cons spurious flags =>
    cases op with
    | push data =>
      have hd : drive q (.pushTest data q.tail) flags = some (q', call) := by
        simpa [drive, Op.invoke, Call.atRest, advance] using hd
      by_cases room : held.length < 2 ^ k
      · obtain ⟨rfl, rfl⟩ := (drive_push_ready (h.push_test.mpr room) flags).1 hd
        simp only [fifo, if_pos room, true_and]
        exact ⟨h.push room data, by simp [Call.refused]⟩
      · obtain ⟨rfl, rfl⟩ := drive_push_full (fun t => room (h.push_test.mp t)) flags hd
        simp only [fifo, if_neg room, true_and]
        exact ⟨h, fun _ => trivial⟩
    | pop =>
      have hd : drive q (.popTest q.head) flags = some (q', call) := by
        simpa [drive, Op.invoke, Call.atRest, advance] using hd
      cases held with
      | nil =>
        obtain ⟨rfl, rfl⟩ := drive_pop_empty (fun t => h.pop_test.mp t rfl) flags hd
        exact ⟨rfl, h, fun _ => rfl⟩
      | cons value rest =>
        obtain ⟨rfl, rfl⟩ :=
          (drive_pop_ready (h.pop_test.mpr (List.cons_ne_nil _ _)) flags).1 hd
        obtain ⟨oldest, after⟩ := h.pop
        exact ⟨by rw [oldest]; rfl, after, by simp [Call.refused]⟩

theorem runCalls_fifo {k : ℕ} (ops : List (Op T × List Bool)) {q q' : LockFreeQueueCpp11 T}
    {held : List T} {returned : List (Call T)} (h : Holds k q held)
    (hr : runCalls q ops = some (returned, q')) :
    returned = (fifoRun (2 ^ k) held (ops.map Prod.fst)).1 ∧
      Holds k q' (fifoRun (2 ^ k) held (ops.map Prod.fst)).2 := by
  induction ops generalizing q held returned with
  | nil =>
    obtain ⟨rfl, rfl⟩ := by simpa [runCalls] using hr
    exact ⟨rfl, h⟩
  | cons first rest ih =>
    obtain ⟨op, flags⟩ := first
    simp only [runCalls, Option.bind_eq_some_iff, Option.map_eq_some_iff, Prod.exists,
      Prod.mk.injEq] at hr
    obtain ⟨q₁, call, hd, later, q₂, hrest, rfl, rfl⟩ := hr
    obtain ⟨rfl, after, -⟩ := drive_fifo h op flags hd
    obtain ⟨rfl, final⟩ := ih after hrest
    exact ⟨rfl, final⟩

theorem new_holds (T : Type u) (capacity : SizeT) (pos : 1 ≤ capacity.toNat)
    (small : capacity.toNat ≤ 2 ^ 63) :
    ∃ k, (new (T := T) capacity).capacity.toNat = 2 ^ k ∧ Holds k (new (T := T) capacity) [] := by
  obtain ⟨k, -, ring⟩ := new_onRing T capacity pos small
  refine ⟨k, ?_, _, ring, rfl, fun i _ => Nat.zero_le _, fun i _ => ?_, ?_, fun i _ _ => rfl⟩
  · have := capacity_lt_wrap ring.small
    have := Nat.two_pow_pos k
    rw [ring.capacity, BitVec.toNat_ofNat, Nat.mod_eq_of_lt (by omega)]
  · exact iff_of_false (fun h => h) (Nat.not_lt_zero _)
  · intro j hj
    exact absurd hj (Nat.not_lt_zero _)

theorem Holds.size {k : ℕ} {q : LockFreeQueueCpp11 T} {held : List T} (h : Holds k q held) :
    q.size.toNat = held.length := by
  obtain ⟨R, quiet⟩ := h
  have := capacity_lt_wrap quiet.ring.small
  have := quiet.length_le
  rw [LockFreeQueueCpp11.size, quiet.ring.tail, quiet.ring.head, quiet.length, BitVec.ofNat_add,
    BitVec.add_comm, BitVec.add_sub_cancel, BitVec.toNat_ofNat, Nat.mod_eq_of_lt (by omega)]

/-- For every constructor argument from 1 to `2 ^ 63` and every sequence of calls that
do not overlap, the calls return what a list bounded by `_capacity` returns, `size()`
is the number of elements held, and at each point a further call agrees with the list,
changes nothing when refused, and returns once its compare-exchange stops failing. -/
theorem calls_are_fifo (capacity : SizeT) (pos : 1 ≤ capacity.toNat)
    (small : capacity.toNat ≤ 2 ^ 63) (ops : List (Op T × List Bool))
    (returned : List (Call T)) (q : LockFreeQueueCpp11 T)
    (run : runCalls (new capacity) ops = some (returned, q)) :
    let cap := (new (T := T) capacity).capacity.toNat
    let held := (fifoRun cap [] (ops.map Prod.fst)).2
    returned = (fifoRun cap [] (ops.map Prod.fst)).1 ∧
      q.size.toNat = held.length ∧
      (∀ (op : Op T) flags q' call, drive q op.invoke flags = some (q', call) →
        call = (fifo cap held op).2 ∧ (call.refused = true → q' = q)) ∧
      ∀ (op : Op T) n, (drive q op.invoke (patience n)).isSome = true := by
  obtain ⟨k, hcap, start⟩ := new_holds T capacity pos small
  obtain ⟨rfl, final⟩ := runCalls_fifo ops start run
  simp only [hcap]
  refine ⟨trivial, final.size, ?_, drive_patience q⟩
  intro op flags q' call hd
  obtain ⟨same, -, kept⟩ := drive_fifo final op flags hd
  exact ⟨same, kept⟩

/-- Two elements fill a queue asked for two, a third push is refused, and the oldest
element comes out first although two compare-exchanges fail once. -/
theorem calls_are_fifo_two :
    ∃ q : LockFreeQueueCpp11 ℕ,
      runCalls (new 2) [(.push 5, patience 0), (.push 6, patience 1), (.push 7, patience 0),
        (.pop, patience 1)] =
          some ([.pushReturn true, .pushReturn true, .pushReturn false,
            .popReturn true (some 5)], q) ∧
      q.size.toNat = 1 := by
  obtain ⟨⟨returned, q⟩, run⟩ := Option.isSome_iff_exists.mp (show (runCalls (new 2)
    [(.push 5, patience 0), (.push 6, patience 1), (.push 7, patience 0),
      (.pop, patience 1)]).isSome = true by decide)
  obtain ⟨same, size, -⟩ := calls_are_fifo 2 (by decide) (by decide) _ returned q run
  exact ⟨q, by rw [run, same]; rfl, size⟩

end LockFreeQueue
