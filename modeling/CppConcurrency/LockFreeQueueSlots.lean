import CppConcurrency.LockFreeQueueRing

/-!
# The slots between `_head` and `_tail`

Between calls the slots of the tickets between the two counters hold the elements in order.
Where the element type threw out of a push the slot is a hole, which no pop passes, and
where it threw out of a pop the slot is never handed on to the next lap. So a queue is a
list with holes among its elements and some room left, and each half of a push or of a pop
does one thing to this list. Without exceptions it has no holes, and its elements and its
room make up the capacity.
-/

namespace LockFreeQueue

open Machines WordCounters TicketRings LockFreeQueueCpp11

universe u

variable {T : Type u} {k : ℕ}

/-- The queue a successful push leaves. -/
def pushed (q : LockFreeQueueCpp11 T) (data : T) : LockFreeQueueCpp11 T :=
  ({ q with tail := q.tail + 1 }.storeData q.tail (some data)).storeHead q.tail q.tail

/-- The queue a successful pop leaves. -/
def popped (q : LockFreeQueueCpp11 T) : LockFreeQueueCpp11 T :=
  ({ q with head := q.head + 1 }.storeData q.head none).storeTail q.head (q.head + q.capacity)

/-- What the queue has become for those who call it: the elements, with `none` where a push
threw, how many pushes are still accepted, and whether a pop threw, after which pops make
no room any more. -/
structure Damaged (T : Type u) where
  items : List (Option T)
  room : ℕ
  stuck : Bool

/-- A queue of the given capacity in which nothing was thrown yet. -/
def Damaged.intact (cap : ℕ) (held : List T) : Damaged T := ⟨held.map some, cap - held.length, false⟩

/-- The tickets from `_head` to `_tail` have their elements in their slots, and the holes
raw storage. -/
structure Slots (k : ℕ) (R : TicketRing (2 ^ k)) (q : LockFreeQueueCpp11 T)
    (items : List (Option T)) : Prop where
  ring : OnRing k R q
  length : R.tail = R.head + items.length
  item : ∀ (j : ℕ) x, items[j]? = some x →
    (R.full ((R.head + j) % 2 ^ k) ↔ x.isSome = true) ∧
      (q.queue ((R.head + j) % 2 ^ k)).data = x
  vacant : ∀ i, i < 2 ^ k → ¬ R.full i → (q.queue i).data = none

/-- Ticket `n` is the first whose slot has not been handed on, and pushes go on until they
come round to it. It is the next pop ticket, or the ticket of a pop that threw. -/
def Room (R : TicketRing (2 ^ k)) (room : ℕ) (stuck : Bool) : Prop :=
  ∃ n, R.tail + room = n + 2 ^ k ∧ (∀ i, i < 2 ^ k → n ≤ R.turn i) ∧
    if stuck then n < R.head ∧ R.turn (n % 2 ^ k) = n else n = R.head

/-- The queue behaves like `d`. -/
def Damages (k : ℕ) (q : LockFreeQueueCpp11 T) (d : Damaged T) : Prop :=
  ∃ R, Slots k R q d.items ∧ Room R d.room d.stuck

section Slots

variable {R : TicketRing (2 ^ k)} {q : LockFreeQueueCpp11 T} {items : List (Option T)} {n : ℕ}

/-- A slot between the counters is not the slot of another ticket that has its turn. -/
theorem Slots.slot_ne (h : Slots k R q items) {j : ℕ} (hj : j < items.length)
    (turn : R.turn (n % 2 ^ k) = n) (other : n ≠ R.head + j) :
    (R.head + j) % 2 ^ k ≠ n % 2 ^ k := by
  have length := h.length
  have waiting := R.turn_waiting (Nat.two_pow_pos k) (k := R.head + j) (by omega) (by omega)
  intro same
  rw [same, turn] at waiting
  exact other waiting

/-- The claim of a push, and all that is left of a push that throws. -/
theorem Slots.draw (h : Slots k R q items) (ready : R.turn (R.tail % 2 ^ k) = R.tail) :
    Slots k (R.draw (Nat.two_pow_pos k) ready) { q with tail := q.tail + 1 } (items ++ [none]) := by
  have length := h.length
  refine ⟨h.ring.draw ready, ?_, ?_, h.vacant⟩
  · rw [List.length_append, List.length_singleton]
    change R.tail + 1 = R.head + (items.length + 1)
    omega
  · intro j x found
    rcases concat_cases found with ⟨old, -⟩ | ⟨rfl, rfl⟩
    · exact h.item j x old
    · have hi := Nat.mod_lt R.tail (Nat.two_pow_pos k)
      have empty : ¬ R.full (R.tail % 2 ^ k) := by
        intro full
        have drawn := R.full_drawn _ hi full
        omega
      change (R.full ((R.head + items.length) % 2 ^ k) ↔ _) ∧
        (q.queue ((R.head + items.length) % 2 ^ k)).data = none
      rw [← length]
      exact ⟨iff_of_false empty Bool.false_ne_true, h.vacant _ hi empty⟩

/-- A push that does not throw fills the hole of its claim. -/
theorem Slots.fill (h : Slots k R q (items ++ [none])) (data : T) (last : n = R.head + items.length)
    (drawn : n < R.tail) (turn : R.turn (n % 2 ^ k) = n) :
    Slots k (R.fill n drawn turn)
      ((q.storeData (BitVec.ofNat 64 n) (some data)).storeHead (BitVec.ofNat 64 n)
        (BitVec.ofNat 64 n)) (items ++ [some data]) := by
  have stored : ∀ i, (((q.storeData (BitVec.ofNat 64 n) (some data)).storeHead (BitVec.ofNat 64 n)
      (BitVec.ofNat 64 n)).queue i).data =
      if i = n % 2 ^ k then some data else (q.queue i).data := by
    intro i
    rw [storeHead_data, storeData_data, h.ring.slot_ofNat]
  refine ⟨(h.ring.storeData _ _).publish drawn turn, ?_, ?_, ?_⟩
  · have length := h.length
    rw [List.length_append, List.length_singleton] at length ⊢
    exact length
  · intro j x found
    change (((R.head + j) % 2 ^ k = n % 2 ^ k ∨ R.full ((R.head + j) % 2 ^ k)) ↔ _) ∧
      (LockFreeQueueCpp11.queue _ ((R.head + j) % 2 ^ k)).data = x
    rw [stored]
    rcases concat_cases found with ⟨old, inside⟩ | ⟨rfl, rfl⟩
    · have known := h.item j x (by rw [List.getElem?_append_left inside]; exact old)
      have inside' : j < (items ++ [none]).length := by
        rw [List.length_append]
        omega
      have other := h.slot_ne inside' turn (by omega)
      rw [if_neg other, or_iff_right other]
      exact known
    · rw [← last, if_pos rfl]
      exact ⟨iff_of_true (Or.inl rfl) rfl, rfl⟩
  · intro i hi empty
    rw [stored, if_neg fun here => empty (Or.inl here)]
    exact h.vacant i hi fun full => empty (Or.inr full)

/-- A pop can claim exactly if the list begins with an element. -/
theorem Slots.front_iff (h : Slots k R q items) :
    (R.turn (R.head % 2 ^ k) = R.head ∧ R.full (R.head % 2 ^ k)) ↔
      ∃ value rest, items = some value :: rest := by
  have hi := Nat.mod_lt R.head (Nat.two_pow_pos k)
  have length := h.length
  cases items with
  | nil =>
    simp only [reduceCtorEq, exists_false, iff_false, not_and]
    intro turn full
    have drawn := R.full_drawn _ hi full
    rw [List.length_nil] at length
    omega
  | cons x rest =>
    rw [List.length_cons] at length
    have turn := R.turn_waiting (Nat.two_pow_pos k) le_rfl (by omega)
    have known := (h.item 0 x rfl).1
    rw [Nat.add_zero] at known
    rw [and_iff_right turn, known]
    cases x with
    | none => simp
    | some value => simp

/-- The claim of a pop, and all that is left of a pop that throws. -/
theorem Slots.take {value : T} (h : Slots k R q (some value :: items))
    (turn : R.turn (R.head % 2 ^ k) = R.head) (full : R.full (R.head % 2 ^ k)) :
    Slots k (R.take (Nat.two_pow_pos k) turn full) { q with head := q.head + 1 } items := by
  refine ⟨h.ring.take turn full, ?_, ?_, h.vacant⟩
  · have length := h.length
    rw [List.length_cons] at length
    change R.tail = R.head + 1 + items.length
    omega
  · intro j x found
    have known := h.item (j + 1) x found
    rw [show R.head + (j + 1) = R.head + 1 + j by omega] at known
    exact known

/-- A pop that does not throw destroys its element and hands its slot on. -/
theorem Slots.vacate (h : Slots k R q items) (taken : n < R.head)
    (turn : R.turn (n % 2 ^ k) = n) :
    Slots k (R.release (Nat.two_pow_pos k) n taken turn)
      ((q.storeData (BitVec.ofNat 64 n) none).storeTail (BitVec.ofNat 64 n)
        (BitVec.ofNat 64 n + q.capacity)) items := by
  have stored : ∀ i, (((q.storeData (BitVec.ofNat 64 n) none).storeTail (BitVec.ofNat 64 n)
      (BitVec.ofNat 64 n + q.capacity)).queue i).data =
      if i = n % 2 ^ k then none else (q.queue i).data := by
    intro i
    rw [storeTail_data, storeData_data, h.ring.slot_ofNat]
  refine ⟨(h.ring.storeData _ none).vacate taken turn, h.length, ?_, ?_⟩
  · intro j x found
    have other := h.slot_ne (List.getElem?_eq_some_iff.mp found).1 turn (by omega)
    change (((R.head + j) % 2 ^ k ≠ n % 2 ^ k ∧ R.full ((R.head + j) % 2 ^ k)) ↔ _) ∧
      (LockFreeQueueCpp11.queue _ ((R.head + j) % 2 ^ k)).data = x
    rw [stored, if_neg other, and_iff_right other]
    exact h.item j x found
  · intro i hi empty
    rw [stored]
    by_cases here : i = n % 2 ^ k
    · rw [if_pos here]
    · rw [if_neg here]
      exact h.vacant i hi fun full => empty ⟨here, full⟩

end Slots

/-! ### The room that is left -/

section Room

variable {R : TicketRing (2 ^ k)} {room : ℕ} {stuck : Bool}

/-- A push can claim exactly if there is room. -/
theorem Room.ready_iff (h : Room R room stuck) :
    R.turn (R.tail % 2 ^ k) = R.tail ↔ 0 < room := by
  obtain ⟨n, last, least, blocked⟩ := h
  have hi := Nat.mod_lt R.tail (Nat.two_pow_pos k)
  constructor
  · intro ready
    by_contra none
    have lap : R.tail = n + 2 ^ k := by omega
    have turn : R.turn (R.tail % 2 ^ k) < R.head + 2 ^ k := R.turn_lt _ hi
    cases stuck with
    | false =>
      obtain rfl : n = R.head := blocked
      omega
    | true =>
      obtain ⟨-, held⟩ : n < R.head ∧ R.turn (n % 2 ^ k) = n := blocked
      have slot : R.tail % 2 ^ k = n % 2 ^ k := by rw [lap, Nat.add_mod_right]
      rw [slot, held] at ready
      have := Nat.two_pow_pos k
      omega
  · intro some
    have low := least _ hi
    rcases R.turn_tail (Nat.two_pow_pos k) with ready | behind
    · exact ready
    · omega

theorem Room.draw (h : Room R room stuck) (ready : R.turn (R.tail % 2 ^ k) = R.tail) :
    Room (R.draw (Nat.two_pow_pos k) ready) (room - 1) stuck := by
  have some := h.ready_iff.mp ready
  obtain ⟨n, last, least, blocked⟩ := h
  refine ⟨n, ?_, least, blocked⟩
  change R.tail + 1 + (room - 1) = n + 2 ^ k
  omega

/-- A pop that throws blocks its slot, unless an earlier one is blocked. -/
theorem Room.take (h : Room R room stuck) (turn : R.turn (R.head % 2 ^ k) = R.head)
    (full : R.full (R.head % 2 ^ k)) :
    Room (R.take (Nat.two_pow_pos k) turn full) room true := by
  obtain ⟨n, last, least, blocked⟩ := h
  refine ⟨n, last, least, ?_⟩
  change n < R.head + 1 ∧ R.turn (n % 2 ^ k) = n
  cases stuck with
  | false =>
    obtain rfl : n = R.head := blocked
    exact ⟨Nat.lt_succ_self _, turn⟩
  | true =>
    obtain ⟨before, held⟩ : n < R.head ∧ R.turn (n % 2 ^ k) = n := blocked
    exact ⟨by omega, held⟩

/-- A pop that returns makes room for one push, unless an earlier slot is blocked. -/
theorem Room.pop (h : Room R room stuck) (turn : R.turn (R.head % 2 ^ k) = R.head)
    (full : R.full (R.head % 2 ^ k))
    (taken : R.head < (R.take (Nat.two_pow_pos k) turn full).head)
    (turn' : (R.take (Nat.two_pow_pos k) turn full).turn (R.head % 2 ^ k) = R.head) :
    Room ((R.take (Nat.two_pow_pos k) turn full).release (Nat.two_pow_pos k) R.head taken turn')
      (if stuck then room else room + 1) stuck := by
  obtain ⟨n, last, least, blocked⟩ := h
  have hcap := Nat.two_pow_pos k
  cases stuck with
  | false =>
    obtain rfl : n = R.head := blocked
    refine ⟨R.head + 1, ?_, ?_, rfl⟩
    · change R.tail + (room + 1) = R.head + 1 + 2 ^ k
      omega
    · intro i hi
      rw [TicketRing.release_turn, TicketRing.take_turn]
      have low := least i hi
      split
      · omega
      · rename_i other
        have slot := R.turn_slot i hi
        have later : R.turn i ≠ R.head := fun e => other (by rw [← slot, e])
        omega
  | true =>
    obtain ⟨before, held⟩ : n < R.head ∧ R.turn (n % 2 ^ k) = n := blocked
    refine ⟨n, last, ?_, Nat.lt_succ_of_lt before, ?_⟩
    · intro i hi
      rw [TicketRing.release_turn, TicketRing.take_turn]
      have low := least i hi
      split
      · omega
      · exact low
    · rw [TicketRing.release_turn, TicketRing.take_turn, if_neg]
      · exact held
      · intro same
        rw [same, turn] at held
        omega

end Room

/-! ### Whole calls -/

section Calls

variable {q : LockFreeQueueCpp11 T} {d : Damaged T}

theorem Damages.push_test (h : Damages k q d) : (q.node q.tail).tail = q.tail ↔ 0 < d.room := by
  obtain ⟨R, slots, room⟩ := h
  rw [slots.ring.tail, slots.ring.tail_test, room.ready_iff]

theorem Damages.pop_test (h : Damages k q d) :
    (q.node q.head).head = q.head ↔ ∃ value rest, d.items = some value :: rest := by
  obtain ⟨R, slots, -⟩ := h
  rw [slots.ring.head, slots.ring.head_test, slots.front_iff]

/-- A push that throws leaves a hole, and one that returns an element. -/
theorem Damages.push (h : Damages k q d) (some_room : 0 < d.room) (data : T) :
    Damages k { q with tail := q.tail + 1 }
      { d with items := d.items ++ [none], room := d.room - 1 } ∧
    Damages k (pushed q data)
      { d with items := d.items ++ [some data], room := d.room - 1 } := by
  obtain ⟨R, slots, room⟩ := h
  have ready := room.ready_iff.mpr some_room
  have hole := slots.draw ready
  have less := room.draw ready
  constructor
  · exact ⟨_, hole, less⟩
  · have drawn : R.tail < (R.draw (Nat.two_pow_pos k) ready).tail := Nat.lt_succ_self _
    have full := hole.fill data slots.length drawn ready
    refine ⟨(R.draw (Nat.two_pow_pos k) ready).fill R.tail drawn ready, ?_, less⟩
    rw [pushed, slots.ring.tail]
    rw [slots.ring.tail] at full
    exact full

/-- A pop that throws loses the first element and blocks its slot, and one that returns
hands the slot on. -/
theorem Damages.pop (h : Damages k q d) {value : T} {rest : List (Option T)}
    (front : d.items = some value :: rest) :
    (q.node q.head).data = some value ∧
    Damages k { q with head := q.head + 1 } { d with items := rest, stuck := true } ∧
    Damages k (popped q)
      { d with items := rest, room := if d.stuck then d.room else d.room + 1 } := by
  obtain ⟨R, slots, room⟩ := h
  rw [front] at slots
  obtain ⟨turn, full⟩ := slots.front_iff.mpr ⟨value, rest, rfl⟩
  have taken : R.head < (R.take (Nat.two_pow_pos k) turn full).head := Nat.lt_succ_self _
  have claimed := slots.take turn full
  have vacated := claimed.vacate taken turn
  refine ⟨?_, ⟨_, claimed, room.take turn full⟩, ⟨_, ?_, room.pop turn full taken turn⟩⟩
  · rw [slots.ring.head, slots.ring.node_ofNat]
    exact (slots.item 0 _ rfl).2
  · rw [popped, slots.ring.head]
    rw [slots.ring.head] at vacated
    exact vacated

end Calls

end LockFreeQueue
