import CppConcurrency.LockFreeQueueCapacity
import CppConcurrency.TicketRing

/-!
# The ring behind the words of `LockFreeQueueCpp11`

The counters and the sequence numbers of the queue are the tickets of a ring taken
modulo `2 ^ 64`. The correspondence is kept by each memory update on its own, so
calls that run alone and calls that interleave share the lemmas of this file.
-/

namespace LockFreeQueue

open WordCounters TicketRings LockFreeQueueCpp11

universe u

variable {T : Type u} {k : ℕ}

/-! ### Words and tickets -/

/-- The queue's words are those of the ring, and a slot's `head` word equals its
turn exactly while the slot is full. -/
structure OnRing (k : ℕ) (R : TicketRing (2 ^ k)) (q : LockFreeQueueCpp11 T) : Prop where
  small : k ≤ 63
  mask : q.capacityMask.toNat = 2 ^ k - 1
  capacity : q.capacity = BitVec.ofNat 64 (2 ^ k)
  tail : q.tail = BitVec.ofNat 64 R.tail
  head : q.head = BitVec.ofNat 64 R.head
  node_tail : ∀ i, i < 2 ^ k → (q.queue i).tail = BitVec.ofNat 64 (R.turn i)
  node_full : ∀ i, i < 2 ^ k → R.full i → (q.queue i).head = BitVec.ofNat 64 (R.turn i)
  node_empty : ∀ i, i < 2 ^ k → ¬ R.full i → (q.queue i).head ≠ BitVec.ofNat 64 (R.turn i)

theorem capacity_lt_wrap (small : k ≤ 63) : 2 * 2 ^ k ≤ 2 ^ 64 := by
  have := Nat.pow_le_pow_right (n := 2) (by omega) small
  omega

theorem new_onRing (T : Type u) (capacity : SizeT) (pos : 1 ≤ capacity.toNat)
    (small : capacity.toNat ≤ 2 ^ 63) :
    ∃ k, (∀ j, capacity.toNat ≤ 2 ^ j ↔ k ≤ j) ∧
      OnRing k (.fresh (2 ^ k)) (new (T := T) capacity) := by
  obtain ⟨k, hk, least, mask, cap⟩ := new_capacity T capacity pos small
  refine ⟨k, least, hk, mask, cap, rfl, rfl, fun i _ => rfl, fun i _ h => h.elim, ?_⟩
  -- the never-filled marker is the ticket `2 ^ 64 - 1`, beyond every first ticket
  intro i hi _ same
  have h := congrArg BitVec.toNat same
  have hw := capacity_lt_wrap hk
  have hi' : i < 2 ^ 64 := by omega
  change 2 ^ 64 - 1 = (BitVec.ofNat 64 i).toNat at h
  rw [BitVec.toNat_ofNat, Nat.mod_eq_of_lt hi'] at h
  omega

namespace OnRing

variable {R : TicketRing (2 ^ k)} {q : LockFreeQueueCpp11 T}

theorem slot_ofNat (h : OnRing k R q) (n : ℕ) : q.slot (BitVec.ofNat 64 n) = n % 2 ^ k :=
  toNat_and_mask (by have := h.small; omega) h.mask n

theorem node_ofNat (h : OnRing k R q) (n : ℕ) :
    q.node (BitVec.ofNat 64 n) = q.queue (n % 2 ^ k) := by
  rw [LockFreeQueueCpp11.node, h.slot_ofNat]

/-- A push that tests the current ticket passes exactly when its slot is ready. -/
theorem tail_test (h : OnRing k R q) :
    (q.node (BitVec.ofNat 64 R.tail)).tail = BitVec.ofNat 64 R.tail ↔
      R.turn (R.tail % 2 ^ k) = R.tail := by
  have hw := capacity_lt_wrap h.small
  rw [h.node_ofNat, h.node_tail _ (Nat.mod_lt _ (Nat.two_pow_pos k))]
  constructor
  · intro same
    rcases R.turn_tail (Nat.two_pow_pos k) with ready | lap
    · exact ready
    · exact ofNat_inj_of_near (by omega) (by omega) same
  · exact fun ready => by rw [ready]

/-- A pop that tests the current ticket passes exactly when its item is in. -/
theorem head_test (h : OnRing k R q) :
    (q.node (BitVec.ofNat 64 R.head)).head = BitVec.ofNat 64 R.head ↔
      R.turn (R.head % 2 ^ k) = R.head ∧ R.full (R.head % 2 ^ k) := by
  have hw := capacity_lt_wrap h.small
  have hi := Nat.mod_lt R.head (Nat.two_pow_pos k)
  rw [h.node_ofNat]
  constructor
  · intro same
    rcases R.turn_head (Nat.two_pow_pos k) with turn | ⟨lap, -⟩
    · refine ⟨turn, ?_⟩
      by_contra empty
      exact h.node_empty _ hi empty (by rw [turn]; exact same)
    · -- the slot is a lap behind: its consumer has not released it, so it is full
      have full := R.taken_full _ hi (by have := Nat.two_pow_pos k; omega)
      rw [h.node_full _ hi full] at same
      have := ofNat_inj_of_near (by omega) (by omega) same
      have := Nat.two_pow_pos k
      omega
  · rintro ⟨turn, full⟩
    rw [h.node_full _ hi full, turn]

theorem draw (h : OnRing k R q) (ready : R.turn (R.tail % 2 ^ k) = R.tail) :
    OnRing k (R.draw (Nat.two_pow_pos k) ready) { q with tail := q.tail + 1 } :=
  { h with
    tail := by
      change q.tail + 1 = BitVec.ofNat 64 (R.tail + 1)
      rw [h.tail, BitVec.ofNat_add]
      rfl
    node_tail := h.node_tail
    node_full := h.node_full
    node_empty := h.node_empty }

theorem take (h : OnRing k R q) (ready : R.turn (R.head % 2 ^ k) = R.head)
    (full : R.full (R.head % 2 ^ k)) :
    OnRing k (R.take (Nat.two_pow_pos k) ready full) { q with head := q.head + 1 } :=
  { h with
    head := by
      change q.head + 1 = BitVec.ofNat 64 (R.head + 1)
      rw [h.head, BitVec.ofNat_add]
      rfl
    node_tail := h.node_tail
    node_full := h.node_full
    node_empty := h.node_empty }

/-- What is written to a slot's storage concerns no counter. -/
theorem storeData (h : OnRing k R q) (x : SizeT) (data : Option T) :
    OnRing k R (q.storeData x data) :=
  { h with
    node_tail := fun i hi => (q.storeData_tail x data i).trans (h.node_tail i hi)
    node_full := fun i hi full => (q.storeData_head x data i).trans (h.node_full i hi full)
    node_empty := fun i hi empty => by rw [storeData_head]; exact h.node_empty i hi empty }

/-- The final store of a push makes the slot full. -/
theorem publish (h : OnRing k R q) {n : ℕ} (drawn : n < R.tail) (turn : R.turn (n % 2 ^ k) = n) :
    OnRing k (R.fill n drawn turn) (q.storeHead (BitVec.ofNat 64 n) (BitVec.ofNat 64 n)) where
  small := h.small
  mask := h.mask
  capacity := h.capacity
  tail := h.tail
  head := h.head
  node_tail := fun i hi => (q.storeHead_tail _ _ i).trans (h.node_tail i hi)
  node_full := fun i hi full => by
    rw [storeHead_head, h.slot_ofNat, TicketRing.fill_turn]
    by_cases hin : i = n % 2 ^ k
    · rw [if_pos hin, hin, turn]
    · rw [if_neg hin]
      exact h.node_full i hi (full.resolve_left hin)
  node_empty := fun i hi empty => by
    have hin : i ≠ n % 2 ^ k := fun e => empty (Or.inl e)
    rw [storeHead_head, h.slot_ofNat, TicketRing.fill_turn, if_neg hin]
    exact h.node_empty i hi fun full => empty (Or.inr full)

/-- The final store of a pop moves the slot's turn on by one lap. Its `head` word
stays where it was, one lap behind the new turn, which marks the slot empty. -/
theorem vacate (h : OnRing k R q) {n : ℕ} (taken : n < R.head) (turn : R.turn (n % 2 ^ k) = n) :
    OnRing k (R.release (Nat.two_pow_pos k) n taken turn)
      (q.storeTail (BitVec.ofNat 64 n) (BitVec.ofNat 64 n + q.capacity)) where
  small := h.small
  mask := h.mask
  capacity := h.capacity
  tail := h.tail
  head := h.head
  node_tail := fun i hi => by
    rw [storeTail_tail, h.slot_ofNat, TicketRing.release_turn]
    by_cases hin : i = n % 2 ^ k
    · rw [if_pos hin, if_pos hin, h.capacity, BitVec.ofNat_add]
    · rw [if_neg hin, if_neg hin]
      exact h.node_tail i hi
  node_full := fun i hi full => by
    rw [storeTail_head, TicketRing.release_turn, if_neg full.1]
    exact h.node_full i hi full.2
  node_empty := fun i hi empty => by
    have hcap := Nat.two_pow_pos k
    have hw := capacity_lt_wrap h.small
    rw [storeTail_head, TicketRing.release_turn]
    by_cases hin : i = n % 2 ^ k
    · subst hin
      have full := R.taken_full _ hi (turn.symm ▸ taken)
      rw [if_pos rfl, h.node_full _ hi full, turn]
      intro same
      have := ofNat_inj_of_near (by omega) (by omega) same
      omega
    · rw [if_neg hin]
      exact h.node_empty i hi fun hf => empty ⟨hin, hf⟩

end OnRing

end LockFreeQueue
