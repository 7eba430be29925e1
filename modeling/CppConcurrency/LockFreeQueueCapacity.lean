import CppConcurrency.LockFreeQueue
import Mathlib.Order.Bounds.Defs

/-!
# The capacity of `LockFreeQueueCpp11` and the slots of its counters

The constructor rounds its argument up to a power of two, so that `& _capacityMask` takes
a counter modulo the capacity. The capacity divides `2 ^ 64`, so a counter that wraps goes
on with the next slot.
-/

namespace LockFreeQueue

open WordCounters LockFreeQueueCpp11

universe u

variable (T : Type u) {capacity : SizeT}

/-- Unrolled, the constructor's loop shifts by 1, 2, 4, 8, 16 and 32. -/
theorem roundMask_spread (x : SizeT) : Spread x (roundMask 64 1 x) 64 :=
  ((((((spread_one x).double.double).double).double).double).double)

/-- The loop's own condition ends it after six turns, however many are allowed. -/
theorem roundMask_ends (fuel : ℕ) (mask : SizeT) :
    roundMask (fuel + 7) 1 mask = roundMask 64 1 mask := rfl

/-! ### The words for every argument -/

/-- The length of the word `capacity - 1`, which is 64 for the argument 0. -/
def maskLength (capacity : SizeT) : ℕ := (capacity - 1).toNat.size

theorem maskLength_le (capacity : SizeT) : maskLength capacity ≤ 64 :=
  Nat.size_le.mpr (capacity - 1).isLt

theorem maskLength_zero : maskLength 0 = 64 := by decide

/-- From 1 on, nothing wraps before the mask is rounded. -/
theorem maskLength_pos (pos : 1 ≤ capacity.toNat) :
    maskLength capacity = (capacity.toNat - 1).size := by
  rw [maskLength, BitVec.toNat_sub_of_le (by simpa [BitVec.le_def] using pos)]
  rfl

theorem new_mask (capacity : SizeT) :
    (new (T := T) capacity).capacityMask.toNat = 2 ^ maskLength capacity - 1 :=
  (roundMask_spread (capacity - 1)).toNat_eq

theorem new_capacity_word (capacity : SizeT) :
    (new (T := T) capacity).capacity.toNat = 2 ^ maskLength capacity % 2 ^ 64 := by
  have pos := Nat.two_pow_pos (maskLength capacity)
  have mask := new_mask T capacity
  change ((new (T := T) capacity).capacityMask + 1).toNat = _
  rw [BitVec.toNat_add, mask]
  congr 1
  change 2 ^ maskLength capacity - 1 + 1 = _
  omega

theorem new_slot (capacity : SizeT) (n : ℕ) :
    (new (T := T) capacity).slot (BitVec.ofNat 64 n) = n % 2 ^ maskLength capacity :=
  toNat_and_mask (maskLength_le capacity) (new_mask T capacity) n

theorem new_slot_word (capacity x : SizeT) :
    (new (T := T) capacity).slot x = x.toNat % 2 ^ maskLength capacity := by
  have masked := new_slot T capacity x.toNat
  rw [BitVec.ofNat_toNat, BitVec.setWidth_eq] at masked
  exact masked

theorem new_slot_lt (capacity x : SizeT) :
    (new (T := T) capacity).slot x < 2 ^ maskLength capacity := by
  rw [new_slot_word]
  exact Nat.mod_lt _ (Nat.two_pow_pos _)

/-- From counter to counter the slots go round the ring. -/
theorem new_slot_add (capacity x : SizeT) (n : ℕ) :
    (new (T := T) capacity).slot (x + BitVec.ofNat 64 n) =
      ((new (T := T) capacity).slot x + n) % 2 ^ maskLength capacity := by
  rw [new_slot_word, new_slot_word]
  exact toNat_add_mod (maskLength_le capacity) x n

/-! ### The argument between 1 and `2 ^ 63` -/

/-- The length of the mask names the powers of two that reach the argument. -/
theorem reaches_iff (pos : 1 ≤ capacity.toNat) {j : ℕ} :
    capacity.toNat ≤ 2 ^ j ↔ maskLength capacity ≤ j := by
  rw [maskLength_pos pos]
  exact le_two_pow_iff pos

/-- Up to `2 ^ 63` the rounded capacity is a word. -/
theorem new_capacity_eq (pos : 1 ≤ capacity.toNat) (small : capacity.toNat ≤ 2 ^ 63) :
    (new (T := T) capacity).capacity.toNat = 2 ^ maskLength capacity := by
  have short : maskLength capacity ≤ 63 := (reaches_iff pos).mp small
  rw [new_capacity_word]
  exact Nat.mod_eq_of_lt (Nat.pow_lt_pow_right Nat.one_lt_two (Nat.lt_succ_of_le short))

/-- The rounded capacity is the least power of two that reaches the argument. -/
theorem new_capacity (capacity : SizeT) (pos : 1 ≤ capacity.toNat)
    (small : capacity.toNat ≤ 2 ^ 63) :
    ∃ k, k ≤ 63 ∧ (∀ j, capacity.toNat ≤ 2 ^ j ↔ k ≤ j) ∧
      (new (T := T) capacity).capacityMask.toNat = 2 ^ k - 1 ∧
      (new (T := T) capacity).capacity = BitVec.ofNat 64 (2 ^ k) := by
  refine ⟨maskLength capacity, (reaches_iff pos).mp small, fun j => reaches_iff pos,
    new_mask T capacity, ?_⟩
  rw [← new_capacity_eq T pos small, BitVec.ofNat_toNat, BitVec.setWidth_eq]

/-- No smaller power of two reaches the argument. -/
theorem least_power (pos : 1 ≤ capacity.toNat) :
    IsLeast {n | capacity.toNat ≤ n ∧ ∃ j, n = 2 ^ j} (2 ^ maskLength capacity) := by
  refine ⟨⟨(reaches_iff pos).mpr le_rfl, _, rfl⟩, ?_⟩
  rintro n ⟨reaches, j, rfl⟩
  exact Nat.pow_le_pow_right Nat.two_pos ((reaches_iff pos).mp reaches)

/-- For every argument from 1 to `2 ^ 63` the loop ends with the mask of the least power of
two that is at least the argument, and for every counter the mask is the remainder and the
next counter has the next slot. -/
theorem capacity_is_rounded (capacity : SizeT) (pos : 1 ≤ capacity.toNat)
    (small : capacity.toNat ≤ 2 ^ 63) :
    let q : LockFreeQueueCpp11 T := new capacity
    ∃ k, (∀ fuel, roundMask (fuel + 7) 1 (capacity - 1) = q.capacityMask) ∧
      q.capacityMask.toNat = 2 ^ k - 1 ∧ q.capacity.toNat = 2 ^ k ∧
      IsLeast {n | capacity.toNat ≤ n ∧ ∃ j, n = 2 ^ j} (2 ^ k) ∧
      (∀ x, x &&& q.capacityMask = x % q.capacity) ∧
      ∀ x, q.slot (x + 1) = (q.slot x + 1) % q.capacity.toNat := by
  intro q
  have mask : q.capacityMask.toNat = 2 ^ maskLength capacity - 1 := new_mask T capacity
  have cap : q.capacity.toNat = 2 ^ maskLength capacity := new_capacity_eq T pos small
  refine ⟨maskLength capacity, fun fuel => roundMask_ends fuel (capacity - 1), mask, cap,
    least_power pos, and_mask_eq_umod mask cap, fun x => ?_⟩
  rw [cap]
  exact new_slot_add T capacity x 1

/-- Room for five, and the last counter before the wrap. -/
theorem capacity_is_rounded_five :
    IsLeast {n | 5 ≤ n ∧ ∃ j, n = 2 ^ j} (new (T := ℕ) 5).capacity.toNat ∧
      (new (T := ℕ) 5).slot (-1) = 7 ∧ (new (T := ℕ) 5).slot (-1 + 1) = 0 := by
  obtain ⟨k, -, -, cap, least, -, next⟩ := capacity_is_rounded ℕ 5 (by decide) (by decide)
  have last : (new (T := ℕ) 5).slot (-1) = 7 := by decide
  refine ⟨cap ▸ least, last, ?_⟩
  rw [next, last]
  decide

end LockFreeQueue
