import CppConcurrency.LockFreeQueueCapacity

/-!
# The buffer of `LockFreeQueueCpp11`

The constructor rounds its argument up with `capacity - 1` and `_capacityMask + 1` and asks
for `sizeof(Node) * _capacity` bytes. Each of the three may wrap modulo `2 ^ 64`, and then
the mask reaches further than the buffer does.
-/

namespace LockFreeQueue

open WordCounters LockFreeQueueCpp11

universe u

variable (T : Type u) {capacity nodeSize : SizeT}

/-- The bytes asked for by `new char[sizeof(Node) * _capacity]`. -/
def queueBytes (nodeSize capacity : SizeT) : SizeT :=
  nodeSize * (new (T := T) capacity).capacity

/-- How far behind `_queue` the node `_queue[x & _capacityMask]` begins. -/
def nodeOffset (nodeSize capacity x : SizeT) : SizeT :=
  nodeSize * BitVec.ofNat 64 ((new (T := T) capacity).slot x)

/-- Every node that push and pop can index lies inside the buffer, and the capacity is
at least the one asked for. -/
def InsideBuffer (nodeSize capacity : SizeT) : Prop :=
  (∀ x, (nodeOffset T nodeSize capacity x).toNat + nodeSize.toNat ≤
      (queueBytes T nodeSize capacity).toNat) ∧
    capacity.toNat ≤ (new (T := T) capacity).capacity.toNat

/-! ### The product that must not wrap -/

/-- While all nodes together have fewer than `2 ^ 64` bytes, offsets and the size of the
buffer are the true products. -/
theorem inside_of_fits (nonempty : 1 ≤ nodeSize.toNat)
    (fits : nodeSize.toNat * 2 ^ maskLength capacity < 2 ^ 64) :
    InsideBuffer T nodeSize capacity := by
  have short : 2 ^ maskLength capacity < 2 ^ 64 :=
    (Nat.le_mul_of_pos_left _ nonempty).trans_lt fits
  have words := new_capacity_word T capacity
  rw [Nat.mod_eq_of_lt short] at words
  constructor
  · intro x
    have inside := new_slot_lt T capacity x
    have room : nodeSize.toNat * ((new (T := T) capacity).slot x + 1) ≤
        nodeSize.toNat * 2 ^ maskLength capacity := Nat.mul_le_mul_left _ inside
    rw [Nat.mul_succ] at room
    have offset : (nodeOffset T nodeSize capacity x).toNat =
        nodeSize.toNat * (new (T := T) capacity).slot x := by
      rw [nodeOffset, BitVec.toNat_mul, BitVec.toNat_ofNat, Nat.mod_eq_of_lt (inside.trans short),
        Nat.mod_eq_of_lt (by omega)]
    rw [offset, queueBytes, BitVec.toNat_mul, words, Nat.mod_eq_of_lt fits]
    exact room
  · have pos : 1 ≤ capacity.toNat := by
      by_contra zero
      obtain rfl : capacity = 0 := BitVec.eq_of_toNat_eq (by simpa using zero)
      rw [maskLength_zero] at short
      exact lt_irrefl _ short
    rw [words, reaches_iff pos]

/-- Where the product wraps, the first node that crosses the end of the buffer is still
below the mask. -/
theorem fits_of_inside (nonempty : 1 ≤ nodeSize.toNat)
    (inside : InsideBuffer T nodeSize capacity) :
    nodeSize.toNat * 2 ^ maskLength capacity < 2 ^ 64 := by
  by_contra wraps
  have bytes := (queueBytes T nodeSize capacity).isLt
  let crossing := (queueBytes T nodeSize capacity).toNat / nodeSize.toNat
  have before : nodeSize.toNat * crossing ≤ (queueBytes T nodeSize capacity).toNat :=
    Nat.mul_div_le _ _
  have beyond : (queueBytes T nodeSize capacity).toNat < nodeSize.toNat * (crossing + 1) :=
    Nat.lt_mul_div_succ _ nonempty
  have masked : crossing < 2 ^ maskLength capacity := by
    apply Nat.lt_of_mul_lt_mul_left (a := nodeSize.toNat)
    omega
  have offset : (nodeOffset T nodeSize capacity (BitVec.ofNat 64 crossing)).toNat =
      nodeSize.toNat * crossing := by
    rw [nodeOffset, new_slot, Nat.mod_eq_of_lt masked, BitVec.toNat_mul, BitVec.toNat_ofNat,
      Nat.mul_mod_mod, Nat.mod_eq_of_lt (by omega)]
  have last := inside.1 (BitVec.ofNat 64 crossing)
  rw [offset] at last
  rw [Nat.mul_succ] at beyond
  omega

/-- No index leaves the buffer exactly when the argument is not 0 and the nodes of a power
of two that reaches it have fewer than `2 ^ 64` bytes. -/
theorem inside_buffer_iff (nonempty : 1 ≤ nodeSize.toNat) :
    InsideBuffer T nodeSize capacity ↔
      1 ≤ capacity.toNat ∧ ∃ k, capacity.toNat ≤ 2 ^ k ∧ nodeSize.toNat * 2 ^ k < 2 ^ 64 := by
  constructor
  · intro inside
    have fits := fits_of_inside T nonempty inside
    have pos : 1 ≤ capacity.toNat := by
      by_contra zero
      obtain rfl : capacity = 0 := BitVec.eq_of_toNat_eq (by simpa using zero)
      rw [maskLength_zero] at fits
      omega
    exact ⟨pos, maskLength capacity, (reaches_iff pos).mpr le_rfl, fits⟩
  · rintro ⟨pos, k, reaches, fits⟩
    have least : maskLength capacity ≤ k := (reaches_iff pos).mp reaches
    have smaller : nodeSize.toNat * 2 ^ maskLength capacity ≤ nodeSize.toNat * 2 ^ k :=
      Nat.mul_le_mul_left _ (Nat.pow_le_pow_right (by omega) least)
    exact inside_of_fits T nonempty (smaller.trans_lt fits)

/-- Nodes of 24 bytes and room for three. -/
theorem inside_buffer_iff_three : 1 ≤ (24 : SizeT).toNat ∧ InsideBuffer ℕ 24 3 :=
  ⟨by decide, (inside_buffer_iff ℕ (by decide)).mpr ⟨by decide, 2, by decide, by decide⟩⟩

/-- For the argument 0 the mask has all its bits set and the buffer has no byte. -/
theorem zero_is_outside : ¬ InsideBuffer ℕ 24 0 := by
  intro claim
  exact absurd (claim.1 0) (by decide)

end LockFreeQueue
