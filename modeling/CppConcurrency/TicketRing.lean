import CppConcurrency.WordCounters
import Mathlib.Logic.Function.Basic

/-!
# A ring of slots taken by ticket

Producers and consumers draw tickets from two unbounded counters, and ticket `k`
uses slot `k % cap`. Each slot remembers whose turn it is: the least ticket of its
residue class that has not been released, and whether that ticket's item is in.
A ticket is drawn in one step and honoured in a later one, so a slot can be drawn
by a producer without being full and by a consumer without being free.
The bounds of a lawful ring are fields, so no other ring can be written down.
-/

namespace TicketRings

open WordCounters

/-- `head ≤ tail` are the tickets drawn by consumers and by producers. -/
structure TicketRing (cap : ℕ) where
  tail : ℕ
  head : ℕ
  turn : ℕ → ℕ
  full : ℕ → Prop
  head_le_tail : head ≤ tail
  turn_slot : ∀ i, i < cap → turn i % cap = i
  turn_lt : ∀ i, i < cap → turn i < head + cap
  tail_le : ∀ i, i < cap → tail ≤ turn i + cap
  full_drawn : ∀ i, i < cap → full i → turn i < tail
  taken_full : ∀ i, i < cap → turn i < head → full i

namespace TicketRing

variable {cap : ℕ}

/-- The empty ring: every slot waits for the first ticket of its own number. -/
def fresh (cap : ℕ) : TicketRing cap where
  tail := 0
  head := 0
  turn := id
  full := fun _ => False
  head_le_tail := le_rfl
  turn_slot := fun i hi => Nat.mod_eq_of_lt hi
  turn_lt := fun i hi => by simpa using hi
  tail_le := fun i _ => Nat.zero_le _
  full_drawn := fun _ _ h => h.elim
  taken_full := fun _ _ h => absurd h (Nat.not_lt_zero _)

variable (R : TicketRing cap)

/-- The slot of the next producer ticket is either ready or one lap behind. -/
theorem turn_tail (hcap : 0 < cap) :
    R.turn (R.tail % cap) = R.tail ∨ R.turn (R.tail % cap) + cap = R.tail := by
  have hi := Nat.mod_lt R.tail hcap
  have slot := R.turn_slot _ hi
  have lo := R.tail_le _ hi
  have hi' := R.turn_lt _ hi
  have hle := R.head_le_tail
  rcases Nat.le_total (R.turn (R.tail % cap)) R.tail with h | h
  · rcases eq_or_lap slot h with h | h <;> omega
  · rcases eq_or_lap slot.symm h with h | h <;> omega

/-- The slot of the next consumer ticket is either at that ticket or still being
emptied by the consumer one lap before it. -/
theorem turn_head (hcap : 0 < cap) :
    R.turn (R.head % cap) = R.head ∨
      (R.turn (R.head % cap) + cap = R.head ∧ R.tail = R.head) := by
  have hi := Nat.mod_lt R.head hcap
  have slot := R.turn_slot _ hi
  have lo := R.tail_le _ hi
  have hi' := R.turn_lt _ hi
  have hle := R.head_le_tail
  rcases Nat.le_total (R.turn (R.head % cap)) R.head with h | h
  · rcases eq_or_lap slot h with h | h <;> omega
  · rcases eq_or_lap slot.symm h with h | h <;> omega

/-- A ticket drawn by a producer and not yet by a consumer is its slot's turn. -/
theorem turn_waiting (hcap : 0 < cap) {k : ℕ} (hk : R.head ≤ k) (hkt : k < R.tail) :
    R.turn (k % cap) = k := by
  have hi := Nat.mod_lt k hcap
  have slot := R.turn_slot _ hi
  have lo := R.tail_le _ hi
  have hi' := R.turn_lt _ hi
  rcases Nat.le_total (R.turn (k % cap)) k with h | h
  · rcases eq_or_lap slot h with h | h <;> omega
  · rcases eq_or_lap slot.symm h with h | h <;> omega

/-- Producers never lap the consumers. -/
theorem tail_le_head_add (hcap : 0 < cap) : R.tail ≤ R.head + cap := by
  by_contra far
  have hi := Nat.mod_lt (R.tail - 1) hcap
  have turn := R.turn_waiting hcap (k := R.tail - 1) (by omega) (by omega)
  have := R.turn_lt _ hi
  omega

/-- A slot whose turn has been drawn by a producer is still held: its next lap
cannot have been drawn as well. -/
theorem drawn_once {i : ℕ} (hi : i < cap) {k : ℕ} (hk : k < R.tail) (slot : k % cap = i) :
    k ≤ R.turn i := by
  have lo := R.tail_le _ hi
  have turn := R.turn_slot _ hi
  by_contra h
  rcases eq_or_lap (turn.trans slot.symm) (by omega) with h | h <;> omega

/-- A ticket its slot has moved past was taken by a consumer. -/
theorem passed (hcap : 0 < cap) {k : ℕ} (hk : k < R.turn (k % cap)) : k < R.head := by
  have hi := Nat.mod_lt k hcap
  have := R.turn_lt _ hi
  rcases eq_or_lap (R.turn_slot _ hi).symm hk.le with e | e <;> omega

/-- A producer draws the next ticket once its slot has come round to it. -/
def draw (hcap : 0 < cap) (ready : R.turn (R.tail % cap) = R.tail) : TicketRing cap where
  tail := R.tail + 1
  head := R.head
  turn := R.turn
  full := R.full
  head_le_tail := Nat.le_succ_of_le R.head_le_tail
  turn_slot := R.turn_slot
  turn_lt := R.turn_lt
  tail_le := fun i hi => by
    have lo := R.tail_le i hi
    by_contra h
    have lap : R.turn i + cap = R.tail := by omega
    have slot : R.tail % cap = i := by
      rw [← lap, Nat.add_mod_right, R.turn_slot i hi]
    rw [slot] at ready
    omega
  full_drawn := fun i hi h => Nat.lt_succ_of_lt (R.full_drawn i hi h)
  taken_full := R.taken_full

/-- The producer of ticket `k` puts its item in. -/
def fill (k : ℕ) (drawn : k < R.tail) (turn : R.turn (k % cap) = k) : TicketRing cap where
  tail := R.tail
  head := R.head
  turn := R.turn
  full := fun i => i = k % cap ∨ R.full i
  head_le_tail := R.head_le_tail
  turn_slot := R.turn_slot
  turn_lt := R.turn_lt
  tail_le := R.tail_le
  full_drawn := fun i hi h => by
    rcases h with rfl | h
    · exact turn.symm ▸ drawn
    · exact R.full_drawn i hi h
  taken_full := fun i hi h => Or.inr (R.taken_full i hi h)

/-- A consumer draws the next ticket once the item of that ticket is in. -/
def take (hcap : 0 < cap) (ready : R.turn (R.head % cap) = R.head)
    (full : R.full (R.head % cap)) : TicketRing cap where
  tail := R.tail
  head := R.head + 1
  turn := R.turn
  full := R.full
  head_le_tail := by
    have := R.full_drawn _ (Nat.mod_lt _ hcap) full
    omega
  turn_slot := R.turn_slot
  turn_lt := fun i hi => by have := R.turn_lt i hi; omega
  tail_le := R.tail_le
  full_drawn := R.full_drawn
  taken_full := fun i hi h => by
    rcases Nat.lt_succ_iff_lt_or_eq.mp h with h | h
    · exact R.taken_full i hi h
    · have slot := R.turn_slot i hi
      rw [h] at slot
      exact slot ▸ full

/-- The consumer of ticket `k` hands the slot on to the next lap. -/
def release (hcap : 0 < cap) (k : ℕ) (taken : k < R.head) (turn : R.turn (k % cap) = k) :
    TicketRing cap where
  tail := R.tail
  head := R.head
  turn := Function.update R.turn (k % cap) (k + cap)
  full := fun i => i ≠ k % cap ∧ R.full i
  head_le_tail := R.head_le_tail
  turn_slot := fun i hi => by
    by_cases h : i = k % cap
    · subst h; simp
    · rw [Function.update_of_ne h]; exact R.turn_slot i hi
  turn_lt := fun i hi => by
    by_cases h : i = k % cap
    · subst h; simp only [Function.update_self]; omega
    · rw [Function.update_of_ne h]; exact R.turn_lt i hi
  tail_le := fun i hi => by
    by_cases h : i = k % cap
    · subst h
      have := R.tail_le _ hi
      simp only [Function.update_self]; omega
    · rw [Function.update_of_ne h]; exact R.tail_le i hi
  full_drawn := fun i hi h => by
    rw [Function.update_of_ne h.1]; exact R.full_drawn i hi h.2
  taken_full := fun i hi h => by
    by_cases hik : i = k % cap
    · subst hik
      have hle := R.tail_le _ hi
      have := R.head_le_tail
      simp only [Function.update_self] at h
      omega
    · rw [Function.update_of_ne hik] at h
      exact ⟨hik, R.taken_full i hi h⟩

/-! What each move leaves where it was. -/

@[simp] theorem fill_turn (k : ℕ) (drawn : k < R.tail) (turn : R.turn (k % cap) = k) :
    (R.fill k drawn turn).turn = R.turn := rfl

@[simp] theorem take_turn (hcap : 0 < cap) (ready : R.turn (R.head % cap) = R.head)
    (full : R.full (R.head % cap)) : (R.take hcap ready full).turn = R.turn := rfl

theorem release_turn (hcap : 0 < cap) (k : ℕ) (taken : k < R.head)
    (turn : R.turn (k % cap) = k) (i : ℕ) :
    (R.release hcap k taken turn).turn i = if i = k % cap then k + cap else R.turn i :=
  Function.update_apply R.turn _ _ i

end TicketRing

end TicketRings
