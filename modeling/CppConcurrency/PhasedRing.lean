import CppConcurrency.WordCounters
import Mathlib.Logic.Function.Basic

/-!
# A ring of slots whose uses are counted

Producers and consumers draw tickets from two counters that stay within `cap` of each
other, and only then wait for their slot. Ticket `k` uses slot `k % cap` on lap
`k / cap`: its producer is the slot's use number `2 * (k / cap)` and its consumer the
next one. A slot's phase is the number of uses it has behind it. Whoever waits, waits
for uses of the same slot that have been drawn before, so the ring never stands still.
-/

namespace PhasedRings

open WordCounters

structure PhasedRing (cap : ℕ) where
  tail : ℕ
  head : ℕ
  phase : ℕ → ℕ
  head_le_tail : head ≤ tail
  tail_le : tail ≤ head + cap
  filled_drawn : ∀ k, 2 * (k / cap) < phase (k % cap) → k < tail
  emptied_drawn : ∀ k, 2 * (k / cap) + 1 < phase (k % cap) → k < head

variable {cap : ℕ}

/-- Two tickets of one slot are ordered as their laps are. -/
theorem lap_lt_iff {n k : ℕ} (slot : n % cap = k % cap) : n / cap < k / cap ↔ n < k := by
  have hn := Nat.div_add_mod n cap
  have hk := Nat.div_add_mod k cap
  constructor
  · intro laps
    have := Nat.mul_lt_mul_of_lt_of_le laps (Nat.le_refl cap) (Nat.pos_of_ne_zero fun none => by
      simp [none] at laps)
    rw [Nat.mul_comm (n / cap), Nat.mul_comm (k / cap)] at this
    omega
  · intro below
    by_contra laps
    have := Nat.mul_le_mul_left cap (Nat.le_of_not_lt laps)
    omega

theorem lap_inj {n k : ℕ} (slot : n % cap = k % cap) (lap : n / cap = k / cap) : n = k := by
  have hn := Nat.div_add_mod n cap
  have hk := Nat.div_add_mod k cap
  rw [slot, lap] at hn
  exact hn.symm.trans hk

namespace PhasedRing

def fresh (cap : ℕ) : PhasedRing cap where
  tail := 0
  head := 0
  phase := fun _ => 0
  head_le_tail := Nat.zero_le 0
  tail_le := Nat.zero_le _
  filled_drawn := fun _ below => absurd below (Nat.not_lt_zero _)
  emptied_drawn := fun _ below => absurd below (Nat.not_lt_zero _)

variable (R : PhasedRing cap)

/-- The producer of ticket `k` has put its item in. -/
def Filled (k : ℕ) : Prop := 2 * (k / cap) < R.phase (k % cap)

/-- The consumer of ticket `k` has taken its item out. -/
def Emptied (k : ℕ) : Prop := 2 * (k / cap) + 1 < R.phase (k % cap)

/-- It is the turn of the producer of ticket `k`. -/
def ToFill (k : ℕ) : Prop := R.phase (k % cap) = 2 * (k / cap)

/-- It is the turn of the consumer of ticket `k`. -/
def ToEmpty (k : ℕ) : Prop := R.phase (k % cap) = 2 * (k / cap) + 1

/-- A slot waits for one of its tickets. -/
theorem exists_turn (hcap : 0 < cap) {i : ℕ} (hi : i < cap) :
    ∃ k, k % cap = i ∧ k / cap = R.phase i / 2 ∧ (R.ToFill k ∨ R.ToEmpty k) := by
  have slot : (i + R.phase i / 2 * cap) % cap = i := by
    rw [Nat.add_mul_mod_self_right, Nat.mod_eq_of_lt hi]
  have lap : (i + R.phase i / 2 * cap) / cap = R.phase i / 2 := by
    rw [Nat.add_mul_div_right _ _ hcap, Nat.div_eq_of_lt hi, Nat.zero_add]
  refine ⟨i + R.phase i / 2 * cap, slot, lap, ?_⟩
  rw [ToFill, ToEmpty, slot, lap]
  omega

/-- Where a drawn ticket is not yet served, its slot waits for one that is drawn. -/
theorem exists_ready (hcap : 0 < cap) {k : ℕ}
    (unserved : k < R.tail ∧ ¬ R.Filled k ∨ k < R.head ∧ ¬ R.Emptied k) :
    ∃ n, n < R.tail ∧ R.ToFill n ∨ n < R.head ∧ R.ToEmpty n := by
  obtain ⟨n, slot, lap, turn⟩ := R.exists_turn hcap (Nat.mod_lt k hcap)
  have order := R.head_le_tail
  have near := R.tail_le
  have before := lap_lt_iff slot
  have after := lap_lt_iff slot.symm
  refine ⟨n, ?_⟩
  rw [Filled, Emptied] at unserved
  rcases turn with turn | turn
  · -- a producer's turn: its ticket is not later than `k`
    refine Or.inl ⟨?_, turn⟩
    rw [ToFill, slot] at turn
    omega
  · -- a consumer's turn: if a producer waits, it is one lap later
    refine Or.inr ⟨?_, turn⟩
    rw [ToEmpty, slot] at turn
    rcases unserved with ⟨drawn, unfilled⟩ | ⟨drawn, unemptied⟩
    · have below : n < k := before.mp (by omega)
      rcases eq_or_lap slot below.le with equal | far <;> omega
    · omega

/-- A producer draws a ticket while there is room, whether or not its slot is ready. -/
def draw (room : R.tail < R.head + cap) : PhasedRing cap :=
  { R with
    tail := R.tail + 1
    head_le_tail := Nat.le_succ_of_le R.head_le_tail
    tail_le := room
    filled_drawn := fun k below => Nat.lt_succ_of_lt (R.filled_drawn k below) }

/-- A consumer draws a ticket while one of a producer is left, whether or not its item is in. -/
def take (more : R.head < R.tail) : PhasedRing cap :=
  { R with
    head := R.head + 1
    head_le_tail := more
    tail_le := by
      have := R.tail_le
      omega
    emptied_drawn := fun k below => Nat.lt_succ_of_lt (R.emptied_drawn k below) }

def fill (k : ℕ) (drawn : k < R.tail) (turn : R.ToFill k) : PhasedRing cap :=
  { R with
    phase := Function.update R.phase (k % cap) (2 * (k / cap) + 1)
    filled_drawn := fun n below => by
      by_cases slot : n % cap = k % cap
      · rw [slot, Function.update_self] at below
        have := lap_lt_iff slot.symm
        omega
      · rw [Function.update_of_ne slot] at below
        exact R.filled_drawn n below
    emptied_drawn := fun n below => by
      by_cases slot : n % cap = k % cap
      · rw [slot, Function.update_self] at below
        apply R.emptied_drawn n
        rw [slot, turn]
        omega
      · rw [Function.update_of_ne slot] at below
        exact R.emptied_drawn n below }

def empty (k : ℕ) (drawn : k < R.head) (_turn : R.ToEmpty k) : PhasedRing cap :=
  { R with
    phase := Function.update R.phase (k % cap) (2 * (k / cap) + 2)
    filled_drawn := fun n below => by
      by_cases slot : n % cap = k % cap
      · rw [slot, Function.update_self] at below
        have := lap_lt_iff slot.symm
        have := R.head_le_tail
        omega
      · rw [Function.update_of_ne slot] at below
        exact R.filled_drawn n below
    emptied_drawn := fun n below => by
      by_cases slot : n % cap = k % cap
      · rw [slot, Function.update_self] at below
        have := lap_lt_iff slot.symm
        omega
      · rw [Function.update_of_ne slot] at below
        exact R.emptied_drawn n below }

/-! What a use of a slot changes: the slot waits for the next use of it. -/

section Uses

variable {k : ℕ} (drawn : k < R.tail) (toFill : R.ToFill k) (taken : k < R.head)
  (toEmpty : R.ToEmpty k) (n : ℕ)

theorem fill_phase (i : ℕ) : (R.fill k drawn toFill).phase i =
    if i = k % cap then 2 * (k / cap) + 1 else R.phase i :=
  Function.update_apply R.phase _ _ i

theorem empty_phase (i : ℕ) : (R.empty k taken toEmpty).phase i =
    if i = k % cap then 2 * (k / cap) + 2 else R.phase i :=
  Function.update_apply R.phase _ _ i

theorem filled_fill : (R.fill k drawn toFill).Filled n ↔ R.Filled n ∨ n = k := by
  rw [Filled, Filled, fill_phase]
  by_cases slot : n % cap = k % cap
  · rw [if_pos slot, slot, toFill]
    have before := lap_lt_iff slot
    have after := lap_lt_iff slot.symm
    omega
  · rw [if_neg slot, or_iff_left]
    exact fun same => slot (by rw [same])

theorem emptied_fill : (R.fill k drawn toFill).Emptied n ↔ R.Emptied n := by
  rw [Emptied, Emptied, fill_phase]
  by_cases slot : n % cap = k % cap
  · rw [if_pos slot, slot, toFill]
    omega
  · rw [if_neg slot]

theorem filled_empty : (R.empty k taken toEmpty).Filled n ↔ R.Filled n := by
  rw [Filled, Filled, empty_phase]
  by_cases slot : n % cap = k % cap
  · rw [if_pos slot, slot, toEmpty]
    omega
  · rw [if_neg slot]

theorem emptied_empty : (R.empty k taken toEmpty).Emptied n ↔ R.Emptied n ∨ n = k := by
  rw [Emptied, Emptied, empty_phase]
  by_cases slot : n % cap = k % cap
  · rw [if_pos slot, slot, toEmpty]
    have before := lap_lt_iff slot
    have after := lap_lt_iff slot.symm
    omega
  · rw [if_neg slot, or_iff_left]
    exact fun same => slot (by rw [same])

variable {n}

theorem toFill_fill (turn : (R.fill k drawn toFill).ToFill n) : n % cap ≠ k % cap ∧ R.ToFill n := by
  rw [ToFill, fill_phase] at turn
  split_ifs at turn with slot
  · omega
  · exact ⟨slot, turn⟩

theorem toEmpty_fill (turn : (R.fill k drawn toFill).ToEmpty n) :
    n = k ∨ n % cap ≠ k % cap ∧ R.ToEmpty n := by
  rw [ToEmpty, fill_phase] at turn
  split_ifs at turn with slot
  · exact Or.inl (lap_inj slot (by omega))
  · exact Or.inr ⟨slot, turn⟩

theorem toFill_empty (hcap : 0 < cap) (turn : (R.empty k taken toEmpty).ToFill n) :
    n = k + cap ∨ n % cap ≠ k % cap ∧ R.ToFill n := by
  rw [ToFill, empty_phase] at turn
  split_ifs at turn with slot
  · refine Or.inl (lap_inj (by rw [slot, Nat.add_mod_right]) ?_)
    rw [Nat.add_div_right k hcap]
    omega
  · exact Or.inr ⟨slot, turn⟩

theorem toEmpty_empty (turn : (R.empty k taken toEmpty).ToEmpty n) :
    n % cap ≠ k % cap ∧ R.ToEmpty n := by
  rw [ToEmpty, empty_phase] at turn
  split_ifs at turn with slot
  · omega
  · exact ⟨slot, turn⟩

end Uses

variable {R}

/-- A slot has one turn at a time. -/
theorem ToFill.inj {n k : ℕ} (turn : R.ToFill n) (turn' : R.ToFill k) (slot : n % cap = k % cap) :
    n = k := by
  rw [ToFill, slot, turn'] at turn
  exact lap_inj slot (by omega)

theorem ToEmpty.inj {n k : ℕ} (turn : R.ToEmpty n) (turn' : R.ToEmpty k)
    (slot : n % cap = k % cap) : n = k := by
  rw [ToEmpty, slot, turn'] at turn
  exact lap_inj slot (by omega)

/-- A slot is filled again only after it was emptied. -/
theorem ToFill.emptied {k : ℕ} (hcap : 0 < cap) (turn : R.ToFill (k + cap)) : R.Emptied k := by
  rw [ToFill, Nat.add_mod_right, Nat.add_div_right k hcap] at turn
  rw [Emptied]
  omega

theorem ToFill.not_filled {k : ℕ} (turn : R.ToFill k) : ¬ R.Filled k := by
  rw [Filled, turn]
  exact Nat.lt_irrefl _

theorem ToEmpty.not_emptied {k : ℕ} (turn : R.ToEmpty k) : ¬ R.Emptied k := by
  rw [Emptied, turn]
  exact Nat.lt_irrefl _

/-- An item that is in and not out is the one its slot waits to be rid of. -/
theorem toEmpty_of_filled {k : ℕ} (filled : R.Filled k) (here : ¬ R.Emptied k) : R.ToEmpty k := by
  rw [Filled] at filled
  rw [Emptied] at here
  rw [ToEmpty]
  omega

theorem ToFill.apart {n k : ℕ} (turn : R.ToFill n) (turn' : R.ToEmpty k) : n % cap ≠ k % cap := by
  intro slot
  rw [ToFill, slot, turn'] at turn
  omega

end PhasedRing

end PhasedRings
