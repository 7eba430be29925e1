import Mathlib.Data.Nat.Size
import Mathlib.Data.Nat.Bitwise
import Mathlib.Data.Nat.ModEq
import Mathlib.Tactic.Ring

/-!
# Machine words as masks and as counters

Or-ing a word with itself shifted right by 1, 2, 4, ... spreads its leading bit
over every lower one, so the result is one below a power of two. Masking a counter
with such a word is reduction modulo that power, also after the counter has
wrapped, because the power divides the modulus.
-/

namespace WordCounters

variable {w : ℕ}

/-- Bit `i` of `y` collects bits `i, ..., i + d - 1` of `x`. -/
def Spread (x y : BitVec w) (d : ℕ) : Prop :=
  ∀ i, y.getLsbD i = true ↔ ∃ j, j < d ∧ x.getLsbD (i + j) = true

theorem spread_one (x : BitVec w) : Spread x x 1 := by
  intro i
  constructor
  · intro h; exact ⟨0, by omega, h⟩
  · rintro ⟨j, hj, h⟩
    obtain rfl : j = 0 := by omega
    exact h

/-- Or-ing in a copy shifted by the present width doubles the width. -/
theorem Spread.double {x y : BitVec w} {d : ℕ} (h : Spread x y d) :
    Spread x (y ||| y >>> d) (2 * d) := by
  intro i
  rw [BitVec.getLsbD_or, BitVec.getLsbD_ushiftRight, Bool.or_eq_true, h i, h (d + i)]
  constructor
  · rintro (⟨j, hj, hx⟩ | ⟨j, hj, hx⟩)
    · exact ⟨j, by omega, hx⟩
    · exact ⟨d + j, by omega, by rwa [show i + (d + j) = d + i + j by omega]⟩
  · rintro ⟨j, hj, hx⟩
    by_cases low : j < d
    · exact Or.inl ⟨j, low, hx⟩
    · exact Or.inr ⟨j - d, by omega, by rwa [show d + i + (j - d) = i + j by omega]⟩

/-- Spread over the whole word, a bit is set exactly below the length of `x`. -/
theorem Spread.bit_iff {x y : BitVec w} (h : Spread x y w) (i : ℕ) :
    y.getLsbD i = true ↔ i < x.toNat.size := by
  rw [h i, Nat.lt_size]
  constructor
  · rintro ⟨j, -, hx⟩
    rw [← BitVec.testBit_toNat] at hx
    exact (Nat.pow_le_pow_right (by omega) (by omega)).trans (Nat.ge_two_pow_of_testBit hx)
  · intro large
    have hpos : x.toNat ≠ 0 := by
      have := Nat.two_pow_pos i
      omega
    have top : x.toNat.testBit x.toNat.log2 = true := Nat.testBit_log2 hpos
    have hi : i ≤ x.toNat.log2 := (Nat.le_log2 hpos).mpr large
    have hw : x.toNat.log2 < w := (Nat.log2_lt hpos).mpr x.isLt
    refine ⟨x.toNat.log2 - i, by omega, ?_⟩
    rwa [show i + (x.toNat.log2 - i) = x.toNat.log2 by omega, ← BitVec.testBit_toNat]

theorem Spread.toNat_eq {x y : BitVec w} (h : Spread x y w) :
    y.toNat = 2 ^ x.toNat.size - 1 := by
  apply Nat.eq_of_testBit_eq
  intro i
  rw [Nat.testBit_two_pow_sub_one, BitVec.testBit_toNat, Bool.eq_iff_iff, h.bit_iff,
    decide_eq_true_iff]

/-- The length of `n - 1` names the least power of two that reaches `n`. -/
theorem le_two_pow_iff {n k : ℕ} (hn : 0 < n) : n ≤ 2 ^ k ↔ (n - 1).size ≤ k := by
  rw [Nat.size_le]
  omega

/-- Below a number that is no power of two there is a power whose bit its mask lacks. -/
theorem exists_clear_bit {n : ℕ} (hn : ∀ k, n ≠ 2 ^ k) (hpos : 1 < n) :
    ∃ b, 2 ^ b < n ∧ 2 ^ b &&& (n - 1) = 0 := by
  have top : n - 1 < 2 ^ (n - 1).size := Nat.lt_size_self _
  have hole : ∃ b, b < (n - 1).size ∧ (n - 1).testBit b = false := by
    by_contra full
    simp only [not_exists, not_and, Bool.not_eq_false] at full
    have mask : n - 1 = 2 ^ (n - 1).size - 1 := by
      apply Nat.eq_of_testBit_eq
      intro i
      rw [Nat.testBit_two_pow_sub_one]
      by_cases inside : i < (n - 1).size
      · simpa [inside] using full i inside
      · have outside : n - 1 < 2 ^ i := Nat.size_le.mp (by omega)
        simp [inside, Nat.testBit_lt_two_pow outside]
    exact hn (n - 1).size (by omega)
  obtain ⟨b, inside, clear⟩ := hole
  refine ⟨b, ?_, ?_⟩
  · have := Nat.lt_size.mp inside
    omega
  · rw [Nat.two_pow_and, clear, Bool.toNat_false, Nat.mul_zero]

/-- A mask of `k` ones reduces a wrapped counter modulo `2 ^ k`. -/
theorem toNat_and_mask {mask : BitVec w} {k : ℕ} (hk : k ≤ w) (hm : mask.toNat = 2 ^ k - 1)
    (n : ℕ) : (BitVec.ofNat w n &&& mask).toNat = n % 2 ^ k := by
  rw [BitVec.toNat_and, hm, Nat.and_two_pow_sub_one_eq_mod, BitVec.toNat_ofNat,
    Nat.mod_mod_of_dvd n (Nat.pow_dvd_pow 2 hk)]

/-- Such a mask is one below the word of its power, if that power is a word. -/
theorem and_mask_eq_umod {mask cap : BitVec w} {k : ℕ} (hm : mask.toNat = 2 ^ k - 1)
    (hc : cap.toNat = 2 ^ k) (x : BitVec w) : x &&& mask = x % cap := by
  apply BitVec.eq_of_toNat_eq
  rw [BitVec.toNat_and, BitVec.toNat_umod, hm, hc, Nat.and_two_pow_sub_one_eq_mod]

/-- A counter that wraps keeps its step modulo every power that divides the modulus. -/
theorem toNat_add_mod {k : ℕ} (hk : k ≤ w) (x : BitVec w) (n : ℕ) :
    (x + BitVec.ofNat w n).toNat % 2 ^ k = (x.toNat % 2 ^ k + n) % 2 ^ k := by
  have wraps : 2 ^ k ∣ 2 ^ w := Nat.pow_dvd_pow 2 hk
  rw [BitVec.toNat_add, BitVec.toNat_ofNat, Nat.add_mod_mod, Nat.mod_mod_of_dvd _ wraps,
    Nat.mod_add_mod]

/-- Two counters of one residue are a whole number of laps apart. -/
theorem eq_or_lap {cap a b : ℕ} (same : a % cap = b % cap) (hab : a ≤ b) :
    a = b ∨ a + cap ≤ b := by
  obtain ⟨d, hd⟩ := (Nat.modEq_iff_dvd' hab).mp same
  rcases Nat.eq_zero_or_pos d with rfl | hpos
  · left; omega
  · right
    have : cap ≤ cap * d := Nat.le_mul_of_pos_right cap hpos
    omega

/-- Counters less than one full wrap apart are told apart by their words. -/
theorem ofNat_inj_of_near {a b : ℕ} (hab : a ≤ b) (near : b < a + 2 ^ w)
    (same : BitVec.ofNat w a = BitVec.ofNat w b) : a = b := by
  have h : a % 2 ^ w = b % 2 ^ w := by
    simpa only [BitVec.toNat_ofNat] using congrArg BitVec.toNat same
  rcases eq_or_lap h hab with h | h <;> omega

end WordCounters
