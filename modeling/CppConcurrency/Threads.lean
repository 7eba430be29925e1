import Mathlib.Algebra.BigOperators.Group.Finset.Basic
import Mathlib.Algebra.Order.BigOperators.Group.Finset
import Mathlib.Data.Fintype.Basic
import Mathlib.Data.Nat.Cast.Basic

/-!
# Locks and head counts over a family of program counters

The control state of a multi-threaded program is a function from threads to program
counters, and a step updates it at one thread. A mutex is sound when its owner is the
thread whose program counter lies inside the critical section. A head count is the
number of threads whose program counter lies in a set, and a step moves it by the
difference at the one thread that moved.
-/

namespace Threads

universe u v

variable {Tid : Type u} {C : Type v} {owner : Option Tid} {pc : Tid → C} {inside : C → Bool}

/-- The owner of a mutex is exactly the thread inside its critical section. -/
def Guards (owner : Option Tid) (pc : Tid → C) (inside : C → Bool) : Prop :=
  ∀ t, owner = some t ↔ inside (pc t) = true

namespace Guards

theorem alone (h : Guards owner pc inside) {t u : Tid} (mine : inside (pc t) = true)
    (other : u ≠ t) : inside (pc u) = false := by
  by_contra yours
  have ht := (h t).mpr mine
  have hu := (h u).mpr (by simpa using yours)
  rw [ht] at hu
  exact other (Option.some.inj hu).symm

theorem free (h : Guards none pc inside) (t : Tid) : inside (pc t) = false := by
  by_contra yours
  have := (h t).mpr (by simpa using yours)
  cases this

variable [DecidableEq Tid] {t : Tid} {c : C}

theorem keep (h : Guards owner pc inside) (same : inside c = inside (pc t)) :
    Guards owner (Function.update pc t c) inside := by
  intro u
  by_cases here : u = t
  · subst here
    rw [Function.update_self, same]
    exact h u
  · rw [Function.update_of_ne here]
    exact h u

theorem acquire (h : Guards none pc inside) (enter : inside c = true) :
    Guards (some t) (Function.update pc t c) inside := by
  intro u
  by_cases here : u = t
  · subst here
    rw [Function.update_self]
    exact iff_of_true rfl enter
  · rw [Function.update_of_ne here, h.free u]
    exact iff_of_false (fun e => here (Option.some.inj e).symm) Bool.false_ne_true

theorem release (h : Guards owner pc inside) (mine : inside (pc t) = true)
    (leave : inside c = false) : Guards none (Function.update pc t c) inside := by
  intro u
  by_cases here : u = t
  · subst here
    rw [Function.update_self, leave]
    exact iff_of_false (by simp) Bool.false_ne_true
  · rw [Function.update_of_ne here, h.alone mine here]
    exact iff_of_false (by simp) Bool.false_ne_true

end Guards

/-! ### Some thread -/

section Somebody

variable [DecidableEq Tid] {t : Tid} {c : C}

omit [DecidableEq Tid] in
theorem exists_thread (t : Tid) {P : Tid → Prop} : (∃ u, P u) ↔ (∃ u, u ≠ t ∧ P u) ∨ P t := by
  constructor
  · rintro ⟨u, hu⟩
    by_cases here : u = t
    · exact Or.inr (here ▸ hu)
    · exact Or.inl ⟨u, here, hu⟩
  · rintro (⟨u, -, hu⟩ | ht)
    · exact ⟨u, hu⟩
    · exact ⟨t, ht⟩

theorem exists_update {P : C → Prop} :
    (∃ u, P (Function.update pc t c u)) ↔ (∃ u, u ≠ t ∧ P (pc u)) ∨ P c := by
  rw [exists_thread t, Function.update_self]
  refine or_congr_left (exists_congr fun u => and_congr_right fun other => ?_)
  rw [Function.update_of_ne other]

/-- The thread that moves is in `P` before and after, or neither. -/
theorem exists_update_same {P : C → Prop} (same : P c ↔ P (pc t)) :
    (∃ u, P (Function.update pc t c u)) ↔ ∃ u, P (pc u) := by
  rw [exists_update, exists_thread t (P := fun u => P (pc u)), same]

theorem exists_update_join {P : C → Prop} (off : ¬ P (pc t)) :
    (∃ u, P (Function.update pc t c u)) ↔ (∃ u, P (pc u)) ∨ P c := by
  rw [exists_update, exists_thread t (P := fun u => P (pc u)), or_iff_left off]

theorem exists_update_leave {P : C → Prop} (off : ¬ P c) :
    (∃ u, P (pc u)) ↔ (∃ u, P (Function.update pc t c u)) ∨ P (pc t) := by
  rw [exists_update, exists_thread t (P := fun u => P (pc u)), or_iff_left off]

end Somebody

/-! ### Footprints -/

/-- What a program counter may write to and what it only reads. -/
structure Footprint (R : Type*) where
  writes : List R
  reads : List R

/-- Nothing that one of them writes is written or read by the other. -/
def Footprint.Apart {R : Type*} (f g : Footprint R) : Prop :=
  (∀ x ∈ f.writes, x ∉ g.writes ∧ x ∉ g.reads) ∧ ∀ x ∈ f.reads, x ∉ g.writes

instance {R : Type*} [DecidableEq R] (f g : Footprint R) : Decidable (f.Apart g) :=
  inferInstanceAs (Decidable (_ ∧ _))

theorem Footprint.apart_of_empty {R : Type*} (f : Footprint R) :
    (⟨[], []⟩ : Footprint R).Apart f := by
  constructor
  · intro x hx
    cases hx
  · intro x hx
    cases hx

theorem Footprint.Apart.symm {R : Type*} {f g : Footprint R} (h : f.Apart g) : g.Apart f := by
  constructor
  · intro x hx
    exact ⟨fun write => (h.1 x write).1 hx, fun read => h.2 x read hx⟩
  · intro x hx write
    exact (h.1 x write).2 hx

/-- No two threads run on common ground that one of them writes. -/
def Separated {R : Type*} (foot : C → Footprint R) (pc : Tid → C) : Prop :=
  ∀ t u, t ≠ u → (foot (pc t)).Apart (foot (pc u))

theorem Separated.update {R : Type*} {foot : C → Footprint R} (h : Separated foot pc)
    [DecidableEq Tid] {t : Tid} {c : C}
    (free : ∀ u, u ≠ t → (foot c).Apart (foot (pc u))) :
    Separated foot (Function.update pc t c) := by
  intro u v different
  by_cases hu : u = t
  · subst hu
    rw [Function.update_self, Function.update_of_ne (Ne.symm different)]
    exact free v (Ne.symm different)
  · rw [Function.update_of_ne hu]
    by_cases hv : v = t
    · subst hv
      rw [Function.update_self]
      exact (free u hu).symm
    · rw [Function.update_of_ne hv]
      exact h u v different

/-- One thread moves: the sum changes by what it held and what it holds now. -/
theorem sum_update [Fintype Tid] [DecidableEq Tid] (weight : C → ℕ) (pc : Tid → C) (t : Tid) (c : C) :
    ∑ u, weight (Function.update pc t c u) + weight (pc t) = ∑ u, weight (pc u) + weight c := by
  have others : ∑ u ∈ Finset.univ.erase t, weight (Function.update pc t c u) =
      ∑ u ∈ Finset.univ.erase t, weight (pc u) := by
    apply Finset.sum_congr rfl
    intro u hu
    rw [Function.update_of_ne (Finset.ne_of_mem_erase hu)]
  rw [← Finset.sum_erase_add _ _ (Finset.mem_univ t), others, Function.update_self,
    ← Finset.sum_erase_add Finset.univ (fun u => weight (pc u)) (Finset.mem_univ t)]
  omega

/-- A step of thread `t` changes what the thread holds, and adds at most `c` to each of
the others. -/
theorem sum_step [Fintype Tid] [DecidableEq Tid] {f g : Tid → ℕ} (t : Tid) {a b c : ℕ} (own : g t + a ≤ f t + b)
    (others : ∀ u, u ≠ t → g u ≤ f u + c) :
    ∑ u, g u + a ≤ ∑ u, f u + b + (Fintype.card Tid - 1) * c := by
  have rest : ∑ u ∈ Finset.univ.erase t, g u ≤ ∑ u ∈ Finset.univ.erase t, (f u + c) :=
    Finset.sum_le_sum fun u hu => others u (Finset.ne_of_mem_erase hu)
  rw [Finset.sum_add_distrib, Finset.sum_const, Finset.card_erase_of_mem (Finset.mem_univ t),
    Finset.card_univ, nsmul_eq_mul, Nat.cast_id] at rest
  rw [← Finset.add_sum_erase _ g (Finset.mem_univ t), ← Finset.add_sum_erase _ f (Finset.mem_univ t)]
  omega

/-! ### Head counts -/

section Census

variable [Fintype Tid] (p : C → Bool)

/-- How many threads are in `p`. -/
def census (pc : Tid → C) : ℕ := ∑ t, (p (pc t)).toNat

theorem census_update [DecidableEq Tid] (pc : Tid → C) (t : Tid) (c : C) :
    census p (Function.update pc t c) + (p (pc t)).toNat = census p pc + (p c).toNat := by
  have others : ∑ u ∈ Finset.univ.erase t, (p (Function.update pc t c u)).toNat =
      ∑ u ∈ Finset.univ.erase t, (p (pc u)).toNat := by
    apply Finset.sum_congr rfl
    intro u hu
    rw [Function.update_of_ne (Finset.ne_of_mem_erase hu)]
  have before := Finset.sum_erase_add Finset.univ (fun u => (p (pc u)).toNat) (Finset.mem_univ t)
  have after := Finset.sum_erase_add Finset.univ
    (fun u => (p (Function.update pc t c u)).toNat) (Finset.mem_univ t)
  simp only [Function.update_self] at after
  simp only [census]
  omega

/-- Two updates that balance out. -/
theorem census_update_two [DecidableEq Tid] (pc : Tid → C) {t u : Tid} (different : t ≠ u) (c d : C)
    (balanced : (p c).toNat + (p d).toNat = (p (pc t)).toNat + (p (pc u)).toNat) :
    census p (Function.update (Function.update pc t c) u d) = census p pc := by
  have first := census_update p pc t c
  have second := census_update p (Function.update pc t c) u d
  rw [Function.update_of_ne (Ne.symm different)] at second
  omega

theorem census_eq_zero {pc : Tid → C} : census p pc = 0 ↔ ∀ t, p (pc t) = false := by
  simp [census, Finset.sum_eq_zero_iff]

theorem census_pos {pc : Tid → C} {t : Tid} (h : p (pc t) = true) : 0 < census p pc := by
  apply Nat.pos_of_ne_zero
  intro none
  rw [(census_eq_zero p).mp none t] at h
  cases h

end Census

end Threads
