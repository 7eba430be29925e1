import CppConcurrency.Machines
import Mathlib.Algebra.BigOperators.Ring.List
import Mathlib.Data.Nat.Cast.Basic

/-!
# Potentials

A potential bounds how long a machine runs: every step is paid for by what the potential
loses or by what the step brings in. Where some step always lowers a potential, the
machine can always finish. Steps are counted over an interval of a run, because an
interval is what a single call sees.
-/

namespace Machines

namespace Machine

universe u v

variable {S : Type u} {L : Type v} {M : Machine S L}

namespace Run

variable (run : M.Run)

/-- What the steps from `i` on and before `j` cost together. -/
def total (cost : S → L → ℕ) (i j : ℕ) : ℕ :=
  ((List.range' i (j - i)).map fun k => cost (run.state k) (run.label k)).sum

/-- How many of the steps from `i` on and before `j` are of a kind. -/
def count (kind : S → L → Bool) (i j : ℕ) : ℕ := run.total (fun s l => (kind s l).toNat) i j

theorem total_self (cost : S → L → ℕ) (i : ℕ) : run.total cost i i = 0 := by
  rw [total, Nat.sub_self]
  rfl

theorem total_succ (cost : S → L → ℕ) {i j : ℕ} (hij : i ≤ j) :
    run.total cost i (j + 1) = run.total cost i j + cost (run.state j) (run.label j) := by
  rw [total, total, Nat.succ_sub hij, List.range'_concat, Nat.one_mul, Nat.add_sub_cancel' hij,
    List.map_append, List.sum_append, List.map_singleton, List.sum_singleton]

theorem total_add (cost cost' : S → L → ℕ) (i j : ℕ) :
    run.total (fun s l => cost s l + cost' s l) i j = run.total cost i j + run.total cost' i j :=
  List.sum_map_add ..

theorem total_mul (kind : S → L → Bool) (a i j : ℕ) :
    run.total (fun s l => a * (kind s l).toNat) i j = a * run.count kind i j :=
  List.sum_map_mul_left ..

/-- The potential rule. -/
theorem total_le (rank : S → ℕ) (pays brings : S → L → ℕ)
    (step : ∀ s l t, M.Reach s → M.next s l = some t → rank t + pays s l ≤ rank s + brings s l)
    {i j : ℕ} (hij : i ≤ j) (hj : j ≤ run.length) :
    rank (run.state j) + run.total pays i j ≤ rank (run.state i) + run.total brings i j := by
  induction j, hij using Nat.le_induction with
  | base => rw [total_self, total_self]
  | succ j hij ih =>
    have earlier := ih (by omega)
    have now := step _ _ _ (run.reach (Nat.le_of_succ_le hj)) (run.step j hj)
    rw [total_succ _ _ hij, total_succ _ _ hij]
    omega

theorem count_all (i j : ℕ) : run.count (fun _ _ => true) i j = j - i := by
  simp [count, total]

end Run

/-- Where something is left to do, a step that meets `C` keeps `P` and lowers the
potential: such steps finish the work, and `P` still holds. -/
theorem ReachBy.finish_keeping (rank : S → ℕ) (P Done : S → Prop) {C : S → L → Prop}
    (step : ∀ s, M.ReachBy C s → P s → ¬ Done s →
      ∃ l t, C s l ∧ M.next s l = some t ∧ P t ∧ rank t < rank s)
    {s : S} (reached : M.ReachBy C s) (now : P s) :
    ∃ ls t, M.exec s ls = some t ∧ M.ReachBy C t ∧ P t ∧ Done t := by
  induction left : rank s using Nat.strong_induction_on generalizing s with
  | h n ih =>
    by_cases done : Done s
    · exact ⟨[], s, rfl, reached, now, done⟩
    · obtain ⟨l, t, meets, hs, kept, lower⟩ := step s reached now done
      obtain ⟨ls, u, run, reached', kept', done'⟩ :=
        ih _ (left ▸ lower) (reached.next meets hs) kept rfl
      exact ⟨l :: ls, u, (M.exec_step hs ls).trans run, reached', kept', done'⟩

/-- From every reachable state such steps finish the work. -/
theorem ReachBy.finish (rank : S → ℕ) (Done : S → Prop) {C : S → L → Prop}
    (step : ∀ s, M.ReachBy C s → ¬ Done s →
      ∃ l t, C s l ∧ M.next s l = some t ∧ rank t < rank s)
    {s : S} (reached : M.ReachBy C s) :
    ∃ ls t, M.exec s ls = some t ∧ M.ReachBy C t ∧ Done t := by
  obtain ⟨ls, t, run, reached', -, done⟩ := reached.finish_keeping rank (fun _ => True) Done
    (fun s reached _ unfinished => by
      obtain ⟨l, t, meets, hs, lower⟩ := step s reached unfinished
      exact ⟨l, t, meets, hs, trivial, lower⟩) trivial
  exact ⟨ls, t, run, reached', done⟩

end Machine

end Machines
