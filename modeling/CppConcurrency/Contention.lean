import CppConcurrency.Potentials
import CppConcurrency.Threads

/-!
# Threads that race for claims

Calls prepare a claim, lose it to other calls and try again. When a lost claim sets a call
back by a bounded number of steps, the steps of a call are paid for by the claims of the
others. Pricing a claim at what it costs all the others makes the steps of all threads
paid for by the calls that were made.
-/

namespace Machines

universe u v w

variable {S : Type u} {L : Type v} {Tid : Type w} [DecidableEq Tid]

/-- Of the steps of a kind, those that `u` makes. -/
def ofThread (thread : L → Tid) (u : Tid) (kind : S → L → Bool) (s : S) (l : L) : Bool :=
  decide (thread l = u) && kind s l

/-- Of the steps of a kind, those that the other threads make. -/
def ofOthers (thread : L → Tid) (u : Tid) (kind : S → L → Bool) (s : S) (l : L) : Bool :=
  !decide (thread l = u) && kind s l

/-- `work price s u` is what is left to the call of `u` with no one in its way, its claim
priced at `price`. A claim delays each of the others by `delay`, and a claim that `fails`
for no reason is tried again at the cost of `retry`. -/
structure Contention (M : Machine S L) (Tid : Type w) [DecidableEq Tid] where
  thread : L → Tid
  useful : S → L → Bool
  invokes : S → L → Bool
  claims : S → L → Bool
  fails : S → L → Bool
  base : ℕ
  setup : ℕ
  delay : ℕ
  retry : ℕ
  work : ℕ → S → Tid → ℕ
  start : ∀ price u, work price M.start u = 0
  own : ∀ price s l t, base ≤ price → M.next s l = some t →
    work price t (thread l) + ((useful s l).toNat + (price - base) * (claims s l).toNat) ≤
      work price s (thread l) + ((price + setup) * (invokes s l).toNat + retry * (fails s l).toNat)
  other : ∀ price s l t u, base ≤ price → M.next s l = some t → u ≠ thread l →
    work price t u ≤ work price s u + delay * (claims s l).toNat

namespace Contention

variable {M : Machine S L} (K : Contention M Tid) (run : M.Run)

theorem steps_of_thread (u : Tid) {i j : ℕ} (hij : i ≤ j) (hj : j ≤ run.length) :
    run.count (ofThread K.thread u K.useful) i j ≤
      K.work K.base (run.state i) u +
        (K.base + K.setup) * run.count (ofThread K.thread u K.invokes) i j +
        K.retry * run.count (ofThread K.thread u K.fails) i j +
        K.delay * run.count (ofOthers K.thread u K.claims) i j := by
  have paid := run.total_le (fun s => K.work K.base s u)
    (fun s l => (ofThread K.thread u K.useful s l).toNat)
    (fun s l => (K.base + K.setup) * (ofThread K.thread u K.invokes s l).toNat +
      K.retry * (ofThread K.thread u K.fails s l).toNat +
      K.delay * (ofOthers K.thread u K.claims s l).toNat)
    (fun s l s' _ hs => ?_) hij hj
  · rw [Machine.Run.total_add, Machine.Run.total_add, Machine.Run.total_mul, Machine.Run.total_mul,
      Machine.Run.total_mul] at paid
    rw [Machine.Run.count]
    omega
  · by_cases mine : K.thread l = u
    · subst mine
      have own := K.own K.base s l s' (Nat.le_refl _) hs
      simp only [ofThread, ofOthers, decide_true, Bool.true_and, Bool.not_true, Bool.false_and,
        Bool.toNat_false]
      omega
    · have other := K.other K.base s l s' u (Nat.le_refl _) hs (Ne.symm mine)
      simp only [ofThread, ofOthers, mine, decide_false, Bool.false_and, Bool.toNat_false,
        Bool.not_false, Bool.true_and]
      omega

/-- What a claim costs all the others, and the call that makes it. -/
def price [Fintype Tid] : ℕ := K.delay * (Fintype.card Tid - 1) + K.base

/-- Priced so, the claims pay for the delays. -/
theorem step_of_all [Fintype Tid] {s t : S} {l : L} (hs : M.next s l = some t) :
    ∑ u, K.work K.price t u + (K.useful s l).toNat ≤
      ∑ u, K.work K.price s u +
        ((K.price + K.setup) * (K.invokes s l).toNat + K.retry * (K.fails s l).toNat) := by
  have enough : K.base ≤ K.price := Nat.le_add_left _ _
  have moved := Threads.sum_step (K.thread l) (K.own K.price s l t enough hs)
    fun u other => K.other K.price s l t u enough hs other
  have claims : (K.price - K.base) * (K.claims s l).toNat =
      (Fintype.card Tid - 1) * (K.delay * (K.claims s l).toNat) := by
    rw [price, Nat.add_sub_cancel, Nat.mul_comm K.delay, Nat.mul_assoc]
  omega

theorem steps_of_all [Fintype Tid] :
    run.count K.useful 0 run.length ≤
      (K.price + K.setup) * run.count K.invokes 0 run.length +
        K.retry * run.count K.fails 0 run.length := by
  have paid := run.total_le (fun s => ∑ u, K.work K.price s u) (fun s l => (K.useful s l).toNat)
    (fun s l => (K.price + K.setup) * (K.invokes s l).toNat + K.retry * (K.fails s l).toNat)
    (fun s l s' _ hs => K.step_of_all hs) (Nat.zero_le _) (Nat.le_refl _)
  rw [Machine.Run.total_add, Machine.Run.total_mul, Machine.Run.total_mul, run.start,
    Finset.sum_eq_zero fun u _ => K.start K.price u] at paid
  rw [Machine.Run.count]
  omega

/-- Where a useful step of the calls that run is left until `Done`, it can be reached. -/
theorem finish [Fintype Tid] (Done : S → Prop)
    (step : ∀ s, M.Reach s → ¬ Done s → ∃ l t, M.next s l = some t ∧
      K.useful s l = true ∧ K.invokes s l = false ∧ K.fails s l = false)
    {s : S} (reached : M.Reach s) : ∃ ls t, M.exec s ls = some t ∧ Done t := by
  have lowers : ∀ s, M.Reach s → ¬ Done s → ∃ l t, True ∧ M.next s l = some t ∧
      ∑ u, K.work K.price t u < ∑ u, K.work K.price s u := by
    intro s reached unfinished
    obtain ⟨l, t, hs, useful, noCall, noFailure⟩ := step s reached unfinished
    have paid := K.step_of_all hs
    rw [useful, noCall, noFailure, Bool.toNat_true, Bool.toNat_false] at paid
    exact ⟨l, t, trivial, hs, by omega⟩
  obtain ⟨ls, t, run, -, done⟩ := reached.finish _ Done lowers
  exact ⟨ls, t, run, done⟩

end Contention

end Machines
