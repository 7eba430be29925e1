import CppConcurrency.TimerCallbacks
import Mathlib.Algebra.Ring.Int.Defs

/-!
# How long the event loop sleeps

`timeToSleep()` subtracts in 64 bits and returns a `time_t`. The parameter of
`epoll_wait` that receives it is an `int` of 32 bits, so the difference is cut to its low
half. What is left of a positive difference is never too large, but its sign is bit 31 of
the difference, and a negative timeout means to sleep without limit.
-/

namespace Timers

open OrderedSets

universe u v

variable {Obj : Type v} {Task : Type u}

/-- The difference of two `time_t`; where it leaves 64 bits it is undefined. -/
def subtract (a b : ℤ) : Option ℤ := if -2 ^ 63 ≤ a - b ∧ a - b < 2 ^ 63 then some (a - b) else none

/-- `timeToSleep()`, with the clock reading `now`, which an empty set does not ask for. -/
def timeToSleep (s : State Obj Task) (o : Obj) (now : ℤ) : Option ℤ :=
  match s.map o with
  | [] => some (-1)
  | it :: _ => (subtract it.expireTime now).map fun diff => if diff > 0 then diff else 0

/-- The value as the `int timeout` of `epoll_wait`. -/
def timeout (s : State Obj Task) (o : Obj) (now : ℤ) : Option ℤ :=
  (timeToSleep s o now).map fun t => (BitVec.ofInt 32 t).toInt

/-- The loop sleeps without limit only if no timer is pending, and until no later than the
deadline of each pending timer. -/
def WakesInTime (s : State Obj Task) (o : Obj) (now : ℤ) : Prop :=
  ∃ t, timeout s o now = some t ∧ (t < 0 → s.map o = []) ∧
    ∀ n ∈ s.map o, 0 ≤ t ∧ t ≤ max 0 (n.expireTime - now)

/-- The low half of a number that is not negative, read as an `int`. -/
theorem toInt_low {diff : ℤ} (pos : 0 ≤ diff) :
    (0 ≤ (BitVec.ofInt 32 diff).toInt ↔ diff % 2 ^ 32 < 2 ^ 31) ∧ (BitVec.ofInt 32 diff).toInt ≤ diff := by
  rw [BitVec.toInt_ofInt, Int.bmod_def]
  omega

theorem first_is_earliest {s : State Obj Task} {o : Obj} {it : TimerNode Task}
    {rest : List (TimerNode Task)} (sorted : Sorted TimerNodeBase.lt sliced (s.map o))
    (first : s.map o = it :: rest) : ∀ n ∈ s.map o, it.expireTime ≤ n.expireTime := by
  intro n hn
  rw [first] at sorted hn
  rcases List.mem_cons.mp hn with rfl | later
  · exact Int.le_refl _
  · have before := TimerNodeBase.lt_iff.mp ((List.pairwise_cons.mp sorted).1 n later)
    change it.expireTime < n.expireTime ∨ it.expireTime = n.expireTime ∧ _ at before
    omega

/-- Where the timeout does not exceed what is left of the earliest timer, only its sign matters. -/
theorem in_time_iff {set : List (TimerNode Task)} {it : TimerNode Task} {t now : ℤ} (member : it ∈ set)
    (earliest : ∀ n ∈ set, it.expireTime ≤ n.expireTime) (short : t ≤ max 0 (it.expireTime - now)) :
    ((t < 0 → set = []) ∧ ∀ n ∈ set, 0 ≤ t ∧ t ≤ max 0 (n.expireTime - now)) ↔ 0 ≤ t := by
  constructor
  · rintro ⟨-, bounds⟩
    exact (bounds it member).1
  · intro awake
    refine ⟨fun wrong => absurd awake (Int.not_le.mpr wrong), fun n hn => ⟨awake, ?_⟩⟩
    have later := earliest n hn
    omega

/-- The loop wakes in time exactly when the earliest timer, if there is one, is due or
bit 31 of what is left until its deadline is clear, and the subtraction does not overflow. -/
theorem wakes_in_time_iff {s : State Obj Task} {o : Obj}
    (sorted : Sorted TimerNodeBase.lt sliced (s.map o)) (now : ℤ) :
    WakesInTime s o now ↔ ∀ it ∈ (s.map o).head?,
      (-2 ^ 63 ≤ it.expireTime - now ∧ it.expireTime - now < 2 ^ 63) ∧
        (it.expireTime ≤ now ∨ (it.expireTime - now) % 2 ^ 32 < 2 ^ 31) := by
  cases first : s.map o with
  | nil =>
    refine iff_of_true ⟨-1, by simp [timeout, timeToSleep, first], fun _ => first, ?_⟩ ?_
    · rw [first]
      exact fun n hn => (by cases hn)
    · exact fun n hn => (by cases hn)
  | cons it rest =>
    have earliest := first_is_earliest sorted first
    have member : it ∈ s.map o := by
      rw [first]
      exact List.mem_cons_self
    simp only [WakesInTime, timeout, timeToSleep, first, subtract, List.head?_cons,
      Option.mem_some_iff, forall_eq']
    rw [← first]
    by_cases fits : -2 ^ 63 ≤ it.expireTime - now ∧ it.expireTime - now < 2 ^ 63
    · simp only [if_pos fits, Option.map_some, Option.some.injEq, exists_eq_left']
      by_cases due : it.expireTime ≤ now
      · have zero : (BitVec.ofInt 32 0).toInt = 0 := by decide
        rw [if_neg (by omega), zero, in_time_iff member earliest (Int.le_max_left ..)]
        exact iff_of_true (Int.le_refl 0) ⟨fits, Or.inl due⟩
      · obtain ⟨sign, short⟩ := toInt_low (show 0 ≤ it.expireTime - now by omega)
        rw [if_pos (by omega), in_time_iff member earliest (by omega), sign, or_iff_right due]
        exact (and_iff_right fits).symm
    · rw [if_neg fits]
      refine iff_of_false ?_ fun bounds => fits bounds.1
      rintro ⟨t, ht, -⟩
      cases ht

/-- A timer that is due in a second. -/
theorem wakes_in_time_iff_second :
    WakesInTime (addTimer (machine (Fin 1) Unit 0).start 0 500 1000 ()).2 0 500 := by
  have sorted : Sorted TimerNodeBase.lt sliced
      ((addTimer (machine (Fin 1) Unit 0).start 0 500 1000 ()).2.map 0) := List.pairwise_singleton ..
  refine (wakes_in_time_iff sorted 500).mpr fun it first => ?_
  obtain rfl := Option.some.inj first
  decide

/-- A timer of 2^31 milliseconds, which is about 25 days, lets the loop sleep without limit. -/
theorem oversleeps : timeout (addTimer (machine (Fin 1) Unit 0).start 0 500 (2 ^ 31) ()).2 0 500 =
      some (-2 ^ 31) ∧
    ¬ WakesInTime (addTimer (machine (Fin 1) Unit 0).start 0 500 (2 ^ 31) ()).2 0 500 := by
  have cut : timeout (addTimer (machine (Fin 1) Unit 0).start 0 500 (2 ^ 31) ()).2 0 500 =
    some (-2 ^ 31) := by decide
  refine ⟨cut, ?_⟩
  rintro ⟨t, ht, limit, -⟩
  obtain rfl := Option.some.inj (cut.symm.trans ht)
  exact absurd (limit (by decide)) (by decide)

end Timers
