import CppConcurrency.LockFreeArrayQueueSafety

/-!
# When `Push_CAS` and `Pop_CAS` fail

Both load the write index first and the read index later, and neither index ever
decreases. For a push the older write index makes the queue look emptier than it is, so
a push that is refused found the queue full. For a pop it makes the queue look emptier
as well, and `IsEmpty` takes a write index behind the read index for an empty queue:
a pop is refused also when pops have taken all that was in at its first load while
pushes brought in more.
-/

namespace LockFreeArray

open Machines PhasedRings

universe u v

variable {E : Type u} {Tid : Type v} {k : ℕ}

/-- The call returned false. -/
def Call.refused : Call E → Bool
  | .pushReturn false | .popReturn none => true
  | _ => false

/-- The write index of a call that has loaded it and not yet loaded the read index. -/
def Call.loaded : Call E → Option ℕ
  | .pushLoadRead _ write | .popLoadRead write => some write
  | _ => none

/-- A load of the write index, which the call then holds. -/
inductive Call.Loads : Call E → ℕ → Call E → Prop where
  | push (e : E) (write : ℕ) : Loads (.pushLoadWrite e) write (.pushLoadRead e write)
  | pop (write : ℕ) : Loads .popLoadWrite write (.popLoadRead write)

/-- The call has won a compare-exchange. -/
def Call.claimed : Call E → Bool
  | .pushWait _ _ | .pushStore _ _ | .pushMark _ | .pushReturn true => true
  | .popWait _ | .popTake _ | .popLeave _ _ | .popMark _ _ | .popReturn (some _) => true
  | _ => false

theorem Call.refused_iff {call : Call E} :
    call.refused = true ↔ call = .pushReturn false ∨ call = .popReturn none := by
  constructor
  · intro refused
    cases call with
    | pushReturn ok =>
      cases ok with
      | false => exact Or.inl rfl
      | true => cases refused
    | popReturn e =>
      cases e with
      | none => exact Or.inr rfl
      | some e => cases refused
    | _ => cases refused
  · rintro (rfl | rfl)
    · rfl
    · rfl

theorem Call.atRest_of_refused {call : Call E} (refused : call.refused = true) :
    call.atRest = true := by
  rcases refused_iff.mp refused with rfl | rfl
  · rfl
  · rfl

theorem Call.unclaimed_of_refused {call : Call E} (refused : call.refused = true) :
    call.claimed = false := by
  rcases refused_iff.mp refused with rfl | rfl
  · rfl
  · rfl

/-- Each push that returns false was invoked before and returned after a moment at which
the write index was the queue's size ahead of the read index. -/
def PushRefusedWhenFull (Tid : Type v) [DecidableEq Tid] (moved : E → E)
    (q : LockFreeArrayQueue E) : Prop :=
  ∀ (run : (machine Tid moved q).Run) t op i j, Span run t op i j →
    (run.state j).call t = .pushReturn false →
    ∃ m, i ≤ m ∧ m ≤ j ∧
      (run.state m).q.writeIndex = (run.state m).q.readIndex + (run.state m).q.maxQueueSize

def PopRefusedWhenEmpty (Tid : Type v) [DecidableEq Tid] (moved : E → E)
    (q : LockFreeArrayQueue E) : Prop :=
  ∀ (run : (machine Tid moved q).Run) t op i j, Span run t op i j →
    (run.state j).call t = .popReturn none →
    ∃ m, i ≤ m ∧ m ≤ j ∧ (run.state m).q.writeIndex = (run.state m).q.readIndex

/-! ### What one step does to a call -/

section Steps

variable [DecidableEq Tid] {moved : E → E} {s s' : State Tid E} {t : Tid} {l : Label Tid E}

/-- What a call holds it held before, or this step has loaded it. -/
theorem next_loaded (hs : next moved s l = some s') {write : ℕ}
    (loaded : (s'.call t).loaded = some write) :
    s'.call t = s.call t ∨
      l = .step t ∧ s.q.writeIndex = write ∧ (s.call t).Loads write (s'.call t) := by
  by_cases other : t ≠ l.thread
  · exact Or.inl (next_other hs other)
  rw [not_not] at other
  subst other
  cases next_step hs with
  | invoke rest op =>
    simp only [State.setCall, Label.thread, Function.update_self] at loaded
    cases op <;> cases loaded
  | @move t call moves =>
    simp only [State.setCall, Label.thread, Function.update_self] at loaded ⊢
    generalize s.call t = before at moves
    cases moves with
    | pushLoadWrite e =>
      obtain rfl := Option.some.inj loaded
      exact Or.inr ⟨trivial, rfl, .push e _⟩
    | popLoadWrite =>
      obtain rfl := Option.some.inj loaded
      exact Or.inr ⟨trivial, rfl, .pop _⟩
    | _ => cases loaded
  | pushClaim | pushStore | pushMark | popClaim | popTake | popLeave | popMark =>
    simp only [Label.thread, Function.update_self] at loaded
    cases loaded

/-- A running call is refused by its own second load and by nothing else. -/
theorem next_refused (hs : next moved s l = some s') (running : (s.call t).atRest = false)
    (refused : (s'.call t).refused = true) :
    l = .step t ∧ ∃ write, (s.call t).loaded = some write ∧
      ((s'.call t = .pushReturn false ∧ s.q.isFull write s.q.readIndex = true) ∨
        (s'.call t = .popReturn none ∧ s.call t = .popLoadRead write ∧
          LockFreeArrayQueue.isEmpty write s.q.readIndex = true)) := by
  have own : t = l.thread := by
    by_contra other
    rw [next_other hs other] at refused
    rw [Call.atRest_of_refused refused] at running
    cases running
  subst own
  cases next_step hs with
  | invoke rest op =>
    exact absurd (running.symm.trans rest) Bool.false_ne_true
  | @move t call moves =>
    refine ⟨rfl, ?_⟩
    simp only [State.setCall, Label.thread, Function.update_self] at refused ⊢
    generalize hc : s.call t = before at moves
    cases moves with
    | pushFull full => exact ⟨_, rfl, Or.inl ⟨rfl, full⟩⟩
    | popEmpty empty => exact ⟨_, rfl, Or.inr ⟨rfl, rfl, empty⟩⟩
    | _ => cases refused
  | pushClaim | pushStore | pushMark | popClaim | popTake | popLeave | popMark =>
    simp only [Label.thread, Function.update_self] at refused
    cases refused

/-- A call that has claimed an index does not lose it. -/
theorem next_claimed (hs : next moved s l = some s') (running : (s.call t).atRest = false)
    (claimed : (s.call t).claimed = true) : (s'.call t).claimed = true := by
  by_cases other : t ≠ l.thread
  · rw [next_other hs other]
    exact claimed
  rw [not_not] at other
  subst other
  cases next_step hs with
  | invoke rest op =>
    exact absurd (running.symm.trans rest) Bool.false_ne_true
  | @move t call moves =>
    simp only [State.setCall, Label.thread, Function.update_self] at claimed ⊢
    generalize hc : s.call t = before at moves claimed
    cases moves with
    | pushSpin | pushReady | popSpin | popReady => rfl
    | _ => cases claimed
  | pushClaim | pushStore | pushMark | popClaim | popTake | popLeave | popMark =>
    simp only [Label.thread, Function.update_self]
    rfl

/-- The steps of a call that has claimed no index change nothing but the call. -/
theorem next_unclaimed (hs : next moved s l = some s')
    (unclaimed : (s'.call l.thread).claimed = false) :
    s' = s.setCall l.thread (s'.call l.thread) := by
  cases next_step hs with
  | invoke | move => simp [State.setCall, Label.thread]
  | pushClaim | pushStore | pushMark | popClaim | popTake | popLeave | popMark =>
    simp only [Label.thread, Function.update_self] at unclaimed
    cases unclaimed

theorem next_writeIndex (hs : next moved s l = some s') : s.q.writeIndex ≤ s'.q.writeIndex := by
  cases next_step hs with
  | pushClaim hc same => exact same ▸ Nat.le_succ _
  | invoke | move | pushStore | pushMark | popClaim | popTake | popLeave | popMark =>
    exact Nat.le_refl _

end Steps

/-! ### Refusals in a run -/

section Runs

variable [DecidableEq Tid] {moved : E → E} {q : LockFreeArrayQueue E}
  {run : (machine Tid moved q).Run} {t : Tid} {op : Op E} {i j : ℕ}

/-- The write index a call holds was loaded by a step of the call, and the call has stood
where it is since. -/
theorem Span.loaded (span : Span run t op i j) {m : ℕ} (him : i < m) (hmj : m ≤ j) {write : ℕ}
    (loaded : ((run.state m).call t).loaded = some write) :
    ∃ l, i < l ∧ l < m ∧ run.label l = .step t ∧ (run.state l).q.writeIndex = write ∧
      ((run.state l).call t).Loads write ((run.state m).call t) ∧
      ∀ n, l < n → n ≤ m → (run.state n).call t = (run.state m).call t := by
  have inside := span.inside
  have empty : (run.state (i + 1)).call t ≠ (run.state m).call t := by
    intro same
    rw [← same, span.begins] at loaded
    cases op <;> cases loaded
  obtain ⟨l, hil, hlm, moved, stays⟩ :=
    run.since (P := fun s => s.call t = (run.state m).call t) him empty rfl
  have after := stays (l + 1) (Nat.lt_succ_self l) hlm
  obtain ⟨own, now, loads⟩ := (next_loaded (run.step l (by omega))
    (after ▸ loaded)).resolve_left fun same => moved (same.symm.trans after)
  exact ⟨l, hil, hlm, own, now, after ▸ loads, stays⟩

/-- What a call has claimed it still has when it returns. -/
theorem Span.claimed (span : Span run t op i j) {m : ℕ} (him : i < m) (hmj : m ≤ j)
    (claimed : ((run.state m).call t).claimed = true) :
    ((run.state j).call t).claimed = true := by
  have inside := span.inside
  have kept : ∀ n, m ≤ n → n ≤ j → ((run.state n).call t).claimed = true := by
    intro n low
    induction n, low using Nat.le_induction with
    | base => exact fun _ => claimed
    | succ n low ih =>
      intro high
      exact next_claimed (run.step n (by omega)) (span.running n (by omega) (by omega))
        (ih (by omega))
  exact kept j hmj le_rfl

/-- The own steps of a call that is refused change nothing but the call. -/
theorem Span.unchanged (span : Span run t op i j)
    (refused : ((run.state j).call t).refused = true) {m : ℕ} (him : i ≤ m) (hmj : m < j)
    (own : (run.label m).thread = t) :
    run.state (m + 1) = (run.state m).setCall t ((run.state (m + 1)).call t) := by
  have inside := span.inside
  have unclaimed : ((run.state (m + 1)).call t).claimed = false := by
    by_contra claimed
    have returned := span.claimed (by omega) (by omega) (Bool.eq_true_of_not_eq_false claimed)
    rw [Call.unclaimed_of_refused refused] at returned
    cases returned
  have hs : next moved (run.state m) (run.label m) = some (run.state (m + 1)) :=
    run.step m (by omega)
  rw [← own] at unclaimed ⊢
  exact next_unclaimed hs unclaimed

/-- The last attempt of a call of `t`: step `l` loads the write index, the call holds it until
step `m`, its last one, which loads the read index. -/
structure Attempt (run : (machine Tid moved q).Run) (t : Tid) (i j l m : ℕ) : Prop where
  inside : i < l
  order : l < m
  last : m + 1 = j
  first : run.label l = .step t
  second : run.label m = .step t
  loads : ((run.state l).call t).Loads (run.state l).q.writeIndex ((run.state m).call t)
  stays : ∀ n, l < n → n ≤ m → (run.state n).call t = (run.state m).call t

/-- The two loads of the attempt that refused the call. -/
theorem Span.last (span : Span run t op i j)
    (refused : ((run.state j).call t).refused = true) :
    ∃ l m, Attempt run t i j l m ∧
      (((run.state j).call t = .pushReturn false ∧
          (run.state m).q.isFull (run.state l).q.writeIndex (run.state m).q.readIndex = true) ∨
        ((run.state j).call t = .popReturn none ∧
          (run.state m).call t = .popLoadRead (run.state l).q.writeIndex ∧
          (run.state l).q.writeIndex ≤ (run.state m).q.readIndex)) := by
  have order := span.order
  have inside := span.inside
  have started : i + 1 ≠ j := by
    rintro rfl
    rw [span.begins] at refused
    cases op <;> cases refused
  obtain ⟨m, rfl⟩ : ∃ m, j = m + 1 := ⟨j - 1, by omega⟩
  obtain ⟨second, write, loaded, why⟩ :=
    next_refused (run.step m (by omega)) (span.running m (by omega) (by omega)) refused
  obtain ⟨l, hil, hlm, first, rfl, loads, stays⟩ := span.loaded (by omega) (by omega) loaded
  refine ⟨l, m, ⟨hil, hlm, rfl, first, second, loads, stays⟩, why.imp_right ?_⟩
  rintro ⟨returned, holds, empty⟩
  exact ⟨returned, holds, of_decide_eq_true empty⟩

variable (run) in
/-- The invariant's bounds on the indices, at every moment of a run. -/
theorem run_indices {lock : ℤ} {blank : E}
    (accepted : LockFreeArrayQueue.init lock blank (2 ^ k) = .ok q) {m : ℕ} (hm : m ≤ run.length) :
    (run.state m).q.maxQueueSize = 2 ^ k ∧
      (run.state m).q.readIndex ≤ (run.state m).q.writeIndex ∧
      (run.state m).q.writeIndex ≤ (run.state m).q.readIndex + 2 ^ k := by
  obtain ⟨R, h⟩ := reach_inv accepted (run.reach hm)
  have order := R.head_le_tail
  have near := R.tail_le
  refine ⟨h.size, ?_, ?_⟩
  · rw [h.writeIndex, h.readIndex]
    exact order
  · rw [h.writeIndex, h.readIndex]
    exact near

variable (run) in
theorem run_writeIndex {l m : ℕ} (hlm : l ≤ m) (hm : m ≤ run.length) :
    (run.state l).q.writeIndex ≤ (run.state m).q.writeIndex :=
  run.monotone (R := fun s s' => s.q.writeIndex ≤ s'.q.writeIndex) (fun _ => le_rfl)
    (fun _ _ _ => le_trans) (fun _ _ _ => next_writeIndex) hlm hm

/-- A push returns false only if at some moment of the call the queue was full; a pop only
if at some moment it was empty, or pushes claimed indices between the two loads of its last
attempt and pops claimed, by the second, every index below the write index of the first.
Either way the steps of the call changed nothing. -/
theorem fails_only_if {lock : ℤ} {blank : E}
    (accepted : LockFreeArrayQueue.init lock blank (2 ^ k) = .ok q) (span : Span run t op i j) :
    ((run.state j).call t = .pushReturn false →
      ∃ m, i < m ∧ m < j ∧
        (run.state m).q.writeIndex = (run.state m).q.readIndex + (run.state m).q.maxQueueSize) ∧
    ((run.state j).call t = .popReturn none →
      (∃ m, i < m ∧ m < j ∧ (run.state m).q.writeIndex = (run.state m).q.readIndex) ∨
        ∃ l m, i < l ∧ l < m ∧ m + 1 = j ∧
          (run.label l = .step t ∧ (run.state l).call t = .popLoadWrite) ∧
          (run.label m = .step t ∧ ∀ n, l < n → n ≤ m →
            (run.state n).call t = .popLoadRead (run.state l).q.writeIndex) ∧
          (run.state l).q.writeIndex < (run.state m).q.writeIndex ∧
          (run.state l).q.writeIndex ≤ (run.state m).q.readIndex) ∧
    (((run.state j).call t).refused = true → ∀ m, i ≤ m → m < j → (run.label m).thread = t →
      run.state (m + 1) = (run.state m).setCall t ((run.state (m + 1)).call t)) := by
  have inside := span.inside
  refine ⟨?_, ?_, fun refused m him hmj own => span.unchanged refused him hmj own⟩
  · intro returned
    obtain ⟨l, m, attempt, ⟨-, full⟩ | ⟨wrong, -⟩⟩ := span.last (by rw [returned]; rfl)
    · have hil := attempt.inside
      have hlm := attempt.order
      have hmj := attempt.last
      obtain ⟨size, -, near⟩ := run_indices run accepted (by omega : m ≤ run.length)
      have grow := run_writeIndex run hlm.le (by omega)
      -- the write index of this moment is at least the older one, and no further than the size
      have far := of_decide_eq_true full
      rw [size] at far
      refine ⟨m, by omega, by omega, ?_⟩
      rw [size]
      omega
    · rw [returned] at wrong
      cases wrong
  · intro returned
    obtain ⟨l, m, attempt, ⟨wrong, -⟩ | ⟨-, holds, empty⟩⟩ := span.last (by rw [returned]; rfl)
    · rw [returned] at wrong
      cases wrong
    · have hil := attempt.inside
      have hlm := attempt.order
      have hmj := attempt.last
      obtain ⟨-, order, -⟩ := run_indices run accepted (by omega : m ≤ run.length)
      have grow := run_writeIndex run hlm.le (by omega)
      rcases Nat.eq_or_lt_of_le grow with same | pushed
      · left
        exact ⟨m, by omega, by omega, by omega⟩
      · right
        have loads := attempt.loads
        rw [holds] at loads
        have before : (run.state l).call t = .popLoadWrite := by
          generalize (run.state l).call t = call at loads
          cases loads
          rfl
        exact ⟨l, m, hil, hlm, hmj, ⟨attempt.first, before⟩,
          ⟨attempt.second, fun n low high => (attempt.stays n low high).trans holds⟩, pushed, empty⟩

end Runs

/-- Two pushes claim the slots, and the third is refused. -/
def thirdPush : List (Label (Fin 3) ℕ) :=
  [.invoke 0 (.push 5), .step 0, .step 0, .step 0, .invoke 1 (.push 6), .step 1, .step 1, .step 1,
    .invoke 2 (.push 7), .step 2, .step 2]

def thirdPushRun : (machine (Fin 3) id twoSlots).Run :=
  .ofSchedule _ (.invoke 0 .pop) thirdPush (by decide)

/-- Thread 1 loads the write index 1, thread 0 pushes a second element, thread 2 claims the
first, and thread 1 loads the read index 1. -/
def popsBetween : List (Label (Fin 3) ℕ) :=
  .invoke 0 (.push 5) :: List.replicate 6 (.step 0) ++ [.invoke 1 .pop, .step 1] ++
    .invoke 0 (.push 6) :: List.replicate 6 (.step 0) ++
    [.invoke 2 .pop, .step 2, .step 2, .step 2, .step 1]

def popsBetweenRun : (machine (Fin 3) id twoSlots).Run :=
  .ofSchedule _ (.invoke 0 .pop) popsBetween (by decide)

theorem popsBetween_span : Span popsBetweenRun 1 .pop 7 21 := by
  have running : ∀ m, m < 21 → 7 < m → ((popsBetweenRun.state m).call 1).atRest = false := by
    decide
  exact ⟨by decide, by decide, rfl, fun m low high => running m high low, by decide⟩

theorem popsBetween_never {m : ℕ} (low : 7 ≤ m) (high : m < 22) :
    (popsBetweenRun.state m).q.writeIndex ≠ (popsBetweenRun.state m).q.readIndex := by
  have never : ∀ m, m < 22 → 7 ≤ m →
      (popsBetweenRun.state m).q.writeIndex ≠ (popsBetweenRun.state m).q.readIndex := by decide
  exact never m high low

/-- The third push finds the queue full, and the pop loads a write index that is behind the
read index. -/
theorem fails_only_if_third :
    ((thirdPushRun.state 11).call 2 = .pushReturn false ∧
      ∃ m, 8 < m ∧ m < 11 ∧ (thirdPushRun.state m).q.writeIndex =
        (thirdPushRun.state m).q.readIndex + (thirdPushRun.state m).q.maxQueueSize) ∧
    (popsBetweenRun.state 21).call 1 = .popReturn none ∧
      ∃ l, 7 < l ∧ l < 20 ∧ (popsBetweenRun.state l).call 1 = .popLoadWrite ∧
        (popsBetweenRun.state l).q.writeIndex < (popsBetweenRun.state 20).q.writeIndex ∧
        (popsBetweenRun.state l).q.writeIndex ≤ (popsBetweenRun.state 20).q.readIndex := by
  have accepted : LockFreeArrayQueue.init 0 0 (2 ^ 1) = .ok twoSlots := rfl
  constructor
  · have span : Span thirdPushRun 2 (.push 7) 8 11 := by
      refine ⟨by decide, by decide, rfl, ?_, by decide⟩
      intro m low high
      obtain rfl | rfl : m = 9 ∨ m = 10 := by omega
      · rfl
      · rfl
    have returned : (thirdPushRun.state 11).call 2 = .pushReturn false := rfl
    exact ⟨returned, (fails_only_if accepted span).1 returned⟩
  · have returned : (popsBetweenRun.state 21).call 1 = .popReturn none := rfl
    refine ⟨returned, ?_⟩
    obtain ⟨-, popped, -⟩ := fails_only_if accepted popsBetween_span
    rcases popped returned with ⟨m, low, high, empty⟩ | ⟨l, m, low, order, last, first, -, behind⟩
    · exact absurd empty (popsBetween_never (by omega) (by omega))
    · obtain rfl : m = 20 := by omega
      exact ⟨l, low, order, first.2, behind⟩

/-- A pop is refused although the queue is never empty during its call. -/
theorem pop_refused_not_empty : ¬ PopRefusedWhenEmpty (Fin 3) id twoSlots := by
  intro claim
  obtain ⟨m, low, high, empty⟩ := claim popsBetweenRun 1 .pop 7 21 popsBetween_span rfl
  exact popsBetween_never low (by omega) empty

end LockFreeArray
