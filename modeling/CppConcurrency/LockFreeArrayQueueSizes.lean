import CppConcurrency.LockFreeArrayQueueProgress

/-!
# `LockFreeArrayQueue` in CAS mode: the sizes that work

`Init` accepts every size from two on. With a power of two every call that runs can be
brought to its return. With any other size two indices less than a lap apart share a
slot: the push of the later one expects the marker of an unused slot, finds the slot
marked, and waits for a marker that is never written again.
-/

namespace LockFreeArray

open Machines Machine WordCounters

universe u v

variable {E : Type u} {Tid : Type v} [DecidableEq Tid] {moved : E → E} {s s' : State Tid E}
  {l : Label Tid E} {u : Tid} {lock : ℤ} {blank : E} {q : LockFreeArrayQueue E} {size : ℕ}

/-- From every reachable state, every call can be brought to return, or to the end of the
index's type. -/
def CallsReturn (Tid : Type v) [DecidableEq Tid] (moved : E → E) (blank : E) (lock : ℤ)
    (size : ℕ) : Prop :=
  ∀ q, LockFreeArrayQueue.init lock blank size = .ok q →
    ∀ s, (machine Tid moved q).Reach s → ∀ t,
      ∃ ls s', (machine Tid moved q).exec s ls = some s' ∧
        ((s'.call t).atRest = true ∨ s'.call t = .undefined)

theorem callsReturn_two_pow [Fintype Tid] (moved : E → E) (blank : E) (lock : ℤ) (k : ℕ) :
    CallsReturn Tid moved blank lock (2 ^ k) := by
  intro q accepted s reached t
  refine (contention Tid moved q).finish _ (fun s reached unfinished => ?_) reached
  obtain ⟨running, defined⟩ := not_or.mp unfinished
  obtain ⟨R, h⟩ := reach_inv accepted reached
  obtain ⟨u, runs, moving⟩ := h.someone_moves (Bool.eq_false_iff.mpr running) defined
  have useful : moves s (.step u) = true := by rw [moves, moving, Bool.not_false]
  exact ⟨.step u, _, if_neg (by simp [runs]), useful, rfl, rfl⟩

/-- A thread that runs alone for a step. -/
theorem solo_step (moved : E → E) (q : LockFreeArrayQueue E) {call : Call E} (hc : s.call u = call)
    (running : call.atRest = false) :
    ∃ s', (machine Tid moved q).next s (.step u) = some s' ∧ s'.q = (advance s.q moved call).1 ∧
      s'.call u = (advance s.q moved call).2 := by
  subst hc
  exact ⟨_, if_neg (by simp [running]), rfl, Function.update_self ..⟩

/-- A thread alone on the queue pushes, up to its wait loop. -/
def soloClaim (u : Tid) (e : E) : List (Label Tid E) :=
  .invoke u (.push e) :: List.replicate 3 (.step u)

/-- A thread alone on the queue pushes, up to the return. -/
def soloPush (u : Tid) (e : E) : List (Label Tid E) := soloClaim u e ++ List.replicate 3 (.step u)

theorem solo_claim (moved : E → E) (q : LockFreeArrayQueue E) (rest : (s.call u).atRest = true) (e : E)
    (below : s.q.writeIndex < s.q.readIndex + s.q.maxQueueSize) (small : s.q.writeIndex + 1 < 2 ^ 63) :
    ∃ s', (machine Tid moved q).exec s (soloClaim u e) = some s' ∧
      s'.q = { s.q with writeIndex := s.q.writeIndex + 1 } ∧
      s'.call u = .pushWait e s.q.writeIndex := by
  have room : s.q.isFull s.q.writeIndex s.q.readIndex = false := by
    rw [LockFreeArrayQueue.isFull, decide_eq_false_iff_not]
    omega
  have fits : (increment s.q.writeIndex).isSome = true := by
    rw [increment, if_pos small]
    rfl
  have invoked : (machine Tid moved q).next s (.invoke u (.push e)) =
    some (s.setCall u (.pushLoadWrite e)) := if_pos rest
  obtain ⟨s₁, step₁, q₁, call₁⟩ := solo_step moved q
    (s := s.setCall u (.pushLoadWrite e)) (Function.update_self ..) rfl
  change s₁.q = s.q at q₁
  obtain ⟨s₂, step₂, q₂, call₂⟩ := solo_step moved q call₁ rfl
  have claiming : s₂.call u = .pushClaim e s.q.writeIndex := by
    rw [call₂]
    simp [advance, q₁, State.setCall, room, fits]
  have same : s₂.q = s.q := by
    rw [q₂]
    simp [advance, q₁, State.setCall, room, fits]
  obtain ⟨s₃, step₃, q₃, call₃⟩ := solo_step moved q claiming rfl
  rw [advance, same, if_pos rfl] at q₃ call₃
  refine ⟨s₃, ?_, q₃, call₃⟩
  rw [soloClaim, exec_step _ invoked, List.replicate, exec_step _ step₁, List.replicate,
    exec_step _ step₂, List.replicate, exec_step _ step₃]
  rfl

/-- The rest of the push, when its marker is there. -/
theorem solo_finish (moved : E → E) (q : LockFreeArrayQueue E) {e : E} {write : ℕ}
    (waits : s.call u = .pushWait e write)
    (moving : spins s.q (.pushWait e write) = false) :
    ∃ s', (machine Tid moved q).exec s (List.replicate 3 (.step u)) = some s' ∧
      (s'.call u).atRest = true ∧
      s'.q = (s.q.setElement (s.q.transIndex write) e).setActive (s.q.transIndex write)
        (write + 1) := by
  obtain ⟨s₁, step₁, q₁, call₁⟩ := solo_step moved q waits rfl
  rw [advance, if_neg (of_decide_eq_false moving)] at q₁ call₁
  obtain ⟨s₂, step₂, q₂, call₂⟩ := solo_step moved q call₁ rfl
  obtain ⟨s₃, step₃, q₃, call₃⟩ := solo_step moved q call₂ rfl
  refine ⟨s₃, ?_, by rw [call₃]; rfl, ?_⟩
  · rw [List.replicate, exec_step _ step₁, List.replicate, exec_step _ step₂, List.replicate,
      exec_step _ step₃]
    rfl
  · rw [q₃, q₂, q₁]
    rfl

theorem pushMarker_first {size write : ℕ} (below : write < size) : pushMarker size write = 0 :=
  if_neg (Nat.not_le.mpr below)

/-- After `n` pushes of one thread whose slots are all different, these are the slots that
are marked. -/
theorem solo_pushes (moved : E → E) (accepted : LockFreeArrayQueue.init lock blank size = .ok q)
    (inInt : size < 2 ^ 31) (u : Tid) (e : ℕ → E) {n : ℕ} (below : n ≤ size)
    (apart : ∀ i j, i < j → j < n → i &&& (size - 1) ≠ j &&& (size - 1)) :
    ∃ s, (machine Tid moved q).exec (machine Tid moved q).start
        ((List.range n).flatMap fun i => soloPush u (e i)) = some s ∧
      (s.call u).atRest = true ∧ s.q.maxQueueSize = size ∧
      s.q.writeIndex = n ∧ s.q.readIndex = 0 ∧
      ∀ i, s.q.activeQueue i = 0 ↔ ∀ j, j < n → j &&& (size - 1) ≠ i := by
  induction n with
  | zero =>
    rw [LockFreeArrayQueue.init] at accepted
    split_ifs at accepted
    cases accepted
    refine ⟨_, rfl, rfl, rfl, rfl, rfl, fun i => ?_⟩
    exact iff_of_true rfl fun j hj => absurd hj (Nat.not_lt_zero j)
  | succ n ih =>
    obtain ⟨s, reached, rest, capacity, write, read, marked⟩ :=
      ih (by omega) fun i j hij hj => apart i j hij (by omega)
    obtain ⟨s₁, claim, q₁, waits⟩ := solo_claim moved q rest (e n) (by omega) (by omega)
    have slot : s₁.q.transIndex n = n &&& (size - 1) := by
      rw [LockFreeArrayQueue.transIndex, q₁, capacity]
    have moving : spins s₁.q (.pushWait (e n) n) = false := by
      rw [spins, decide_eq_false_iff_not, not_not, slot, q₁, capacity, pushMarker_first (by omega)]
      exact (marked _).mpr fun j hj => apart j n hj (by omega)
    rw [write] at waits
    obtain ⟨s₂, finish, rest₂, q₂⟩ := solo_finish moved q waits moving
    refine ⟨s₂, ?_, rest₂, ?_, ?_, ?_, fun i => ?_⟩
    · rw [List.range_succ, List.flatMap_append, List.flatMap_singleton]
      exact exec_trans _ reached (exec_trans _ claim finish)
    · rw [q₂, q₁]
      exact capacity
    · rw [q₂, q₁]
      exact congrArg (· + 1) write
    · rw [q₂, q₁]
      exact read
    · have active : s₂.q.activeQueue i =
          if i = n &&& (size - 1) then (n : ℤ) + 1 else s.q.activeQueue i := by
        rw [q₂, ← slot, q₁]
        exact Function.update_apply ..
      rw [active]
      by_cases here : i = n &&& (size - 1)
      · rw [if_pos here]
        exact iff_of_false (by omega) fun none => none n (Nat.lt_succ_self n) here.symm
      · rw [if_neg here, marked]
        constructor
        · intro none j hj same
          by_cases last : j = n
          · exact here (last ▸ same.symm)
          · exact none j (by omega) same
        · exact fun none j hj => none j (by omega)

/-- The push waits for a marker of zero at a slot that is marked. -/
structure Wedged (s : State Tid E) (u : Tid) (e : E) (n : ℕ) : Prop where
  waits : s.call u = .pushWait e n
  first : n < s.q.maxQueueSize
  marked : s.q.activeQueue (s.q.transIndex n) ≠ 0

/-- No marker that is written is zero. -/
theorem next_marked (hs : next moved s l = some s') :
    s'.q.maxQueueSize = s.q.maxQueueSize ∧
      ∀ i, s.q.activeQueue i ≠ 0 → s'.q.activeQueue i ≠ 0 := by
  cases next_step hs with
  | pushMark hc =>
    refine ⟨rfl, fun i marked => ?_⟩
    simp only [LockFreeArrayQueue.setActive, Function.update_apply]
    split
    · omega
    · exact marked
  | popMark hc =>
    refine ⟨rfl, fun i marked => ?_⟩
    simp only [LockFreeArrayQueue.setActive, Function.update_apply, popMarker]
    split
    · omega
    · exact marked
  | _ => exact ⟨rfl, fun i marked => marked⟩

theorem Wedged.next {e : E} {n : ℕ} (h : Wedged s u e n) (hs : next moved s l = some s') :
    Wedged s' u e n := by
  obtain ⟨size, stays⟩ := next_marked hs
  have waits := h.waits
  refine ⟨?_, size ▸ h.first, ?_⟩
  · by_cases mine : u = l.thread
    · cases l with
      | invoke t op =>
        obtain ⟨rest, -⟩ := Option.ite_none_right_eq_some.mp hs
        change u = t at mine
        rw [← mine, waits] at rest
        cases rest
      | step t =>
        obtain rfl : u = t := mine
        obtain ⟨-, -, call⟩ := next_own hs
        rw [call, waits, advance, pushMarker_first h.first, if_pos h.marked]
    · rw [next_other hs mine, waits]
  · rw [LockFreeArrayQueue.transIndex, size]
    exact stays _ h.marked

/-- One thread pushes up to the first index that shares its slot with an earlier one: that
push expects a marker that no one stores any more. -/
theorem solo_wedge (moved : E → E) (accepted : LockFreeArrayQueue.init lock blank size = .ok q)
    (inInt : size < 2 ^ 31) (u : Tid) (e : ℕ → E) {n m : ℕ} (below : n < size) (earlier : m < n)
    (same : m &&& (size - 1) = n &&& (size - 1))
    (apart : ∀ i j, i < j → j < n → i &&& (size - 1) ≠ j &&& (size - 1)) :
    ∃ s, (machine Tid moved q).exec (machine Tid moved q).start
        (((List.range n).flatMap fun i => soloPush u (e i)) ++ soloClaim u (e n)) = some s ∧
      ∀ ls s', (machine Tid moved q).exec s ls = some s' → s'.call u = .pushWait (e n) n := by
  obtain ⟨s, pushed, rest, capacity, write, read, marked⟩ :=
    solo_pushes moved accepted inInt u e below.le apart
  obtain ⟨s₁, claim, q₁, waits⟩ := solo_claim moved q rest (e n) (by omega) (by omega)
  have wedged : Wedged s₁ u (e n) n := by
    refine ⟨write ▸ waits, ?_, fun none => ?_⟩
    · rw [q₁]
      exact capacity.symm ▸ below
    · rw [LockFreeArrayQueue.transIndex, q₁] at none
      rw [capacity] at none
      exact (marked _).mp none m earlier same
  refine ⟨s₁, exec_trans _ pushed claim, fun ls s₂ run => ?_⟩
  exact ((machine Tid moved q).exec_invariant (P := fun s => Wedged s u (e n) n)
    (fun _ _ _ h hs => h.next hs) wedged run).waits

/-- The first index that shares its slot with an earlier one is less than a lap away. -/
theorem not_callsReturn [Nonempty Tid] (moved : E → E)
    (accepted : LockFreeArrayQueue.init lock blank size = .ok q) (inInt : size < 2 ^ 31)
    (several : 1 < size) (noPower : ∀ k, size ≠ 2 ^ k) :
    ¬ CallsReturn Tid moved blank lock size := by
  classical
  intro returns
  obtain ⟨u⟩ := ‹Nonempty Tid›
  obtain ⟨b, inside, clear⟩ := exists_clear_bit noPower several
  have shared : ∃ n m, m < n ∧ m &&& (size - 1) = n &&& (size - 1) :=
    ⟨2 ^ b, 0, Nat.two_pow_pos b, by rw [clear, Nat.zero_and]⟩
  obtain ⟨n, ⟨m, earlier, same⟩, least⟩ :
      ∃ n, (∃ m, m < n ∧ m &&& (size - 1) = n &&& (size - 1)) ∧
        ∀ k, k < n → ¬ ∃ m, m < k ∧ m &&& (size - 1) = k &&& (size - 1) :=
    ⟨Nat.find shared, Nat.find_spec shared, fun k hk => Nat.find_min shared hk⟩
  have below : n < size := by
    by_contra far
    exact least (2 ^ b) (by omega) ⟨0, Nat.two_pow_pos b, by rw [clear, Nat.zero_and]⟩
  obtain ⟨s, pushed, waits⟩ := solo_wedge moved accepted inInt u (fun _ => blank) below earlier same
    fun i j hij hj equal => least j hj ⟨i, hij, equal⟩
  obtain ⟨ls, s', run, returned⟩ := returns q accepted s (reach_of_exec _ pushed) u
  rw [waits ls s' run] at returned
  rcases returned with rest | undefined
  · cases rest
  · cases undefined

/-- With an odd size the indices 0 and 1 share their slot. -/
theorem second_push_waits (moved : E → E) (accepted : LockFreeArrayQueue.init lock blank size = .ok q)
    (inInt : size < 2 ^ 31) (several : 1 < size) (odd : size % 2 = 1) (u : Tid) (first second : E) :
    ∃ s, (machine Tid moved q).exec (machine Tid moved q).start
        (soloPush u first ++ soloClaim u second) = some s ∧
      ∀ ls s', (machine Tid moved q).exec s ls = some s' → s'.call u = .pushWait second 1 := by
  have same : 0 &&& (size - 1) = 1 &&& (size - 1) := by
    rw [Nat.zero_and, Nat.one_and_eq_mod_two]
    omega
  exact solo_wedge moved accepted inInt u (fun i => if i = 0 then first else second) several
    Nat.zero_lt_one same fun i j hij hj => by omega

/-- In CAS mode the calls on a queue of an accepted size can always return exactly when the
size is a power of two. With an odd size, such as the default, a thread that has pushed once
and pushes again is in its wait loop for good, whatever any thread does. -/
theorem cas_calls_return_iff [Fintype Tid] [Nonempty Tid] (moved : E → E) (blank : E) (lock : ℤ)
    (size : ℕ) (inInt : size < 2 ^ 31)
    (accepted : ∃ q, LockFreeArrayQueue.init lock blank size = .ok q) :
    (CallsReturn Tid moved blank lock size ↔ ∃ k, size = 2 ^ k) ∧
      (size % 2 = 1 → ∀ q, LockFreeArrayQueue.init lock blank size = .ok q →
        ∀ (u : Tid) (first second : E),
          ∃ s, (machine Tid moved q).exec (machine Tid moved q).start
              (soloPush u first ++ soloClaim u second) = some s ∧
            ∀ ls s', (machine Tid moved q).exec s ls = some s' →
              s'.call u = .pushWait second 1) := by
  obtain ⟨q, accepted⟩ := accepted
  have several : 1 < size := by
    rw [LockFreeArrayQueue.init] at accepted
    split_ifs at accepted
    omega
  refine ⟨⟨fun returns => ?_, ?_⟩, fun odd q' accepted' u first second => ?_⟩
  · by_contra noPower
    exact not_callsReturn moved accepted inInt several (fun k power => noPower ⟨k, power⟩) returns
  · rintro ⟨k, rfl⟩
    exact callsReturn_two_pow moved blank lock k
  · exact second_push_waits moved accepted' inInt several odd u first second

/-- On a queue of the default size a thread alone pushes 5, and its push of 6 never returns. -/
theorem cas_calls_return_iff_default :
    ¬ CallsReturn (Fin 1) id 0 0 LockFreeArrayQueue.defaultSize ∧
      ∀ q, LockFreeArrayQueue.init 0 0 LockFreeArrayQueue.defaultSize = .ok q →
        ∃ s, (machine (Fin 1) id q).exec (machine (Fin 1) id q).start
            (soloPush ⟨0, Nat.one_pos⟩ 5 ++ soloClaim ⟨0, Nat.one_pos⟩ 6) = some s ∧
          ∀ ls s', (machine (Fin 1) id q).exec s ls = some s' →
            s'.call ⟨0, Nat.one_pos⟩ = .pushWait 6 1 := by
  obtain ⟨calls, second⟩ := @cas_calls_return_iff ℕ (Fin 1) _ _ _ id 0 0
    LockFreeArrayQueue.defaultSize (by decide) ⟨_, rfl⟩
  have odd : LockFreeArrayQueue.defaultSize % 2 = 1 := rfl
  refine ⟨fun returns => ?_, fun q accepted => second odd q accepted ⟨0, Nat.one_pos⟩ 5 6⟩
  obtain ⟨k, power⟩ := calls.mp returns
  cases k with
  | zero => cases power
  | succ k =>
    rw [power, Nat.pow_succ, Nat.mul_mod_left] at odd
    cases odd

end LockFreeArray
