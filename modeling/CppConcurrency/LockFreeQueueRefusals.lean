import CppConcurrency.LockFreeQueueFifo
import CppConcurrency.LockFreeQueueSafety

/-!
# When a push or a pop of `LockFreeQueueCpp11` is refused

A call is refused when the sequence number of its slot is not the counter value it
loaded. The queue being full or empty is one reason. A slot whose pop or push is half
way is another, and so is a counter value that other calls have used up since: the
test does not look at the counter again. A refusal has one of these three reasons,
and the last two occur with room, respectively with elements, throughout the call.
-/

namespace LockFreeQueue

open Machines WordCounters TicketRings LockFreeQueueCpp11

universe u v

variable {Tid : Type v} {T : Type u} {k : ℕ}

/-- Every slot was claimed by a push and not yet released by a completed pop. -/
def Full (cap : ℕ) (s : State Tid T) : Prop :=
  ∀ i, i < cap → ∃ n, n < s.pushes.length ∧ n % cap = i ∧ n ∉ s.released

/-- No completed push waits to be claimed by a pop. -/
def NoneWaiting (s : State Tid T) : Prop := ∀ n ∈ s.filled, n < s.pops.length

/-- A pop has claimed the slot of the next push ticket and not completed. -/
def Emptying (cap : ℕ) (s : State Tid T) : Prop :=
  ∃ n, n < s.pops.length ∧ n % cap = s.pushes.length % cap ∧ n ∉ s.released

/-- A push has claimed the next pop ticket and not completed. -/
def Filling (s : State Tid T) : Prop :=
  s.pops.length < s.pushes.length ∧ s.pops.length ∉ s.filled

/-- A call of `t` is invoked by step `i` of the run and has just returned in state `j`. -/
structure Span [DecidableEq Tid] {capacity : SizeT} (run : (machine Tid T capacity).Run) (t : Tid)
    (op : Op T) (i j : ℕ) : Prop where
  order : i < j
  inside : j ≤ run.length
  invoked : run.label i = .invoke t op
  running : ∀ m, i < m → m < j → ((run.state m).call t).atRest = false
  returned : ((run.state j).call t).atRest = true

/-- Each push that returns false was invoked before and returned after a moment at
which the queue was full. -/
def PushRefusedWhenFull (Tid : Type v) [DecidableEq Tid] (T : Type u) (capacity : SizeT) : Prop :=
  ∀ (run : (machine Tid T capacity).Run) t op i j, Span run t op i j →
    (run.state j).call t = .pushReturn false →
    ∃ m, i ≤ m ∧ m ≤ j ∧ Full (new (T := T) capacity).capacity.toNat (run.state m)

def PopRefusedWhenNoneWaiting (Tid : Type v) [DecidableEq Tid] (T : Type u) (capacity : SizeT) :
    Prop :=
  ∀ (run : (machine Tid T capacity).Run) t op i j, Span run t op i j →
    (run.state j).call t = .popReturn false none →
    ∃ m, i ≤ m ∧ m ≤ j ∧ NoneWaiting (run.state m)

/-! ### What a failed test says -/

section

variable {R : TicketRing (2 ^ k)} {s : State Tid T} {t : Tid}

theorem Inv.full_or_emptying (h : Inv R s) (behind : R.turn (R.tail % 2 ^ k) + 2 ^ k = R.tail) :
    Full (2 ^ k) s ∨ Emptying (2 ^ k) s := by
  have hcap := Nat.two_pow_pos k
  have hi := Nat.mod_lt R.tail hcap
  have hpush := h.pushes_length
  have hpop := h.pops_length
  have held : ∀ i, i < 2 ^ k → R.turn i ∉ s.released := fun i hi' hr => by
    have := (h.released _).mp hr
    rw [R.turn_slot i hi'] at this
    exact lt_irrefl _ this
  by_cases claimed : R.turn (R.tail % 2 ^ k) < R.head
  · right
    refine ⟨R.turn (R.tail % 2 ^ k), by omega, ?_, held _ hi⟩
    rw [hpush]
    exact R.turn_slot _ hi
  · left
    intro i hi'
    have := R.tail_le i hi'
    have := R.turn_lt i hi'
    exact ⟨R.turn i, by omega, R.turn_slot i hi', held i hi'⟩

/-- A push whose test fails finds the queue full, its slot being emptied, or the
ticket it loaded gone through the slot. -/
theorem Inv.push_refused (h : Inv R s) {data : T} {tail : SizeT}
    (hc : s.call t = .pushTest data tail) (failed : (s.q.node tail).tail ≠ tail) :
    (Full (2 ^ k) s ∨ Emptying (2 ^ k) s) ∨ s.seen t ∈ s.released := by
  have hcap := Nat.two_pow_pos k
  have fact := h.facts t
  rw [hc] at fact
  obtain ⟨rfl, hn⟩ := fact
  by_cases now : s.seen t = R.tail
  · left
    rw [now] at failed
    rcases R.turn_tail hcap with ready | behind
    · exact absurd (h.ring.tail_test.mpr ready) failed
    · exact h.full_or_emptying behind
  · right
    have hi := Nat.mod_lt (s.seen t) hcap
    rw [h.ring.node_ofNat, h.ring.node_tail _ hi] at failed
    have := R.drawn_once hi (by omega : s.seen t < R.tail) rfl
    have : R.turn (s.seen t % 2 ^ k) ≠ s.seen t := fun e => failed (by rw [e])
    exact (h.released _).mpr (by omega)

theorem Inv.pop_refused (h : Inv R s) {head : SizeT} (hc : s.call t = .popTest head)
    (failed : (s.q.node head).head ≠ head) :
    (NoneWaiting s ∨ Filling s) ∨ s.seen t ∈ s.released := by
  have hcap := Nat.two_pow_pos k
  have hpush := h.pushes_length
  have hpop := h.pops_length
  have order := R.head_le_tail
  have fact := h.facts t
  rw [hc] at fact
  obtain ⟨rfl, hn⟩ := fact
  have hi := Nat.mod_lt (s.seen t) hcap
  by_cases now : s.seen t = R.head
  · left
    rw [now] at failed
    have notIn : R.head ∉ s.filled := fun hf => by
      refine failed (h.ring.head_test.mpr ?_)
      rcases (h.filled _).mp hf with later | ⟨same, full⟩
      · exact absurd (R.passed hcap later) (lt_irrefl _)
      · exact ⟨same.symm, full⟩
    by_cases empty : R.head = R.tail
    · left
      intro n hf
      rcases (h.filled _).mp hf with old | ⟨same, full⟩
      · have := R.passed hcap old
        omega
      · have := R.full_drawn _ (Nat.mod_lt n hcap) full
        omega
    · exact Or.inr ⟨by omega, by rwa [hpop]⟩
  · right
    have taken : s.seen t < R.head := by omega
    rw [h.ring.node_ofNat] at failed
    have := R.drawn_once hi (by omega : s.seen t < R.tail) rfl
    have : R.turn (s.seen t % 2 ^ k) ≠ s.seen t := fun e => by
      have full := R.taken_full _ hi (by omega)
      exact failed (by rw [h.ring.node_full _ hi full, e])
    exact (h.released _).mpr (by omega)

end

/-! ### From one test to a whole call -/

section Calls

variable [DecidableEq Tid] {s s' : State Tid T} {t : Tid} {l : Label Tid T}

/-- The call holds a counter value it has loaded and not claimed. -/
def Call.holding : Call T → Bool
  | .pushTest _ _ | .pushClaim _ _ | .popTest _ | .popClaim _ => true
  | _ => false

def Call.isPush : Call T → Bool
  | .pushLoad _ | .pushTest _ _ | .pushClaim _ _ | .pushConstruct _ _ | .pushPublish _
  | .pushReturn _ => true
  | _ => false

/-- How many tickets the counter of `t`'s call has issued. -/
def State.issued (s : State Tid T) (t : Tid) : ℕ :=
  if (s.call t).isPush then s.pushes.length else s.pops.length

/-- What `t` holds it held before, or it read the counter just now. -/
theorem next_holding (hs : next s l = some s') (holding : (s'.call t).holding = true) :
    ((s.call t).holding = true ∧ s'.seen t = s.seen t ∧
        (s'.call t).isPush = (s.call t).isPush) ∨
      s'.seen t = s'.issued t := by
  by_cases other : t ≠ l.thread
  · obtain ⟨call, seen⟩ := next_other hs other
    rw [call] at holding ⊢
    exact Or.inl ⟨holding, seen, rfl⟩
  rw [not_not] at other
  cases next_step hs with
  | invoke rest op =>
    obtain rfl := other
    cases op <;> simp [State.setCall, Op.invoke, Call.holding] at holding
  | @step u running spurious =>
    obtain rfl : t = u := other
    simp only [State.setCall, Function.update_self, State.issued] at holding ⊢
    cases hc : s.call t with
    | rest | pushReturn | popReturn => simp [hc, Call.atRest] at running
    | pushLoad data => simp [hc, record, advance, State.see, Call.isPush]
    | popLoad => simp [hc, record, advance, State.see, Call.isPush]
    | pushTest data tail =>
      simp only [hc, record, advance] at holding ⊢
      split at holding
      · simp [Call.holding] at holding
      · rename_i pass
        simp [if_neg pass, Call.holding, Call.isPush]
    | popTest head =>
      simp only [hc, record, advance] at holding ⊢
      split at holding
      · simp [Call.holding] at holding
      · rename_i pass
        simp [if_neg pass, Call.holding, Call.isPush]
    | pushClaim data tail =>
      simp only [hc, record, advance] at holding ⊢
      split at holding
      · simp [Call.holding] at holding
      · rename_i lost
        simp [if_neg lost, State.see, Call.isPush]
    | popClaim head =>
      simp only [hc, record, advance] at holding ⊢
      split at holding
      · simp [Call.holding] at holding
      · rename_i lost
        simp [if_neg lost, State.see, Call.isPush]
    | pushConstruct | pushPublish | popCopy | popDestroy | popRelease =>
      simp [hc, advance, Call.holding] at holding

theorem Call.atRest_of_refused {c : Call T} (h : c.refused = true) : c.atRest = true := by
  cases c <;> simp_all [Call.refused, Call.atRest]

/-- A running call is refused by its test and by nothing else. -/
theorem next_refused (hs : next s l = some s') (running : (s.call t).atRest = false)
    (refused : (s'.call t).refused = true) :
    (∃ data tail, s.call t = .pushTest data tail ∧ (s.q.node tail).tail ≠ tail ∧
        s'.call t = .pushReturn false) ∨
      ∃ head, s.call t = .popTest head ∧ (s.q.node head).head ≠ head ∧
        s'.call t = .popReturn false none := by
  by_cases other : t ≠ l.thread
  · rw [(next_other hs other).1] at refused
    rw [Call.atRest_of_refused refused] at running
    cases running
  rw [not_not] at other
  cases next_step hs with
  | invoke rest op =>
    obtain rfl := other
    cases op <;> simp [State.setCall, Op.invoke, Call.refused] at refused
  | @step u moving spurious =>
    obtain rfl : t = u := other
    simp only [State.setCall, Function.update_self] at refused ⊢
    cases hc : s.call t with
    | pushTest data tail =>
      simp only [hc, advance] at refused ⊢
      split at refused
      · rename_i failed
        exact Or.inl ⟨data, tail, rfl, failed, by rw [if_pos failed]⟩
      · simp [Call.refused] at refused
    | popTest head =>
      simp only [hc, advance] at refused ⊢
      split at refused
      · rename_i failed
        exact Or.inr ⟨head, rfl, failed, by rw [if_pos failed]⟩
      · simp [Call.refused] at refused
    | pushClaim | popClaim =>
      simp only [hc, advance] at refused
      split at refused <;> simp [Call.refused] at refused
    | rest | pushReturn | popReturn => simp [hc, Call.atRest] at running
    | pushLoad | pushConstruct | pushPublish | popLoad | popCopy | popDestroy | popRelease =>
      simp [hc, advance, Call.refused] at refused

theorem next_released (hs : next s l = some s') : s.released ⊆ s'.released := by
  cases next_step hs with
  | invoke => exact List.Subset.refl _
  | step =>
    simp only [State.setCall, record]
    split <;> simp [State.see]

end Calls

/-! ### Refusals in a run -/

section Runs

variable [DecidableEq Tid] {capacity : SizeT} {run : (machine Tid T capacity).Run} {t : Tid}
  {op : Op T} {i j : ℕ}

theorem Span.begins (span : Span run t op i j) : (run.state (i + 1)).call t = op.invoke := by
  have order := span.order
  have inside := span.inside
  have hs : next (run.state i) (run.label i) = some (run.state (i + 1)) := run.step i (by omega)
  rw [span.invoked] at hs
  generalize run.state (i + 1) = s' at hs ⊢
  cases next_step hs with
  | invoke => exact Function.update_self ..

/-- The counter value a call holds is the one its counter had at some moment since
the call was invoked. -/
theorem Span.loaded (span : Span run t op i j) {m : ℕ} (him : i < m) (hmj : m ≤ j)
    (holding : ((run.state m).call t).holding = true) :
    ∃ l, i < l ∧ l ≤ m ∧ (run.state m).seen t = if ((run.state m).call t).isPush
      then (run.state l).pushes.length else (run.state l).pops.length := by
  have inside := span.inside
  induction m, him using Nat.le_induction with
  | base =>
    rw [span.begins] at holding
    cases op <;> cases holding
  | succ m him ih =>
    rcases next_holding (run.step m (by omega)) holding with ⟨before, seen, kind⟩ | now
    · obtain ⟨l, hil, hlm, same⟩ := ih (by omega) before
      exact ⟨l, hil, by omega, by rw [seen, same, kind]⟩
    · exact ⟨m + 1, by omega, le_rfl, now⟩

/-- The step that refuses the call, with the invariant in the state it is taken in. -/
theorem Span.last (span : Span run t op i j) (pos : 1 ≤ capacity.toNat)
    (small : capacity.toNat ≤ 2 ^ 63) (timely : run.Meets Timely) :
    ∃ k, (new (T := T) capacity).capacity.toNat = 2 ^ k ∧ ∃ m, i < m ∧ m + 1 = j ∧
      (∃ R : TicketRing (2 ^ k), Inv R (run.state m)) ∧
      ((run.state m).call t).atRest = false ∧
      next (run.state m) (run.label m) = some (run.state j) := by
  obtain ⟨k, hcap, inv⟩ := reachBy_inv Tid T pos small
  have order := span.order
  have inside := span.inside
  have started : i + 1 ≠ j := by
    rintro rfl
    have returned := span.returned
    rw [span.begins] at returned
    cases op <;> cases returned
  obtain ⟨m, rfl⟩ : ∃ m, j = m + 1 := ⟨j - 1, by omega⟩
  exact ⟨k, hcap, m, by omega, rfl, inv _ (run.reachBy timely (by omega)), span.running m (by omega) (by omega),
    run.step m (by omega)⟩

/-- In runs whose compare-exchanges are timely, a push returns false only if at some
moment of the call the queue was full, or the slot of the next push ticket was being
emptied by a pop in progress, or since the call loaded its counter value other calls
pushed and popped that ticket; and a pop only if at some moment of the call no completed
push was waiting, or the next pop ticket was being filled by a push in progress, or
other calls popped the ticket it had loaded. -/
theorem refused_only_if (pos : 1 ≤ capacity.toNat) (small : capacity.toNat ≤ 2 ^ 63)
    (timely : run.Meets Timely) (span : Span run t op i j) :
    let cap := (new (T := T) capacity).capacity.toNat
    ((run.state j).call t = .pushReturn false →
      (∃ m, i < m ∧ m < j ∧ (Full cap (run.state m) ∨ Emptying cap (run.state m))) ∨
        ∃ m, i < m ∧ m < j ∧ (run.state m).pushes.length ∈ (run.state j).released) ∧
    ((run.state j).call t = .popReturn false none →
      (∃ m, i < m ∧ m < j ∧ (NoneWaiting (run.state m) ∨ Filling (run.state m))) ∨
        ∃ m, i < m ∧ m < j ∧ (run.state m).pops.length ∈ (run.state j).released) := by
  obtain ⟨k, hcap, m, him, rfl, ⟨R, h⟩, running, hs⟩ := span.last pos small timely
  have grow := next_released hs
  simp only [hcap]
  constructor
  · intro returned
    rcases next_refused hs running (by rw [returned]; rfl) with
      ⟨data, tail, hc, failed, -⟩ | ⟨_, _, _, wrong⟩
    · rcases h.push_refused hc failed with now | passed
      · exact Or.inl ⟨m, him, by omega, now⟩
      · obtain ⟨l, hil, hlm, seen⟩ := span.loaded him (by omega) (by rw [hc]; rfl)
        simp only [hc, Call.isPush, if_true] at seen
        exact Or.inr ⟨l, hil, by omega, grow (seen ▸ passed)⟩
    · rw [returned] at wrong; cases wrong
  · intro returned
    rcases next_refused hs running (by rw [returned]; rfl) with
      ⟨_, _, _, _, wrong⟩ | ⟨head, hc, failed, -⟩
    · rw [returned] at wrong; cases wrong
    · rcases h.pop_refused hc failed with now | passed
      · exact Or.inl ⟨m, him, by omega, now⟩
      · obtain ⟨l, hil, hlm, seen⟩ := span.loaded him (by omega) (by rw [hc]; rfl)
        simp only [hc, Call.isPush, Bool.false_eq_true, if_false] at seen
        exact Or.inr ⟨l, hil, by omega, grow (seen ▸ passed)⟩

end Runs

/-! ### Refused with room, and with elements -/

/-- Thread 0 loads the counter, then thread 1 pushes and pops that very ticket before
thread 0 looks at the slot. -/
def overtaken : List (Label (Fin 2) ℕ) :=
  [.invoke 0 (.push 7), .step 0 false] ++ .invoke 1 (.push 5) :: List.replicate 5 (.step 1 false) ++
    .invoke 1 .pop :: List.replicate 6 (.step 1 false) ++ [.step 0 false]

/-- Thread 0 stops after its compare-exchange, thread 1 completes the push behind it,
and thread 2 finds the first slot not filled. -/
def blocked : List (Label (Fin 3) ℕ) :=
  .invoke 0 (.push 7) :: List.replicate 3 (.step 0 false) ++
    .invoke 1 (.push 5) :: List.replicate 5 (.step 1 false) ++
    .invoke 2 .pop :: List.replicate 2 (.step 2 false)

def overtakenRun : (machine (Fin 2) ℕ 2).Run :=
  .ofSchedule _ (.invoke 0 .pop) overtaken (by decide)

def blockedRun : (machine (Fin 3) ℕ 2).Run :=
  .ofSchedule _ (.invoke 0 .pop) blocked (by decide)

theorem overtakenRun_span : Span overtakenRun 0 (.push 7) 0 16 where
  order := by decide
  inside := by decide
  invoked := rfl
  running := by
    have running : ∀ m, m < 16 → 0 < m → ((overtakenRun.state m).call 0).atRest = false := by
      decide
    exact fun m hm hm' => running m hm' hm
  returned := by decide +kernel

theorem blockedRun_span : Span blockedRun 2 .pop 10 13 where
  order := by decide
  inside := by decide
  invoked := rfl
  running := by
    have running : ∀ m, m < 13 → 10 < m → ((blockedRun.state m).call 2).atRest = false := by
      decide
    exact fun m hm hm' => running m hm' hm
  returned := by decide +kernel

theorem Full.length_le {cap : ℕ} {s : State Tid T} (full : Full cap s) (pos : 0 < cap) :
    cap ≤ s.pushes.length := by
  obtain ⟨n, hn, last, -⟩ := full (cap - 1) (by omega)
  have := Nat.mod_le n cap
  omega

theorem refused_only_if_overtaken :
    (∃ m, 0 < m ∧ m < 16 ∧ (Full 2 (overtakenRun.state m) ∨ Emptying 2 (overtakenRun.state m))) ∨
      ∃ m, 0 < m ∧ m < 16 ∧
        (overtakenRun.state m).pushes.length ∈ (overtakenRun.state 16).released := by
  refine (refused_only_if (by decide) (by decide) ?_ overtakenRun_span).1 (by decide +kernel)
  have few : ∀ m, m < 16 → (overtakenRun.state m).pushes.length < 2 ^ 64 ∧
      (overtakenRun.state m).pops.length < 2 ^ 64 := by decide
  exact fun m hm => timely_of_few (few m hm).1 (few m hm).2 _

theorem overtaken_not_full : ¬ PushRefusedWhenFull (Fin 2) ℕ 2 := by
  intro claim
  obtain ⟨m, -, hm, full⟩ := claim overtakenRun _ _ _ _ overtakenRun_span (by decide +kernel)
  have few : ∀ m, m ≤ 16 → (overtakenRun.state m).pushes.length ≤ 1 := by decide
  have := full.length_le (by decide)
  have := few m hm
  have : (new (T := ℕ) 2).capacity.toNat = 2 := by decide
  omega

theorem blocked_not_empty : ¬ PopRefusedWhenNoneWaiting (Fin 3) ℕ 2 := by
  intro claim
  obtain ⟨m, hm, hm', none⟩ := claim blockedRun _ _ _ _ blockedRun_span (by decide +kernel)
  have waiting : ∀ m, m ≤ 13 → 10 ≤ m →
      1 ∈ (blockedRun.state m).filled ∧ (blockedRun.state m).pops.length = 0 := by decide
  obtain ⟨filled, pops⟩ := waiting m hm' hm
  have := none 1 filled
  omega

/-! ### A call that sleeps for `2 ^ 64` tickets -/

/-- One slot; thread 0 found it ready at counter value 0 and sleeps before its
compare-exchange, while thread 1 has completed `n` pushes and `n` pops. -/
structure Lapped (n : ℕ) (s : State (Fin 2) ℕ) : Prop where
  holds : Holds 0 s.q []
  tail : s.q.tail = BitVec.ofNat 64 n
  head : s.q.head = BitVec.ofNat 64 n
  asleep : s.call 0 = .pushClaim 7 0
  rest : (s.call 1).atRest = true
  pushes : s.pushes.length = n
  pops : s.pops.length = n
  released : ∀ m ∈ s.released, m < n

theorem Lapped.exec_push {n : ℕ} {s : State (Fin 2) ℕ} (h : Lapped n s) :
    ∃ s', (machine (Fin 2) ℕ 1).exec s
        (.invoke 1 (.push 5) :: List.replicate 5 (.step 1 false)) = some s' ∧
      Holds 0 s'.q [5] ∧ s'.q.tail = BitVec.ofNat 64 (n + 1) ∧ s'.q.head = BitVec.ofNat 64 n ∧
      s'.call 0 = .pushClaim 7 0 ∧ s'.call 1 = .pushReturn true ∧ s'.pushes.length = n + 1 ∧
      s'.pops.length = n ∧ s'.released = s.released ∧ n ∈ s'.filled := by
  have room : ([] : List ℕ).length < 2 ^ 0 := by decide
  refine ⟨_, exec_push_alone 1 s h.rest (h.holds.push_test.mpr room), h.holds.push room 5, ?_, h.head,
    h.asleep, rfl, ?_, h.pops, rfl, ?_⟩
  · change s.q.tail + 1 = _
    rw [h.tail]
    exact (BitVec.ofNat_add n 1).symm
  · simp [h.pushes]
  · simp [h.pushes]

theorem Lapped.exec_pair {n : ℕ} {s : State (Fin 2) ℕ} (h : Lapped n s) :
    ∃ ls s', (machine (Fin 2) ℕ 1).exec s ls = some s' ∧ Lapped (n + 1) s' := by
  obtain ⟨s₁, run, holds, tail, head, asleep, returned, pushes, pops, released, -⟩ := h.exec_push
  have pop := exec_pop_alone 1 s₁ (t := 1) (by rw [returned]; rfl)
    (holds.pop_test.mpr (List.cons_ne_nil _ _))
  refine ⟨_, _, Machine.exec_trans _ run pop, holds.pop.2, tail, ?_, asleep, rfl, pushes, ?_, ?_⟩
  · change s₁.q.head + 1 = _
    rw [head]
    exact (BitVec.ofNat_add n 1).symm
  · simp [pops]
  · intro m hm
    rcases List.mem_append.mp hm with old | new
    · have := h.released m (released ▸ old)
      omega
    · have := List.mem_singleton.mp new
      omega

theorem exec_lapped (n : ℕ) :
    ∃ ls s, (machine (Fin 2) ℕ 1).exec (machine (Fin 2) ℕ 1).start ls = some s ∧ Lapped n s := by
  induction n with
  | zero =>
    obtain ⟨k, hcap, holds⟩ := new_holds ℕ 1 (by decide) (by decide)
    have one : (new (T := ℕ) 1).capacity.toNat = 1 := by decide
    obtain rfl : k = 0 := by
      have := k.lt_two_pow_self
      omega
    exact ⟨[.invoke 0 (.push 7), .step 0 false, .step 0 false], _, rfl, holds, rfl, rfl, rfl, rfl,
      rfl, rfl, fun m hm => absurd hm (List.not_mem_nil)⟩
  | succ n ih =>
    obtain ⟨ls, s, run, lapped⟩ := ih
    obtain ⟨more, s', next, further⟩ := lapped.exec_pair
    exact ⟨ls ++ more, s', Machine.exec_trans _ run next, further⟩

/-- Thread 0 wakes up when the counter word is 0 again, and writes over an element that
no pop has claimed. -/
theorem exec_overrun :
    ∃ ls s, (machine (Fin 2) ℕ 1).exec (machine (Fin 2) ℕ 1).start ls = some s ∧
      (s.q.node s.q.head).head ≠ s.q.head ∧ (∀ t, (s.call t).atRest = true) ∧
      2 ^ 64 - 1 ∈ s.filled ∧ s.pops.length = 2 ^ 64 - 1 ∧ 2 ^ 64 - 1 ∉ s.released ∧
      s.q.tail - s.q.head = 2 ∧ s.pops.length < s.pushes.length := by
  obtain ⟨ls, s, run, lapped⟩ := exec_lapped (2 ^ 64 - 1)
  obtain ⟨s₁, push, ⟨R, quiet⟩, tail, head, asleep, returned, pushes, pops, released, filled⟩ :=
    lapped.exec_push
  have wake := exec_push_claim 1 s₁ asleep tail
  refine ⟨_, _, Machine.exec_trans _ run (Machine.exec_trans _ push wake), ?_, ?_, ?_, pops, ?_, ?_,
    ?_⟩
  · have mask : s₁.q.capacityMask = 0 := BitVec.eq_of_toNat_eq quiet.ring.mask
    have slot : ∀ x, (x &&& s₁.q.capacityMask).toNat = 0 := by simp [mask]
    simp only [LockFreeQueueCpp11.node, LockFreeQueueCpp11.slot, storeHead, storeData, setNode, slot,
      Function.update_self, head]
    decide
  · intro t
    change (Function.update s₁.call 0 (.pushReturn true) t).atRest = true
    obtain rfl | rfl : t = 0 ∨ t = 1 := by omega
    · rw [Function.update_self]
      rfl
    · rw [Function.update_of_ne (by decide), returned]
      rfl
  · exact List.mem_append_left _ filled
  · intro hm
    exact lt_irrefl _ (lapped.released _ (released ▸ hm))
  · change 0 + 1 - s₁.q.head = 2
    rw [head]
    decide
  · change s₁.pops.length < (s₁.pushes ++ [_]).length
    rw [List.length_append, List.length_singleton, pops, pushes]
    decide

/-- The states of a pop that finds its slot not ready. -/
theorem exec_pop_refused [DecidableEq Tid] (capacity : SizeT) (s : State Tid T) {t : Tid}
    (rest : (s.call t).atRest = true) (failed : (s.q.node s.q.head).head ≠ s.q.head) :
    (machine Tid T capacity).exec s [.invoke t .pop] = some (s.setCall t .popLoad) ∧
    (machine Tid T capacity).exec s [.invoke t .pop, .step t false] =
      some ((s.see t s.pops.length).setCall t (.popTest s.q.head)) ∧
    (machine Tid T capacity).exec s [.invoke t .pop, .step t false, .step t false] =
      some ((s.see t s.pops.length).setCall t (.popReturn false none)) := by
  have invoked : next s (.invoke t .pop) = some (s.setCall t .popLoad) := if_pos rest
  have loaded : next (s.setCall t .popLoad) (.step t false) =
      some ((s.see t s.pops.length).setCall t (.popTest s.q.head)) := by
    rw [next_running (Function.update_self ..) rfl]
    simp only [advance, record, State.setCall, State.see, Function.update_self,
      Function.update_idem]
  have refused : next ((s.see t s.pops.length).setCall t (.popTest s.q.head)) (.step t false) =
      some ((s.see t s.pops.length).setCall t (.popReturn false none)) := by
    rw [next_running (Function.update_self ..) rfl]
    simp only [advance, record, State.setCall, State.see, Function.update_self,
      Function.update_idem, ne_eq, failed, not_false_eq_true, if_true]
  refine ⟨Machine.exec_step _ invoked _, ?_, ?_⟩
  · rw [Machine.exec_step _ invoked]
    exact Machine.exec_step _ loaded _
  · rw [Machine.exec_step _ invoked, Machine.exec_step _ loaded]
    exact Machine.exec_step _ refused _

/-- Without the bound on the tickets none of the reasons is left: the pop is refused
while a completed push waits at the next pop ticket. -/
theorem overrun :
    ∃ (run : (machine (Fin 2) ℕ 1).Run) (i j : ℕ), Span run 1 .pop i j ∧
      (run.state j).call 1 = .popReturn false none ∧
      ∀ m, i ≤ m → m ≤ j → ¬ NoneWaiting (run.state m) ∧ ¬ Filling (run.state m) ∧
        (run.state m).pops.length ∉ (run.state j).released := by
  obtain ⟨ls, s, reached, failed, rest, filled, pops, released, -⟩ := exec_overrun
  obtain ⟨one, two, three⟩ := exec_pop_refused 1 s (rest 1) failed
  let last : List (Label (Fin 2) ℕ) := [.invoke 1 .pop, .step 1 false, .step 1 false]
  have enabled : ((machine (Fin 2) ℕ 1).exec (machine (Fin 2) ℕ 1).start (ls ++ last)).isSome := by
    rw [Machine.exec_trans _ reached three]
    rfl
  let run := Machine.Run.ofSchedule _ (.invoke 0 .pop) (ls ++ last) enabled
  have state : ∀ {i s'}, (machine (Fin 2) ℕ 1).exec s (last.take i) = some s' →
      run.state (ls.length + i) = s' := by
    intro i s' h
    change ((machine (Fin 2) ℕ 1).exec _ ((ls ++ last).take (ls.length + i))).getD _ = s'
    rw [Machine.exec_take_append _ reached, h, Option.getD_some]
  have zero : run.state ls.length = s := state (i := 0) rfl
  have one := state (i := 1) one
  have two := state (i := 2) two
  have three := state (i := 3) three
  have history : ∀ m, ls.length ≤ m → m ≤ ls.length + 3 →
      (run.state m).filled = s.filled ∧ (run.state m).pops = s.pops ∧
        (run.state m).released = s.released := by
    intro m low high
    obtain rfl | rfl | rfl | rfl : m = ls.length ∨ m = ls.length + 1 ∨ m = ls.length + 2 ∨
        m = ls.length + 3 := by omega
    · rw [zero]; exact ⟨rfl, rfl, rfl⟩
    · rw [one]; exact ⟨rfl, rfl, rfl⟩
    · rw [two]; exact ⟨rfl, rfl, rfl⟩
    · rw [three]; exact ⟨rfl, rfl, rfl⟩
  refine ⟨run, ls.length, ls.length + 3, ⟨by omega, ?_, ?_, ?_, ?_⟩, ?_, ?_⟩
  · change ls.length + 3 ≤ (ls ++ last).length
    simp [last]
  · change (ls ++ last).getD ls.length _ = _
    simp [last]
  · intro m low high
    obtain rfl | rfl : m = ls.length + 1 ∨ m = ls.length + 2 := by omega
    · rw [one]; simp [State.setCall, Call.atRest]
    · rw [two]; simp [State.setCall, Call.atRest]
  · rw [three]; simp [State.setCall, Call.atRest]
  · rw [three]; simp [State.setCall]
  · intro m low high
    obtain ⟨sameFilled, samePops, -⟩ := history m low high
    obtain ⟨-, -, sameReleased⟩ := history (ls.length + 3) (by omega) le_rfl
    refine ⟨?_, ?_, ?_⟩
    · intro none
      have := none _ (sameFilled ▸ filled)
      rw [samePops] at this
      omega
    · rintro ⟨-, notFilled⟩
      rw [samePops, pops, sameFilled] at notFilled
      exact notFilled filled
    · rw [samePops, pops, sameReleased]
      exact released

/-- A push is refused with room and a pop with an element throughout the call, and after
too long a sleep none of the three reasons is left. -/
theorem refusals_without_cause :
    ¬ PushRefusedWhenFull (Fin 2) ℕ 2 ∧ ¬ PopRefusedWhenNoneWaiting (Fin 3) ℕ 2 ∧
      ∃ (run : (machine (Fin 2) ℕ 1).Run) (i j : ℕ), Span run 1 .pop i j ∧
        (run.state j).call 1 = .popReturn false none ∧
        ∀ m, i ≤ m → m ≤ j → ¬ NoneWaiting (run.state m) ∧ ¬ Filling (run.state m) ∧
          (run.state m).pops.length ∉ (run.state j).released :=
  ⟨overtaken_not_full, blocked_not_empty, overrun⟩

end LockFreeQueue
