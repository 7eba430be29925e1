import CppConcurrency.ThreadSafeQueueFifo

/-!
# Notifications of `ThreadSafeQueue` that nobody hears

`push` changes the tail and notifies without `head_mutex`, so its notification can come
when a consumer has found the queue empty and has not blocked yet. That consumer then
sleeps beside the element. The invariant that would exclude this counts: while a
consumer waits, each element in the queue has a notification on its way or a pop that
has still to take an element. Only a notification that reaches nobody can break it.
-/

namespace ThreadSafeQueue

open Machines Threads LinkedChains

universe u v

variable {Tid : Type v} {T : Type u}

/-- A push about to notify, or a pop that has still to look at the queue or to take the
element it has seen. -/
def Call.coming : Call T → Bool
  | .pushNotify | .lockHead _ | .woken _ | .lockTail _ | .readTail _ | .copy _ | .takeHead _ _ => true
  | _ => false

/-- A consumer that found the queue empty and goes to sleep or sleeps. -/
def Call.waiting : Call T → Bool
  | .block _ | .blocked _ => true
  | _ => false

/-- The queue is non-empty, some call is unfinished, and every unfinished call is a
consumer blocked in `cond.wait`: all pushes have returned from `notify_one`, and no
notification has reached any of the consumers. -/
structure LostWakeUp (s : State Tid T) : Prop where
  nonempty : s.head ≠ some s.tail
  unfinished : ∃ t, (s.call t).atRest = false
  blocked : ∀ t, (s.call t).atRest = false → (s.call t).isBlocked = true

/-- A `notify_one` that finds nobody blocked while a consumer is about to block leaves
no more elements in the queue than there are other pushes about to notify and pops
that have still to take an element. -/
def Heard [Fintype Tid] (s : State Tid T) : Label Tid T → Prop
  | .notify _ none => (∃ u, (s.call u).waiting = true) →
    s.pushed.length + 1 ≤ s.popped.length + census Call.coming s.call
  | _ => True

/-- While a consumer waits, every element in the queue is being attended to. -/
def Covered [Fintype Tid] (s : State Tid T) : Prop :=
  (∃ u, (s.call u).waiting = true) →
    s.pushed.length ≤ s.popped.length + census Call.coming s.call

section

variable [DecidableEq Tid] {front : Addr} {nodes : List (Addr × T)} {s s' : State Tid T} {t : Tid}

/-- What one step does to the balance: a consumer starts to wait only on an empty
queue, and otherwise each element that comes in brings a notification and each pop
that leaves the count takes an element out. -/
theorem Inv.balance (h : Inv front nodes s) (hs : ThreadSafeQueue.advance s t = some s') :
    ∃ c, s'.call = Function.update s.call t c ∧
      (s'.pushed.length = s'.popped.length ∨
        (c.waiting = true → (s.call t).waiting = true) ∧
          s'.pushed.length + s.popped.length + (s.call t).coming.toNat ≤
            s.pushed.length + s'.popped.length + c.coming.toNat) := by
  unfold ThreadSafeQueue.advance at hs
  cases hc : s.call t with
  | rest | pushAlloc | pushNotify | pushReturn | blocked | popReturn | undefined =>
    simp only [hc] at hs
    cases hs
  | pushLock data p | lockHead pop | woken pop | lockTail pop =>
    simp only [hc] at hs
    split at hs
    · cases hs
    · obtain rfl := Option.some.inj hs
      exact ⟨_, rfl, Or.inr ⟨fun w => (by cases w), le_rfl⟩⟩
  | pushData data p =>
    obtain ⟨tail, -⟩ := h.pushData hc
    simp only [hc, tail] at hs
    obtain rfl := Option.some.inj hs
    exact ⟨_, rfl, Or.inr ⟨fun w => (by cases w), le_rfl⟩⟩
  | pushNext data p =>
    obtain ⟨tail, -⟩ := h.pushNext hc
    simp only [hc, tail] at hs
    obtain rfl := Option.some.inj hs
    exact ⟨_, rfl, Or.inr ⟨fun w => (by cases w), le_rfl⟩⟩
  | pushTail data p =>
    simp only [hc] at hs
    obtain rfl := Option.some.inj hs
    refine ⟨_, rfl, Or.inr ⟨fun w => (by cases w), ?_⟩⟩
    simp only [State.setCall, List.length_append, List.length_singleton, Call.coming,
      Bool.toNat_false, Bool.toNat_true]
    omega
  | readTail pop =>
    simp only [hc] at hs
    have fact := h.facts t
    rw [hc] at fact
    have len := h.length
    by_cases empty : s.head = some s.tail
    · have none := (h.chain.eq_iff h.dummy).mp (Option.some.inj (fact.1.symm.trans empty))
      rw [none, List.length_nil] at len
      obtain rfl := Option.some.inj hs
      exact ⟨_, rfl, Or.inl (by simpa [State.setCall] using len.symm)⟩
    · simp only [if_neg empty] at hs
      obtain rfl := Option.some.inj hs
      refine ⟨_, rfl, Or.inr ?_⟩
      split
      · exact ⟨fun w => (by cases w), le_rfl⟩
      · exact ⟨fun w => (by cases w), le_rfl⟩
  | refuse | block =>
    simp only [hc] at hs
    obtain rfl := Option.some.inj hs
    exact ⟨_, rfl, Or.inr ⟨fun w => (by simp_all [Call.waiting]), le_rfl⟩⟩
  | copy pop =>
    obtain ⟨v, n, read, -⟩ := h.copy hc
    simp only [hc, read] at hs
    obtain rfl := Option.some.inj hs
    exact ⟨_, rfl, Or.inr ⟨fun w => (by cases w), le_rfl⟩⟩
  | takeHead pop value =>
    obtain ⟨head, -⟩ := h.takeHead hc
    simp only [hc, head] at hs
    obtain rfl := Option.some.inj hs
    refine ⟨_, rfl, Or.inr ⟨fun w => (by cases w), ?_⟩⟩
    simp only [State.setCall, List.length_append, List.length_singleton, Call.coming,
      Bool.toNat_false, Bool.toNat_true]
    omega
  | relink pop old value =>
    obtain ⟨v, hn, -⟩ := h.relink hc
    simp only [hc, hn] at hs
    obtain rfl := Option.some.inj hs
    exact ⟨_, rfl, Or.inr ⟨fun w => (by cases w), le_rfl⟩⟩
  | finish pop old value =>
    obtain ⟨v, hn, -⟩ := h.finish hc
    simp only [hc, hn] at hs
    obtain rfl := Option.some.inj hs
    exact ⟨_, rfl, Or.inr ⟨fun w => (by cases w), le_rfl⟩⟩

variable [Fintype Tid] {c : Call T} {l : Label Tid T}

theorem Covered.update (cov : Covered s) (call : s'.call = Function.update s.call t c)
    (wait : c.waiting = true → (s.call t).waiting = true)
    (balance : s'.pushed.length + s.popped.length + (s.call t).coming.toNat ≤
      s.pushed.length + s'.popped.length + c.coming.toNat) : Covered s' := by
  rintro ⟨u, hu⟩
  have before : (s.call u).waiting = true := by
    rw [call] at hu
    by_cases here : u = t
    · subst here
      rw [Function.update_self] at hu
      exact wait hu
    · rwa [Function.update_of_ne here] at hu
  have old := cov ⟨u, before⟩
  have count := census_update Call.coming s.call t c
  rw [← call] at count
  omega

/-- A step that touches neither list. -/
theorem Covered.setCall (cov : Covered s) (wait : c.waiting = true → (s.call t).waiting = true)
    (coming : (s.call t).coming.toNat ≤ c.coming.toNat) : Covered (s.setCall t c) := by
  apply cov.update rfl wait
  change s.pushed.length + s.popped.length + _ ≤ s.pushed.length + s.popped.length + _
  omega

/-- The push leaves the count as the consumer it wakes enters it. -/
theorem Covered.notifyOne (cov : Covered s) {u : Tid} {pop : Pop} (hc : s.call t = .pushNotify)
    (hu : s.call u = .blocked pop) :
    Covered ((s.setCall t .pushReturn).setCall u (.woken pop)) := by
  have other : u ≠ t := by
    rintro rfl
    rw [hu] at hc
    cases hc
  intro _
  have old := cov ⟨u, by rw [hu]; rfl⟩
  have first := census_update Call.coming s.call t .pushReturn
  have second := census_update Call.coming (Function.update s.call t .pushReturn) u (.woken pop)
  rw [hc] at first
  rw [Function.update_of_ne other, hu] at second
  simp only [Call.coming, Bool.toNat_true, Bool.toNat_false] at first second
  change s.pushed.length ≤ s.popped.length + census Call.coming _
  simp only [State.setCall]
  omega

theorem Covered.notifyNobody (heard : Heard s (.notify t none)) (hc : s.call t = .pushNotify) :
    Covered (s.setCall t .pushReturn) := by
  rintro ⟨u, hu⟩
  have other : u ≠ t := by
    rintro rfl
    simp [State.setCall, Call.waiting] at hu
  have before : (s.call u).waiting = true := by
    simpa [State.setCall, Function.update_of_ne other] using hu
  have enough := heard ⟨u, before⟩
  have count := census_update Call.coming s.call t .pushReturn
  rw [hc] at count
  simp only [Call.coming, Bool.toNat_true, Bool.toNat_false] at count
  change s.pushed.length ≤ s.popped.length + census Call.coming _
  simp only [State.setCall]
  omega

theorem Covered.next (h : Inv front nodes s) (cov : Covered s) (heard : Heard s l)
    (hs : ThreadSafeQueue.next s l = some s') : Covered s' := by
  cases next_step hs with
  | @invoke t rest op =>
    have idle : (s.call t).coming = false := by
      cases hc : s.call t with
      | rest | pushReturn | popReturn => rfl
      | _ => rw [hc] at rest; cases rest
    refine cov.setCall (fun w => ?_) (by rw [idle]; exact Nat.zero_le _)
    cases op <;> cases w
  | alloc hc =>
    refine cov.update rfl (fun w => (by cases w)) ?_
    rw [hc]
    exact le_rfl
  | notifyOne hc hu => exact cov.notifyOne hc hu
  | notifyNobody hc => exact Covered.notifyNobody heard hc
  | spurious hc => exact cov.setCall (fun w => (by cases w)) (by rw [hc]; exact Nat.zero_le _)
  | step moved =>
    obtain ⟨c, call, empty | ⟨wait, balance⟩⟩ := h.balance moved
    · exact fun _ => by omega
    · exact cov.update call wait balance

end

/-- A call that has returned or sleeps has nothing to do and nothing half done. -/
theorem Call.settled {c : Call T} (h : c.atRest = false → c.isBlocked = true) :
    c.halfDone = false ∧ c.coming = false := by
  cases c with
  | rest | pushReturn | popReturn | blocked => exact ⟨rfl, rfl⟩
  | _ => cases h rfl

/-- In every run in which each notification is heard, no wake-up is lost. -/
theorem no_wakeup_lost_when_heard [DecidableEq Tid] [Fintype Tid] {s : State Tid T}
    (reached : (machine Tid T).ReachBy Heard s) : ¬ LostWakeUp s := by
  have both : (∃ front nodes, Inv front nodes s) ∧ Covered s := by
    refine Machine.ReachBy.invariant _
      (P := fun s => (∃ front nodes, Inv front nodes s) ∧ Covered s) ?_ ?_ reached
    · refine ⟨⟨_, _, start_inv Tid T⟩, ?_⟩
      rintro ⟨u, hu⟩
      cases hu
    · rintro s l s' ⟨⟨front, nodes, h⟩, cov⟩ heard hs
      exact ⟨h.next hs, cov.next h heard hs⟩
  obtain ⟨⟨front, nodes, h⟩, cov⟩ := both
  rintro ⟨nonempty, ⟨t, unfinished⟩, blocked⟩
  have none : census Call.coming s.call = 0 :=
    (census_eq_zero _).mpr fun u => (Call.settled (blocked u)).2
  have waiting : (s.call t).waiting = true := by
    have asleep := blocked t unfinished
    cases hc : s.call t with
    | blocked => rfl
    | _ => rw [hc] at asleep; cases asleep
  have covered := cov ⟨t, waiting⟩
  have len := h.length
  have empty : nodes = [] := List.length_eq_zero_iff.mp (by omega)
  rw [h.head_ptr fun u => (Call.settled (blocked u)).1] at nonempty
  exact nonempty (congrArg some ((h.chain.eq_iff h.dummy).mpr empty))

/-- Thread 1 blocks before thread 0 pushes, and is woken. -/
def woken : List (Label (Fin 2) ℕ) :=
  [.invoke 1 (.pop .waitAndPop), .step 1, .step 1, .step 1, .step 1, .invoke 0 (.push 5),
    .alloc 0 1, .step 0, .step 0, .step 0, .step 0, .notify 0 (some 1)]

theorem no_wakeup_lost_when_heard_woken :
    ∃ s, (machine (Fin 2) ℕ).exec (machine (Fin 2) ℕ).start woken = some s ∧
      s.call 1 = .woken .waitAndPop ∧ ¬ LostWakeUp s := by
  obtain ⟨s, run⟩ := Option.isSome_iff_exists.mp (show ((machine (Fin 2) ℕ).exec
    (machine (Fin 2) ℕ).start woken).isSome = true by decide)
  have shape : ((machine (Fin 2) ℕ).exec (machine (Fin 2) ℕ).start woken).map
      (fun s => s.call 1) = some (.woken .waitAndPop) := rfl
  rw [run] at shape
  refine ⟨s, run, Option.some.inj shape, no_wakeup_lost_when_heard ?_⟩
  refine (machine (Fin 2) ℕ).reachBy_exec ?_ .start run
  simp [woken, Heard]

/-- Thread 1 finds the queue empty, then thread 0 pushes and notifies nobody, and then
thread 1 blocks. -/
def unheard : List (Label (Fin 2) ℕ) :=
  [.invoke 1 (.pop .waitAndPop), .step 1, .step 1, .step 1, .invoke 0 (.push 5), .alloc 0 1,
    .step 0, .step 0, .step 0, .step 0, .notify 0 none, .step 1]

theorem wakeup_lost : ∃ s : State (Fin 2) ℕ, (machine (Fin 2) ℕ).Reach s ∧ LostWakeUp s := by
  obtain ⟨s, run⟩ := Option.isSome_iff_exists.mp (show ((machine (Fin 2) ℕ).exec
    (machine (Fin 2) ℕ).start unheard).isSome = true by decide)
  have shape : ((machine (Fin 2) ℕ).exec (machine (Fin 2) ℕ).start unheard).map
      (fun s => (s.call 0, s.call 1, s.head, s.tail)) =
        some (.pushReturn, .blocked .waitAndPop, some 0, 1) := rfl
  simp only [run, Option.map_some, Option.some.injEq, Prod.mk.injEq] at shape
  obtain ⟨push, pop, head, tail⟩ := shape
  refine ⟨s, (machine (Fin 2) ℕ).reach_of_exec run, ?_, ⟨1, by rw [pop]; rfl⟩, ?_⟩
  · rw [head, tail]
    decide
  · refine Fin.forall_fin_two.mpr ⟨fun unfinished => ?_, fun _ => by rw [pop]; rfl⟩
    rw [push] at unfinished
    cases unfinished

end ThreadSafeQueue
