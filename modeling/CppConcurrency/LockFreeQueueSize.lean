import CppConcurrency.LockFreeQueueRefusals

/-!
# `size()` while other threads push and pop

`size()` loads `_head` first and `_tail` later. What is pushed in between counts, and what
is popped in between does not count off, so the result is never negative, and it exceeds
the capacity by at most as many elements as were popped between the two loads.
-/

namespace LockFreeQueue

open Machines TicketRings LockFreeQueueCpp11

universe u v

variable {Tid : Type v} {T : Type u} {k : ℕ}

/-- What `size()` returns when it loads `_head` in state `s` and `_tail` in state `s'`. -/
def sizeBetween (s s' : State Tid T) : SizeT := s'.q.tail - s.q.head

theorem sizeBetween_self (s : State Tid T) : sizeBetween s s = s.q.size := rfl

/-- Every `size()` that any run can observe is at most the capacity. -/
def SizeWithinCapacity (Tid : Type v) [DecidableEq Tid] (T : Type u) (capacity : SizeT) : Prop :=
  ∀ (run : (machine Tid T capacity).Run) i j, i ≤ j → j ≤ run.length →
    (sizeBetween (run.state i) (run.state j)).toNat ≤ (new (T := T) capacity).capacity.toNat

section Runs

variable [DecidableEq Tid] {capacity : SizeT} {run : (machine Tid T capacity).Run}

theorem next_pops {s s' : State Tid T} {l : Label Tid T} (hs : next s l = some s') :
    s.pops.length ≤ s'.pops.length := by
  cases next_step hs with
  | invoke => exact le_rfl
  | step =>
    simp only [record]
    split <;> simp [State.see, State.setCall]

/-- In runs whose compare-exchanges are timely, `size()` returns, modulo `2 ^ 64`, the pushes
claimed by its second load less the pops claimed by its first. This is not negative, and at
most the capacity and the pops claimed between the two loads. -/
theorem size_within (pos : 1 ≤ capacity.toNat) (small : capacity.toNat ≤ 2 ^ 63)
    (timely : run.Meets Timely) {i j : ℕ} (order : i ≤ j) (inside : j ≤ run.length) :
    let cap := (new (T := T) capacity).capacity.toNat
    let pushed := (run.state j).pushes.length
    let popped := (run.state i).pops.length
    let between := (run.state j).pops.length - popped
    let size := sizeBetween (run.state i) (run.state j)
    popped ≤ pushed ∧ pushed - popped ≤ cap + between ∧
      size = BitVec.ofNat 64 (pushed - popped) ∧ size.toNat ≤ cap + between := by
  obtain ⟨k, hcap, inv⟩ := reachBy_inv Tid T pos small
  obtain ⟨R, h⟩ := inv _ (run.reachBy timely (by omega : i ≤ run.length))
  obtain ⟨R', h'⟩ := inv _ (run.reachBy timely inside)
  have grow : (run.state i).pops.length ≤ (run.state j).pops.length :=
    run.monotone (R := fun a b => a.pops.length ≤ b.pops.length) (fun _ => le_rfl)
      (fun _ _ _ => le_trans) (fun _ _ _ => next_pops) order inside
  have pops := h.pops_length
  have pushes' := h'.pushes_length
  have pops' := h'.pops_length
  have ahead := R'.head_le_tail
  have bound := R'.tail_le_head_add (Nat.two_pow_pos k)
  have size : sizeBetween (run.state i) (run.state j) =
      BitVec.ofNat 64 ((run.state j).pushes.length - (run.state i).pops.length) := by
    rw [sizeBetween, h'.ring.tail, h.ring.head, pushes', pops, BitVec.sub_eq_iff_eq_add,
      ← BitVec.ofNat_add]
    congr 1
    omega
  simp only [hcap]
  refine ⟨by omega, by omega, size, ?_⟩
  rw [size, BitVec.toNat_ofNat]
  have low := Nat.mod_le ((run.state j).pushes.length - (run.state i).pops.length) (2 ^ 64)
  omega

end Runs

/-- A push, a pop and a push on a queue of one slot, of which `size()` sees no pop. -/
def pushPopPush : List (Label (Fin 2) ℕ) :=
  .invoke 0 (.push 5) :: List.replicate 5 (.step 0 false) ++
    .invoke 0 .pop :: List.replicate 6 (.step 0 false) ++
    .invoke 0 (.push 6) :: List.replicate 5 (.step 0 false)

def pushPopPushRun : (machine (Fin 2) ℕ 1).Run :=
  .ofSchedule _ (.invoke 0 .pop) pushPopPush (by decide)

theorem size_within_one : (sizeBetween (pushPopPushRun.state 0) (pushPopPushRun.state 19)).toNat ≤
    1 + ((pushPopPushRun.state 19).pops.length - 0) := by
  have few : ∀ m, m < 19 → (pushPopPushRun.state m).pushes.length < 2 ^ 64 ∧
      (pushPopPushRun.state m).pops.length < 2 ^ 64 := by decide +kernel
  have timely : pushPopPushRun.Meets Timely := fun m hm => timely_of_few (few m hm).1 (few m hm).2 _
  obtain ⟨-, -, -, bound⟩ := size_within (by decide) (by decide) timely (Nat.zero_le 19) (by decide)
  exact bound

/-- The second push counts although the first element is gone. In a run in which a call
sleeps for `2 ^ 64` tickets, the size is too large even if no pop comes in between. -/
theorem size_exceeds_capacity : ¬ SizeWithinCapacity (Fin 2) ℕ 1 ∧
    ∃ (run : (machine (Fin 2) ℕ 1).Run) (i : ℕ), i ≤ run.length ∧
      (new (T := ℕ) 1).capacity.toNat < (sizeBetween (run.state i) (run.state i)).toNat := by
  constructor
  · intro claim
    exact absurd (claim pushPopPushRun 0 19 (by decide) (by decide)) (by decide +kernel)
  · obtain ⟨ls, s, reached, -, -, -, -, -, size, -⟩ := exec_overrun
    have enabled : ((machine (Fin 2) ℕ 1).exec (machine (Fin 2) ℕ 1).start ls).isSome := by
      rw [reached]
      rfl
    let run := Machine.Run.ofSchedule _ (.invoke 0 .pop) ls enabled
    have last : run.state ls.length = s := by
      change ((machine (Fin 2) ℕ 1).exec _ (ls.take ls.length)).getD _ = s
      rw [List.take_length, reached, Option.getD_some]
    refine ⟨run, ls.length, le_rfl, ?_⟩
    rw [last, sizeBetween, size]
    decide

end LockFreeQueue
