import CppConcurrency.LockFreeQueueTickets

/-!
# Claim order is FIFO, under every interleaving

The history of a run lists the successful compare-exchanges with the counter value
each of them took. While fewer than `2 ^ 64` tickets are issued every step is timely,
so the ticket invariant holds in every reachable state and gives the four statements
about the counters, the claims, the slots and the values.
-/

namespace LockFreeQueue

open Machines WordCounters TicketRings LockFreeQueueCpp11

universe u v

variable {Tid : Type v} {T : Type u} {k : ℕ}

/-- The slot a call is in between its successful compare-exchange and its final store,
given by the counter value it took. -/
def Call.inSlot : Call T → Option SizeT
  | .pushConstruct _ tail | .pushPublish tail => some tail
  | .popCopy head | .popDestroy head _ | .popRelease head _ => some head
  | _ => none

theorem next_pushes [DecidableEq Tid] {s s' : State Tid T} {l : Label Tid T} (hs : next s l = some s') :
    s.pushes.length ≤ s'.pushes.length := by
  cases next_step hs with
  | invoke => exact le_rfl
  | step =>
    simp only [record]
    split <;> simp [State.see, State.setCall]

theorem timely_of_few {s : State Tid T} (pushes : s.pushes.length < 2 ^ 64)
    (pops : s.pops.length < 2 ^ 64) (l : Label Tid T) : Timely s l := by
  cases l with
  | invoke t op => trivial
  | step t spurious =>
    simp only [Timely]
    split <;> first | omega | trivial

theorem Inv.timely {R : TicketRing (2 ^ k)} {s : State Tid T} (h : Inv R s)
    (few : s.pushes.length < 2 ^ 64) (l : Label Tid T) : Timely s l := by
  have := h.pushes_length
  have := h.pops_length
  have := R.head_le_tail
  exact timely_of_few few (by omega) l

/-- In every run of fewer than `2 ^ 64` tickets the invariant holds throughout. -/
theorem reach_inv [DecidableEq Tid] {capacity : SizeT} (pos : 1 ≤ capacity.toNat)
    (small : capacity.toNat ≤ 2 ^ 63) {s : State Tid T}
    (reached : (machine Tid T capacity).Reach s) (few : s.pushes.length < 2 ^ 64) :
    ∃ k, (new (T := T) capacity).capacity.toNat = 2 ^ k ∧ ∃ R : TicketRing (2 ^ k), Inv R s := by
  obtain ⟨k, hcap, start⟩ := start_inv Tid T capacity pos small
  refine ⟨k, hcap, ?_⟩
  induction reached with
  | start => exact start
  | next _ _ hs ih =>
    have fewer := next_pushes hs
    obtain ⟨R, h⟩ := ih (by omega)
    exact h.step (h.timely (by omega) _) hs

/-- The rings behind the states that timely steps reach all have the same size. -/
theorem reachBy_inv (Tid : Type v) [DecidableEq Tid] (T : Type u) {capacity : SizeT}
    (pos : 1 ≤ capacity.toNat) (small : capacity.toNat ≤ 2 ^ 63) :
    ∃ k, (new (T := T) capacity).capacity.toNat = 2 ^ k ∧
      ∀ s, (machine Tid T capacity).ReachBy Timely s → ∃ R : TicketRing (2 ^ k), Inv R s := by
  obtain ⟨k, hcap, start⟩ := start_inv Tid T capacity pos small
  refine ⟨k, hcap, fun s reached => ?_⟩
  refine reached.invariant (P := fun s => ∃ R : TicketRing (2 ^ k), Inv R s) _ start ?_
  rintro s l s' ⟨R, h⟩ meets hs
  exact h.step meets hs

section

variable {R : TicketRing (2 ^ k)} {s : State Tid T}

theorem Inv.owns (h : Inv R s) {t : Tid} {w : SizeT} (inSlot : (s.call t).inSlot = some w) :
    w = BitVec.ofNat 64 (s.seen t) ∧ Owns R s t (s.seen t) := by
  have fact := h.facts t
  cases hc : s.call t with
  | pushConstruct d x =>
    rw [hc] at fact inSlot
    obtain rfl : x = w := by simpa [Call.inSlot] using inSlot
    exact ⟨fact.1, Or.inl ⟨d, fact.2⟩⟩
  | pushPublish x =>
    rw [hc] at fact inSlot
    obtain rfl : x = w := by simpa [Call.inSlot] using inSlot
    obtain ⟨hw, d, hp, -⟩ := fact
    exact ⟨hw, Or.inl ⟨d, hp⟩⟩
  | popCopy x | popDestroy x | popRelease x =>
    rw [hc] at fact inSlot
    obtain rfl : x = w := by simpa [Call.inSlot] using inSlot
    exact ⟨fact.1, Or.inr fact.2.1⟩
  | rest | pushLoad | pushTest | pushClaim | pushReturn | popLoad | popTest | popClaim
  | popReturn => rw [hc] at inSlot; simp [Call.inSlot] at inSlot

/-- No two calls are in one slot. -/
theorem Inv.slots_apart (h : Inv R s) {t t' : Tid} (other : t ≠ t') {w w' : SizeT}
    (hw : (s.call t).inSlot = some w) (hw' : (s.call t').inSlot = some w') :
    s.q.slot w ≠ s.q.slot w' := by
  obtain ⟨rfl, owner⟩ := h.owns hw
  obtain ⟨rfl, owner'⟩ := h.owns hw'
  rw [h.ring.slot_ofNat, h.ring.slot_ofNat]
  intro same
  exact other (owner.unique owner' same).1

/-- Fewer than `2 ^ 64` tickets make the counter a plain number. -/
theorem Inv.counters (h : Inv R s) (few : s.pushes.length < 2 ^ 64) :
    s.q.tail.toNat = R.tail ∧ s.q.head.toNat = R.head := by
  have := h.pushes_length
  have := R.head_le_tail
  rw [h.ring.tail, h.ring.head, BitVec.toNat_ofNat, BitVec.toNat_ofNat,
    Nat.mod_eq_of_lt (by omega), Nat.mod_eq_of_lt (by omega)]
  exact ⟨rfl, rfl⟩

/-- The claims took the counter values `0, 1, 2, ...`, each of them once. -/
theorem claims_range {E : Type*} (claims : List (SizeT × E)) (few : claims.length ≤ 2 ^ 64)
    (word : ∀ (n : ℕ) e, claims[n]? = some e → e.1 = BitVec.ofNat 64 n) :
    claims.map (fun e => e.1.toNat) = List.range claims.length := by
  apply List.ext_getElem (by simp)
  intro n hn hn'
  simp only [List.length_map] at hn
  rw [List.getElem_map, List.getElem_range, word n _ (List.getElem?_eq_getElem hn),
    BitVec.toNat_ofNat, Nat.mod_eq_of_lt (by omega)]

theorem Inv.delivered (h : Inv R s) {n : ℕ} {t : Tid} {r : Option T}
    (hr : (n, t, r) ∈ s.copied) :
    ∃ w p value, s.pops[n]? = some (w, t) ∧ s.pushes[n]? = some (w, p, value) ∧
      r = some value := by
  obtain ⟨hp, hs, some⟩ := h.copied n t r hr
  rw [hs, State.sent, Option.isSome_map, Option.isSome_iff_exists] at some
  obtain ⟨⟨w, p, value⟩, he⟩ := some
  obtain rfl := h.pushes_word n _ he
  exact ⟨_, p, value, hp, he, by rw [hs, State.sent, he]; rfl⟩

/-- An element that is in and not yet claimed by a pop is stored in its slot. -/
theorem Inv.intact (h : Inv R s) {n : ℕ} (hn : n ∈ s.filled) (unclaimed : s.pops.length ≤ n) :
    (s.q.node (BitVec.ofNat 64 n)).data = s.sent n ∧ (s.sent n).isSome := by
  have hcap := Nat.two_pow_pos k
  have hi := Nat.mod_lt n hcap
  have hlen := h.pops_length
  have hlen' := h.pushes_length
  rw [h.ring.node_ofNat]
  rcases (h.filled n).mp hn with old | ⟨now, full⟩
  · have := R.passed hcap old
    omega
  · have drawn := R.full_drawn _ hi full
    have stored := h.stored _ hi full (by omega)
    rw [← now] at stored drawn
    refine ⟨stored, ?_⟩
    rw [State.sent, List.getElem?_eq_getElem (by omega : n < s.pushes.length)]
    rfl

end

/-- Every reachable state of a run with fewer than `2 ^ 64` tickets: the counters stay
within `_capacity` of each other; every ticket below them was claimed exactly once; no
two calls are in one slot; a pop obtains, and returns, the value of the push that
claimed the same ticket, each ticket is copied out once, and an element whose ticket
no pop has claimed lies intact in its slot. -/
theorem tickets_are_fifo [DecidableEq Tid] {capacity : SizeT} (pos : 1 ≤ capacity.toNat)
    (small : capacity.toNat ≤ 2 ^ 63) {s : State Tid T}
    (reached : (machine Tid T capacity).Reach s) (few : s.pushes.length < 2 ^ 64) :
    (s.q.head.toNat ≤ s.q.tail.toNat ∧
      s.q.tail.toNat ≤ s.q.head.toNat + (new (T := T) capacity).capacity.toNat) ∧
    (s.pushes.map (fun e => e.1.toNat) = List.range s.q.tail.toNat ∧
      s.pops.map (fun e => e.1.toNat) = List.range s.q.head.toNat) ∧
    (∀ t t' w w', t ≠ t' → (s.call t).inSlot = some w → (s.call t').inSlot = some w' →
      s.q.slot w ≠ s.q.slot w') ∧
    ((∀ n t r, (n, t, r) ∈ s.copied → ∃ w p value, s.pops[n]? = some (w, t) ∧
        s.pushes[n]? = some (w, p, value) ∧ r = some value) ∧
      (s.copied.map Prod.fst).Nodup ∧
      (∀ t r, s.call t = .popReturn true r → ∃ n, (n, t, r) ∈ s.copied) ∧
      ∀ n ∈ s.filled, s.pops.length ≤ n →
        (s.q.node (BitVec.ofNat 64 n)).data = s.sent n ∧ (s.sent n).isSome) := by
  obtain ⟨k, hcap, R, h⟩ := reach_inv pos small reached few
  obtain ⟨htail, hhead⟩ := h.counters few
  have pushes := h.pushes_length
  have pops := h.pops_length
  have order := R.head_le_tail
  have bound := R.tail_le_head_add (Nat.two_pow_pos k)
  refine ⟨⟨by omega, by omega⟩, ⟨?_, ?_⟩, ?_, ?_, h.copied_once, ?_, ?_⟩
  · rw [htail, ← pushes]
    exact claims_range s.pushes (by omega) h.pushes_word
  · rw [hhead, ← pops]
    exact claims_range s.pops (by omega) h.pops_word
  · exact fun t t' w w' other => h.slots_apart other
  · exact fun n t r => h.delivered
  · intro t r returned
    have fact := h.facts t
    rw [returned] at fact
    exact ⟨s.seen t, fact⟩
  · exact fun n hn unclaimed => h.intact hn unclaimed

/-- Thread 1 tests slot 0 while thread 0 claims it, loses the compare-exchange and takes
slot 1; thread 2 pops while thread 1 is still in its slot. -/
def overlapped : List (Label (Fin 3) ℕ) :=
  [.invoke 0 (.push 5), .invoke 1 (.push 6), .step 0 false, .step 1 false, .step 1 false,
    .step 0 false, .step 0 false, .step 1 false, .step 1 false, .step 1 false, .step 0 false,
    .step 0 false, .invoke 2 .pop, .step 2 false, .step 2 false, .step 2 true, .step 2 false,
    .step 2 false, .step 2 false, .step 2 false, .step 2 false]

theorem tickets_are_fifo_overlapped :
    ∃ s, (machine (Fin 3) ℕ 2).exec (machine (Fin 3) ℕ 2).start overlapped = some s ∧
      s.pushes.map (fun e => e.1.toNat) = List.range 2 ∧ s.copied = [(0, 2, some 5)] ∧
      s.q.tail.toNat ≤ s.q.head.toNat + 2 := by
  obtain ⟨s, run⟩ := Option.isSome_iff_exists.mp (show ((machine (Fin 3) ℕ 2).exec
    (machine (Fin 3) ℕ 2).start overlapped).isSome = true by decide)
  have shape : ((machine (Fin 3) ℕ 2).exec (machine (Fin 3) ℕ 2).start overlapped).map
      (fun s => (s.pushes.length, s.q.tail.toNat, s.copied)) = some (2, 2, [(0, 2, some 5)]) := rfl
  simp only [run, Option.map_some, Option.some.injEq, Prod.mk.injEq] at shape
  obtain ⟨pushes, tail, copied⟩ := shape
  have all := tickets_are_fifo (by decide) (by decide)
    ((machine (Fin 3) ℕ 2).reach_of_exec run) (by rw [pushes]; decide)
  exact ⟨s, run, tail ▸ all.2.1.1, copied, all.1.2⟩

end LockFreeQueue
