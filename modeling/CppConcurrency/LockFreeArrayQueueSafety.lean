import CppConcurrency.LockFreeArrayQueueTickets

/-!
# Claimed indices are served, under every interleaving

A claim precedes the use of the slot by any number of steps of other threads, and a call
in its wait loop may depend on one that waits itself. The slots' turns order these calls:
whoever has its turn finds its marker, and while a claimed index is not served some slot
has its turn on a claimed index.
-/

namespace LockFreeArray

open Machines PhasedRings

universe u v

variable {E : Type u} {Tid : Type v} {k : ℕ}

/-- The index that the call has claimed and the marker that its wait loop expects there. -/
def Call.awaits (size : ℕ) : Call E → Option (ℕ × ℤ)
  | .pushWait _ write | .pushStore _ write | .pushMark write => some (write, pushMarker size write)
  | .popWait read | .popTake read | .popLeave read _ | .popMark read _ => some (read, popMarker read)
  | _ => none

section

variable {R : PhasedRing (2 ^ k)} {s : State Tid E}

theorem Inv.unserved (h : Inv R s) {t : Tid} {size : ℕ} (awaits : (s.call t).awaits size ≠ none) :
    ∃ n, n < R.tail ∧ ¬ R.Filled n ∨ n < R.head ∧ ¬ R.Emptied n := by
  have fact := h.facts t
  have pushed : ∀ (n : ℕ) x, s.pushes[n]? = some x → n < R.tail := fun n x found =>
    h.pushes_length ▸ (List.getElem?_eq_some_iff.mp found).1
  have popped : ∀ (n : ℕ) x, s.pops[n]? = some x → n < R.head := fun n x found =>
    h.pops_length ▸ (List.getElem?_eq_some_iff.mp found).1
  cases hc : s.call t with
  | pushWait e write =>
    rw [hc] at fact
    exact ⟨write, Or.inl ⟨pushed _ _ fact.1, fact.2⟩⟩
  | pushStore e write =>
    rw [hc] at fact
    exact ⟨write, Or.inl ⟨pushed _ _ fact.1, fact.2.not_filled⟩⟩
  | pushMark write =>
    rw [hc] at fact
    obtain ⟨e, mine, turn, -⟩ := fact
    exact ⟨write, Or.inl ⟨pushed _ _ mine, turn.not_filled⟩⟩
  | popWait read =>
    rw [hc] at fact
    exact ⟨read, Or.inr ⟨popped _ _ fact.1, fact.2⟩⟩
  | popTake read | popLeave read e | popMark read e =>
    rw [hc] at fact
    exact ⟨read, Or.inr ⟨popped _ _ fact.1, fact.2.1.not_emptied⟩⟩
  | _ =>
    rw [hc] at awaits
    exact absurd rfl awaits

theorem Inv.exists_ready (h : Inv R s) (busy : ∃ t, (s.call t).awaits (2 ^ k) ≠ none) :
    ∃ t index marker, (s.call t).awaits (2 ^ k) = some (index, marker) ∧
      s.q.activeQueue (s.q.transIndex index) = marker := by
  obtain ⟨t, awaits⟩ := busy
  obtain ⟨m, unserved⟩ := h.unserved awaits
  obtain ⟨n, ⟨drawn, turn⟩ | ⟨drawn, turn⟩⟩ := R.exists_ready (Nat.two_pow_pos k) unserved
  · obtain ⟨u, pushing⟩ := (h.pushing n drawn).resolve_left turn.not_filled
    refine ⟨u, n, pushMarker (2 ^ k) n, ?_, by rw [h.transIndex, h.fill_marker n turn]⟩
    cases hc : s.call u with
    | pushWait | pushStore | pushMark =>
      rw [hc] at pushing
      cases pushing
      rfl
    | _ =>
      rw [hc] at pushing
      cases pushing
  · obtain ⟨u, popping⟩ := (h.popping n drawn).resolve_left turn.not_emptied
    refine ⟨u, n, popMarker n, ?_, by rw [h.transIndex, h.empty_marker n turn]⟩
    cases hc : s.call u with
    | popWait | popTake | popLeave | popMark =>
      rw [hc] at popping
      cases popping
      rfl
    | _ =>
      rw [hc] at popping
      cases popping

theorem claims_range {A : Type*} (claims : List (ℕ × A))
    (index : ∀ (n : ℕ) x, claims[n]? = some x → x.1 = n) :
    claims.map Prod.fst = List.range claims.length := by
  apply List.ext_getElem
  · rw [List.length_map, List.length_range]
  · intro n hn hn'
    rw [List.length_map] at hn
    rw [List.getElem_map, List.getElem_range, index n _ (List.getElem?_eq_getElem hn)]

theorem Inv.sent_iff (h : Inv R s) {n : ℕ} {e : E} :
    s.sent n = some e ↔ ∃ t, s.pushes[n]? = some (n, t, e) := by
  constructor
  · intro sent
    obtain ⟨⟨m, t, value⟩, found, same⟩ := Option.map_eq_some_iff.mp sent
    obtain rfl : m = n := h.pushes_index n _ found
    obtain rfl : value = e := same
    exact ⟨t, found⟩
  · rintro ⟨t, found⟩
    rw [State.sent, found]
    rfl

/-- An element that is in and not taken lies in its slot. -/
theorem Inv.intact (h : Inv R s) {n : ℕ} (stored : n ∈ s.stored)
    (left : n ∉ s.taken.map Prod.fst) :
    ∃ t, s.pushes[n]? = some (n, t, s.q.elementQueue (s.q.transIndex n)) := by
  rw [h.transIndex]
  rcases (h.stored n).mp stored with filled | ⟨t, storing⟩
  · have here : ¬ R.Emptied n := fun gone => left ((h.taken n).mpr (Or.inl gone))
    exact h.sent_iff.mp (h.held n (PhasedRing.toEmpty_of_filled filled here) left).symm
  · obtain ⟨⟨e, mine, rfl⟩, -⟩ := h.storing_owner storing
    exact ⟨t, mine⟩

/-- A push that writes has its turn, so the element one lap before it was taken. -/
theorem Inv.taken_before (h : Inv R s) {t : Tid} {e : E} {n : ℕ}
    (hc : s.call t = .pushStore e (n + 2 ^ k)) : n ∈ s.taken.map Prod.fst := by
  have fact := h.facts t
  rw [hc] at fact
  exact (h.taken n).mpr (Or.inl (fact.2.emptied (Nat.two_pow_pos k)))

end

theorem reach_inv [DecidableEq Tid] {lock : ℤ} {blank : E} {q : LockFreeArrayQueue E}
    (accepted : LockFreeArrayQueue.init lock blank (2 ^ k) = .ok q) {moved : E → E}
    {s : State Tid E} (reached : (machine Tid moved q).Reach s) :
    ∃ R : PhasedRing (2 ^ k), Inv R s :=
  reached.invariant (P := fun s => ∃ R : PhasedRing (2 ^ k), Inv R s) _
    ⟨_, start_inv accepted⟩ fun _ _ _ ⟨_, h⟩ _ hs => h.step hs

/-! ### A call in a run -/

def Label.thread : Label Tid E → Tid
  | .invoke t _ => t
  | .step t => t

/-- A call of `t` is invoked by step `i` of the run and has just returned in state `j`. -/
structure Span [DecidableEq Tid] {moved : E → E} {q : LockFreeArrayQueue E}
    (run : (machine Tid moved q).Run) (t : Tid) (op : Op E) (i j : ℕ) : Prop where
  order : i < j
  inside : j ≤ run.length
  invoked : run.label i = .invoke t op
  running : ∀ m, i < m → m < j → ((run.state m).call t).atRest = false
  returned : ((run.state j).call t).atRest = true

section Runs

variable [DecidableEq Tid] {moved : E → E} {s s' : State Tid E} {t : Tid} {l : Label Tid E}

/-- A step moves the call of its own thread only. -/
theorem next_other (hs : next moved s l = some s') (other : t ≠ l.thread) :
    s'.call t = s.call t := by
  cases next_step hs with
  | invoke | move | pushClaim | pushStore | pushMark | popClaim | popTake | popLeave | popMark =>
    exact Function.update_of_ne other _ _

/-- A pop that is busy with an index was busy with it before, or this step has claimed it. -/
theorem next_popping (hs : next moved s l = some s') {n : ℕ}
    (popping : (s'.call t).popping = some n) :
    (s.call t).popping = some n ∨ l = .step t ∧ s.call t = .popClaim n := by
  by_cases other : t ≠ l.thread
  · rw [next_other hs other] at popping
    exact Or.inl popping
  rw [not_not] at other
  subst other
  cases next_step hs with
  | invoke rest op =>
    simp only [State.setCall, Label.thread, Function.update_self] at popping
    cases op <;> cases popping
  | @move t call moves =>
    simp only [State.setCall, Label.thread, Function.update_self] at popping ⊢
    generalize s.call t = before at moves
    cases moves with
    | popSpin | popReady => exact Or.inl popping
    | _ => cases popping
  | popClaim hc same =>
    simp only [Label.thread, Function.update_self] at popping ⊢
    obtain rfl := Option.some.inj popping
    exact Or.inr ⟨trivial, hc⟩
  | popTake hc | popLeave hc =>
    simp only [Label.thread, Function.update_self] at popping ⊢
    rw [hc]
    exact Or.inl popping
  | pushClaim | pushStore | pushMark | popMark =>
    simp only [Label.thread, Function.update_self] at popping
    cases popping

/-- A running pop returns an element where it stores the marker. -/
theorem next_popReturn (hs : next moved s l = some s') (running : (s.call t).atRest = false)
    {e : E} (returned : s'.call t = .popReturn (some e)) :
    ∃ n, s.call t = .popMark n e ∧ s'.taken = s.taken := by
  have own : t = l.thread := by
    by_contra other
    rw [← next_other hs other, returned] at running
    cases running
  subst own
  cases next_step hs with
  | invoke rest op =>
    exact absurd (running.symm.trans rest) Bool.false_ne_true
  | @move t call moves =>
    simp only [State.setCall, Label.thread, Function.update_self] at returned
    generalize s.call t = before at moves
    subst returned
    cases moves
  | popMark hc =>
    simp only [Label.thread, Function.update_self] at returned ⊢
    obtain rfl := Option.some.inj (Call.popReturn.inj returned)
    exact ⟨_, hc, trivial⟩
  | pushClaim | pushStore | pushMark | popClaim | popTake | popLeave =>
    simp only [Label.thread, Function.update_self] at returned
    cases returned

variable {q : LockFreeArrayQueue E} {run : (machine Tid moved q).Run} {op : Op E} {i j : ℕ}

theorem Span.begins (span : Span run t op i j) : (run.state (i + 1)).call t = op.invoke := by
  have order := span.order
  have inside := span.inside
  have hs : next moved (run.state i) (run.label i) = some (run.state (i + 1)) :=
    run.step i (by omega)
  rw [span.invoked] at hs
  generalize run.state (i + 1) = s' at hs ⊢
  cases next_step hs with
  | invoke => exact Function.update_self ..

/-- The index a pop is busy with was claimed by a step of this call. -/
theorem Span.popping (span : Span run t op i j) {m : ℕ} (him : i < m) (hmj : m ≤ j) {n : ℕ}
    (popping : ((run.state m).call t).popping = some n) :
    ∃ c, i < c ∧ c < m ∧ run.label c = .step t ∧ (run.state c).call t = .popClaim n ∧
      ∀ d, c < d → d ≤ m → ((run.state d).call t).popping = some n := by
  have inside := span.inside
  have unclaimed : ((run.state (i + 1)).call t).popping ≠ some n := by
    rw [span.begins]
    cases op <;> exact fun wrong => by cases wrong
  obtain ⟨c, hic, hcm, fails, busy⟩ :=
    run.since (P := fun s => (s.call t).popping = some n) him unclaimed popping
  obtain ⟨own, claims⟩ := (next_popping (run.step c (by omega))
    (busy (c + 1) (Nat.lt_succ_self c) hcm)).resolve_left fails
  exact ⟨c, hic, hcm, own, claims, busy⟩

/-- A pop returns the element of the index that it claimed itself. -/
theorem Span.serves {lock : ℤ} {blank : E}
    (accepted : LockFreeArrayQueue.init lock blank (2 ^ k) = .ok q) (span : Span run t op i j)
    {e : E} (returned : (run.state j).call t = .popReturn (some e)) :
    ∃ c n, i < c ∧ c < j ∧ run.label c = .step t ∧ (run.state c).call t = .popClaim n ∧
      (∀ d, c < d → d < j → ((run.state d).call t).popping = some n) ∧
      (n, t, e) ∈ (run.state j).taken := by
  have order := span.order
  have inside := span.inside
  have started : i + 1 ≠ j := by
    rintro rfl
    rw [span.begins] at returned
    cases op <;> cases returned
  obtain ⟨m, rfl⟩ : ∃ m, j = m + 1 := ⟨j - 1, by omega⟩
  obtain ⟨n, marks, taken⟩ :=
    next_popReturn (run.step m (by omega)) (span.running m (by omega) (by omega)) returned
  obtain ⟨c, hic, hcm, own, claims, busy⟩ :=
    span.popping (m := m) (by omega) (by omega) (by rw [marks]; rfl)
  refine ⟨c, n, hic, by omega, own, claims, fun d low high => busy d low (by omega), ?_⟩
  obtain ⟨R, h⟩ := reach_inv accepted (run.reach (i := m) (by omega))
  have fact := h.facts t
  rw [marks] at fact
  rw [taken]
  exact fact.2.2

end Runs

/-- Every reachable state of any number of threads: the indices stay within the size of
each other; every index below them was claimed once; a pop obtains, and returns, the
value of the push that claimed the same index, and each is taken once; a push overwrites
an element that was taken, and an element that was stored and not taken lies in its slot;
and if some call has claimed an index and not finished, one of them finds its marker. In
every run, the index of the element that a pop returns was claimed by a step of this pop. -/
theorem claims_are_served [DecidableEq Tid] {lock : ℤ} {blank : E} {q : LockFreeArrayQueue E}
    (accepted : LockFreeArrayQueue.init lock blank (2 ^ k) = .ok q) (moved : E → E)
    {s : State Tid E} (reached : (machine Tid moved q).Reach s) :
    (s.q.readIndex ≤ s.q.writeIndex ∧ s.q.writeIndex ≤ s.q.readIndex + 2 ^ k) ∧
    (s.pushes.map Prod.fst = List.range s.q.writeIndex ∧
      s.pops.map Prod.fst = List.range s.q.readIndex) ∧
    ((∀ n t e, (n, t, e) ∈ s.taken →
        s.pops[n]? = some (n, t) ∧ ∃ p, s.pushes[n]? = some (n, p, e)) ∧
      (s.taken.map Prod.fst).Nodup ∧
      ∀ t e, s.call t = .popReturn (some e) → ∃ n, (n, t, e) ∈ s.taken) ∧
    ((∀ t e n, s.call t = .pushStore e (n + 2 ^ k) → n ∈ s.taken.map Prod.fst) ∧
      (∀ t n e, s.call t = .popLeave n e → (n, t, e) ∈ s.taken) ∧
      ∀ n ∈ s.stored, n ∉ s.taken.map Prod.fst →
        ∃ p, s.pushes[n]? = some (n, p, s.q.elementQueue (s.q.transIndex n))) ∧
    ((∃ t, (s.call t).awaits (2 ^ k) ≠ none) →
      ∃ t index marker, (s.call t).awaits (2 ^ k) = some (index, marker) ∧
        s.q.activeQueue (s.q.transIndex index) = marker) ∧
    ∀ (run : (machine Tid moved q).Run) t op i j, Span run t op i j →
      ∀ e, (run.state j).call t = .popReturn (some e) →
        ∃ c n, i < c ∧ c < j ∧ run.label c = .step t ∧ (run.state c).call t = .popClaim n ∧
          (∀ d, c < d → d < j → ((run.state d).call t).popping = some n) ∧
          (n, t, e) ∈ (run.state j).taken := by
  obtain ⟨R, h⟩ := reach_inv accepted reached
  have order := R.head_le_tail
  have near := R.tail_le
  refine ⟨?_, ⟨?_, ?_⟩, ⟨?_, h.once, ?_⟩, ⟨?_, ?_, ?_⟩, h.exists_ready, ?_⟩
  · rw [h.writeIndex, h.readIndex]
    exact ⟨order, near⟩
  · rw [h.writeIndex, ← h.pushes_length]
    exact claims_range s.pushes h.pushes_index
  · rw [h.readIndex, ← h.pops_length]
    exact claims_range s.pops h.pops_index
  · intro n t e found
    obtain ⟨mine, sent⟩ := h.obtained n t e found
    exact ⟨mine, h.sent_iff.mp sent⟩
  · intro t e returned
    have fact := h.facts t
    rw [returned] at fact
    exact fact
  · exact fun t e n hc => h.taken_before hc
  · intro t n e hc
    have fact := h.facts t
    rw [hc] at fact
    exact fact.2.2
  · exact fun n stored left => h.intact stored left
  · exact fun run t op i j span e returned => span.serves accepted returned

/-- `Init(E_CAS, 2)`. -/
def twoSlots : LockFreeArrayQueue ℕ := ⟨fun _ => 0, fun _ => 0, 2, 0, 0⟩

/-- Thread 1 claims the index of an element that thread 0 has not stored yet, spins, and
takes it later. -/
def popsEarly : List (Label (Fin 2) ℕ) :=
  [.invoke 0 (.push 5), .step 0, .step 0, .step 0, .invoke 1 .pop, .step 1, .step 1, .step 1,
    .step 1, .step 0, .step 0, .step 0, .step 1, .step 1, .step 1, .step 1]

def popsEarlyRun : (machine (Fin 2) id twoSlots).Run :=
  .ofSchedule _ (.step 0) popsEarly (by decide)

theorem claims_are_served_early :
    (popsEarlyRun.state 9).call 1 = .popWait 0 ∧
      (∃ t index marker, ((popsEarlyRun.state 9).call t).awaits 2 = some (index, marker) ∧
        (popsEarlyRun.state 9).q.activeQueue ((popsEarlyRun.state 9).q.transIndex index) = marker) ∧
      ∃ c n, 4 < c ∧ c < 16 ∧ popsEarlyRun.label c = .step 1 ∧
        (popsEarlyRun.state c).call 1 = .popClaim n ∧
        (∀ d, c < d → d < 16 → ((popsEarlyRun.state d).call 1).popping = some n) ∧
        (n, 1, 5) ∈ (popsEarlyRun.state 16).taken := by
  have accepted : LockFreeArrayQueue.init 0 0 (2 ^ 1) = .ok twoSlots := rfl
  have inside : 16 ≤ popsEarlyRun.length := by decide
  have running : ∀ m, m < 16 → 4 < m → ((popsEarlyRun.state m).call 1).atRest = false := by decide
  have span : Span popsEarlyRun 1 .pop 4 16 :=
    ⟨by decide, inside, rfl, fun m low high => running m high low, by decide⟩
  have spins : (popsEarlyRun.state 9).call 1 = .popWait 0 := rfl
  obtain ⟨-, -, -, -, ready, serves⟩ :=
    claims_are_served accepted id (popsEarlyRun.reach (i := 9) (by decide))
  refine ⟨spins, ready ⟨1, ?_⟩, serves popsEarlyRun 1 .pop 4 16 span 5 rfl⟩
  rw [spins]
  exact Option.some_ne_none _

end LockFreeArray
