import CppConcurrency.LockFreeQueueSafety
import CppConcurrency.Threads

/-!
# Which slots of `LockFreeQueueCpp11` hold an element

Nothing in the queue records whether the storage of a slot holds an element. By ticket
it can be told: the push with that ticket has constructed its element and the pop with
that ticket has not yet destroyed it. So a placement new finds raw storage, a destructor
call finds an element, and each ticket sees one of each.
-/

namespace LockFreeQueue

open Machines Threads WordCounters TicketRings LockFreeQueueCpp11

universe u v

variable {Tid : Type v} {T : Type u} {k : ℕ}

/-- The push has constructed its element and not made its final store. -/
def Call.publishing : Call T → Bool
  | .pushPublish _ => true
  | _ => false

/-- The pop has destroyed its element and not made its final store. -/
def Call.releasing : Call T → Bool
  | .popRelease _ _ => true
  | _ => false

/-- The call is between its claim and its final store. -/
def Call.claimed : Call T → Bool
  | .pushConstruct _ _ | .pushPublish _ | .popCopy _ | .popDestroy _ _ | .popRelease _ _ => true
  | _ => false

/-- The element of ticket `n` was constructed. -/
def Constructed (s : State Tid T) (n : ℕ) : Prop :=
  n ∈ s.filled ∨ ∃ t, (s.call t).publishing = true ∧ s.seen t = n

/-- The element of ticket `n` was destroyed by a pop. -/
def Destroyed (s : State Tid T) (n : ℕ) : Prop :=
  n ∈ s.released ∨ ∃ t, (s.call t).releasing = true ∧ s.seen t = n

/-- The ticket whose element the step constructs. -/
def construction (s : State Tid T) : Label Tid T → Option ℕ
  | .step t _ =>
    match s.call t with
    | .pushConstruct _ _ => some (s.seen t)
    | _ => none
  | .invoke _ _ => none

/-- The ticket whose element the step destroys. -/
def destruction (s : State Tid T) : Label Tid T → Option ℕ
  | .step t _ =>
    match s.call t with
    | .popDestroy _ _ => some (s.seen t)
    | _ => none
  | .invoke _ _ => none

/-- A slot holds an element exactly while one was constructed there and not destroyed. -/
def Stored (k : ℕ) (s : State Tid T) : Prop :=
  ∀ i, i < 2 ^ k → ((s.q.queue i).data.isSome = true ↔
    ∃ n, n % 2 ^ k = i ∧ Constructed s n ∧ ¬ Destroyed s n)

section Owners

variable {R : TicketRing (2 ^ k)} {s : State Tid T} {t u : Tid} {n m : ℕ}

theorem Inv.publishing_owns (h : Inv R s) (publishing : (s.call u).publishing = true) :
    Owns R s u (s.seen u) := by
  cases hc : s.call u with
  | pushPublish tail => exact (h.owns (w := tail) (by rw [hc]; rfl)).2
  | _ =>
    rw [hc] at publishing
    cases publishing

theorem Inv.releasing_owns (h : Inv R s) (releasing : (s.call u).releasing = true) :
    Owns R s u (s.seen u) := by
  cases hc : s.call u with
  | popRelease head result => exact (h.owns (w := head) (by rw [hc]; rfl)).2
  | _ =>
    rw [hc] at releasing
    cases releasing

/-- In an owned slot, every other element has come and gone. -/
theorem Inv.constructed_in (h : Inv R s) (owner : Owns R s t n)
    (apart : (s.call t).publishing = false) (slot : m % 2 ^ k = n % 2 ^ k)
    (constructed : Constructed s m) : Destroyed s m ∨ m = n ∧ R.full (n % 2 ^ k) := by
  rcases constructed with filled | ⟨u, publishing, rfl⟩
  · rcases (h.filled m).mp filled with gone | ⟨now, full⟩
    · exact Or.inl (Or.inl ((h.released m).mpr gone))
    · rw [slot] at now full
      exact Or.inr ⟨now.trans owner.turn, full⟩
  · obtain ⟨rfl, -⟩ := (h.publishing_owns publishing).unique owner slot
    rw [publishing] at apart
    cases apart

/-- The element of an owned slot is not destroyed before its owner destroys it. -/
theorem Inv.not_destroyed (h : Inv R s) (owner : Owns R s t n)
    (apart : (s.call t).releasing = false) : ¬ Destroyed s n := by
  rintro (released | ⟨u, releasing, rfl⟩)
  · have passed := (h.released n).mp released
    rw [owner.turn] at passed
    omega
  · obtain ⟨rfl, -⟩ := (h.releasing_owns releasing).unique owner rfl
    rw [releasing] at apart
    cases apart

end Owners

section Steps

variable [DecidableEq Tid] {R : TicketRing (2 ^ k)} {s s' : State Tid T} {l : Label Tid T} {t : Tid}

/-- The other threads' part of what was constructed or destroyed stays. -/
theorem others_keep (hs : next s l = some s') (p : Call T → Bool) (m : ℕ) :
    (∃ u, u ≠ l.thread ∧ p (s'.call u) = true ∧ s'.seen u = m) ↔
      ∃ u, u ≠ l.thread ∧ p (s.call u) = true ∧ s.seen u = m := by
  refine exists_congr fun u => and_congr_right fun other => ?_
  obtain ⟨call, seen⟩ := next_other hs other
  rw [call, seen]

/-- A set of tickets that a list and the calls of one kind make up. -/
theorem tickets_next (hs : next s l = some s') (p : Call T → Bool) {list list' : List ℕ} {m : ℕ}
    {joins : Prop}
    (own : (m ∈ list' ∨ p (s'.call l.thread) = true ∧ s'.seen l.thread = m) ↔
      (m ∈ list ∨ p (s.call l.thread) = true ∧ s.seen l.thread = m) ∨ joins) :
    (m ∈ list' ∨ ∃ u, p (s'.call u) = true ∧ s'.seen u = m) ↔
      (m ∈ list ∨ ∃ u, p (s.call u) = true ∧ s.seen u = m) ∨ joins := by
  rw [exists_thread l.thread (P := fun u => p (s'.call u) = true ∧ s'.seen u = m),
    exists_thread l.thread (P := fun u => p (s.call u) = true ∧ s.seen u = m), others_keep hs p m,
    or_left_comm, own, ← or_assoc]
  exact or_congr_left or_left_comm

/-- What a step does. A call without a ticket loads, tests and fails to claim, which
leaves the history and the storage as they are. -/
inductive Moves (s : State Tid T) : Label Tid T → State Tid T → Prop where
  | seek {l : Label Tid T} {q : LockFreeQueueCpp11 T} {call : Call T} {seen : ℕ}
      (before : (s.call l.thread).claimed = false) (after : call.claimed = false)
      (data : ∀ i, (q.queue i).data = (s.q.queue i).data) :
      Moves s l { (s.see l.thread seen).setCall l.thread call with q := q }
  | claimPush {t : Tid} {spurious : Bool} {data : T} {tail : SizeT}
      (hc : s.call t = .pushClaim data tail) :
      Moves s (.step t spurious)
        { (s.see t s.pushes.length).setCall t (.pushConstruct data tail) with
          q := { s.q with tail := tail + 1 }
          pushes := s.pushes ++ [(tail, t, data)] }
  | construct {t : Tid} {spurious : Bool} {data : T} {tail : SizeT}
      (hc : s.call t = .pushConstruct data tail) :
      Moves s (.step t spurious)
        { s.setCall t (.pushPublish tail) with q := s.q.storeData tail (some data) }
  | publish {t : Tid} {spurious : Bool} {tail : SizeT} (hc : s.call t = .pushPublish tail) :
      Moves s (.step t spurious)
        { s.setCall t (.pushReturn true) with
          q := s.q.storeHead tail tail
          filled := s.filled ++ [s.seen t] }
  | claimPop {t : Tid} {spurious : Bool} {head : SizeT} (hc : s.call t = .popClaim head) :
      Moves s (.step t spurious)
        { (s.see t s.pops.length).setCall t (.popCopy head) with
          q := { s.q with head := head + 1 }
          pops := s.pops ++ [(head, t)] }
  | copy {t : Tid} {spurious : Bool} {head : SizeT} (hc : s.call t = .popCopy head) :
      Moves s (.step t spurious)
        { s.setCall t (.popDestroy head (s.q.node head).data) with
          copied := s.copied ++ [(s.seen t, t, (s.q.node head).data)] }
  | destroy {t : Tid} {spurious : Bool} {head : SizeT} {result : Option T}
      (hc : s.call t = .popDestroy head result) :
      Moves s (.step t spurious)
        { s.setCall t (.popRelease head result) with q := s.q.storeData head none }
  | release {t : Tid} {spurious : Bool} {head : SizeT} {result : Option T}
      (hc : s.call t = .popRelease head result) :
      Moves s (.step t spurious)
        { s.setCall t (.popReturn true result) with
          q := s.q.storeTail head (head + s.q.capacity)
          released := s.released ++ [s.seen t] }

omit [DecidableEq Tid] in
theorem Call.claimed_of_atRest {call : Call T} (rest : call.atRest = true) :
    call.claimed = false := by
  cases call with
  | rest | pushReturn | popReturn => rfl
  | _ => cases rest

theorem Moves.stays {q : LockFreeQueueCpp11 T} {call : Call T}
    (before : (s.call l.thread).claimed = false) (after : call.claimed = false)
    (data : ∀ i, (q.queue i).data = (s.q.queue i).data) :
    Moves s l { s.setCall l.thread call with q := q } := by
  have seen : s = s.see l.thread (s.seen l.thread) := by
    rw [State.see, Function.update_eq_self]
  conv => arg 3; rw [seen]
  exact .seek before after data

theorem next_moves (hs : next s l = some s') : Moves s l s' := by
  cases next_step hs with
  | @invoke t rest op =>
    refine .stays (l := .invoke t op) (Call.claimed_of_atRest rest) ?_ fun _ => rfl
    cases op <;> rfl
  | @step t running spurious =>
    have unclaimed {call : Call T} (hc : s.call t = call) (before : call.claimed = false) :
        (s.call (Label.step (T := T) t spurious).thread).claimed = false := by
      rw [← before, ← hc]
      rfl
    cases hc : s.call t with
    | rest | pushReturn | popReturn => simp [hc, Call.atRest] at running
    | pushLoad data | popLoad =>
      simp only [record, advance, hc]
      exact .seek (unclaimed hc rfl) rfl fun _ => rfl
    | pushTest data tail | popTest tail =>
      simp only [record, advance, hc]
      split <;> exact .stays (unclaimed hc rfl) rfl fun _ => rfl
    | pushClaim data tail =>
      simp only [record, advance, hc]
      split
      · exact .claimPush hc
      · exact .seek (unclaimed hc rfl) rfl fun _ => rfl
    | popClaim head =>
      simp only [record, advance, hc]
      split
      · exact .claimPop hc
      · exact .seek (unclaimed hc rfl) rfl fun _ => rfl
    | pushConstruct data tail => simpa only [record, advance, hc] using .construct hc
    | pushPublish tail => simpa only [record, advance, hc] using .publish hc
    | popCopy head => simpa only [record, advance, hc] using .copy hc
    | popDestroy head result => simpa only [record, advance, hc] using .destroy hc
    | popRelease head result => simpa only [record, advance, hc] using .release hc

omit [DecidableEq Tid] in
theorem Call.publishing_of_unclaimed {call : Call T} (unclaimed : call.claimed = false) :
    call.publishing = false := by
  cases call with
  | pushPublish => cases unclaimed
  | _ => rfl

omit [DecidableEq Tid] in
theorem Call.releasing_of_unclaimed {call : Call T} (unclaimed : call.claimed = false) :
    call.releasing = false := by
  cases call with
  | popRelease => cases unclaimed
  | _ => rfl

omit [DecidableEq Tid] in
theorem no_event (unclaimed : (s.call l.thread).claimed = false) :
    construction s l = none ∧ destruction s l = none := by
  cases l with
  | invoke => exact ⟨rfl, rfl⟩
  | step t spurious =>
    change (s.call t).claimed = false at unclaimed
    cases hc : s.call t <;> simp_all [construction, destruction, Call.claimed]

theorem constructed_next (hs : next s l = some s') (m : ℕ) :
    Constructed s' m ↔ Constructed s m ∨ construction s l = some m := by
  refine tickets_next hs Call.publishing ?_
  cases next_moves hs with
  | seek before after data =>
    simp [State.setCall, State.see, Call.publishing_of_unclaimed before,
      Call.publishing_of_unclaimed after, (no_event before).1]
  | publish hc =>
    simp [Label.thread, construction, hc, State.setCall, Call.publishing, eq_comm]
  | claimPush hc | construct hc | claimPop hc | copy hc | destroy hc | release hc =>
    simp [Label.thread, construction, hc, State.setCall, State.see, Call.publishing]

theorem destroyed_next (hs : next s l = some s') (m : ℕ) :
    Destroyed s' m ↔ Destroyed s m ∨ destruction s l = some m := by
  refine tickets_next hs Call.releasing ?_
  cases next_moves hs with
  | seek before after data =>
    simp [State.setCall, State.see, Call.releasing_of_unclaimed before,
      Call.releasing_of_unclaimed after, (no_event before).2]
  | release hc =>
    simp [Label.thread, destruction, hc, State.setCall, Call.releasing, eq_comm]
  | claimPush hc | construct hc | publish hc | claimPop hc | copy hc | destroy hc =>
    simp [Label.thread, destruction, hc, State.setCall, State.see, Call.releasing]

/-- What each kind of step does to the storage of the slots. -/
theorem storage_next (hs : next s l = some s') :
    (∃ t spurious data tail, l = .step t spurious ∧ s.call t = .pushConstruct data tail ∧
      construction s l = some (s.seen t) ∧ destruction s l = none ∧
      ∀ i, (s'.q.queue i).data = if i = s.q.slot tail then some data else (s.q.queue i).data) ∨
    (∃ t spurious head result, l = .step t spurious ∧ s.call t = .popDestroy head result ∧
      destruction s l = some (s.seen t) ∧ construction s l = none ∧
      ∀ i, (s'.q.queue i).data = if i = s.q.slot head then none else (s.q.queue i).data) ∨
    (construction s l = none ∧ destruction s l = none ∧
      ∀ i, (s'.q.queue i).data = (s.q.queue i).data) := by
  cases next_moves hs with
  | seek before after data =>
    obtain ⟨construction, destruction⟩ := no_event before
    exact Or.inr (Or.inr ⟨construction, destruction, data⟩)
  | @construct t spurious data tail hc =>
    refine Or.inl ⟨t, spurious, data, tail, rfl, hc, ?_, ?_, storeData_data _ _ _⟩
    · simp only [construction, hc]
    · simp only [destruction, hc]
  | @destroy t spurious head result hc =>
    refine Or.inr (Or.inl ⟨t, spurious, head, result, rfl, hc, ?_, ?_, storeData_data _ _ _⟩)
    · simp only [destruction, hc]
    · simp only [construction, hc]
  | claimPush hc | publish hc | claimPop hc | copy hc | release hc =>
    refine Or.inr (Or.inr ⟨?_, ?_, fun i => ?_⟩)
    · simp only [construction, hc]
    · simp only [destruction, hc]
    · simp only [State.setCall, storeHead_data, storeTail_data]

omit [DecidableEq Tid] in
/-- A placement new finds raw storage, and constructs an element of a ticket that had none. -/
theorem Inv.construct_raw (h : Inv R s) (stored : Stored k s) {data : T} {tail : SizeT}
    (hc : s.call t = .pushConstruct data tail) :
    s.q.slot tail = s.seen t % 2 ^ k ∧ (s.q.node tail).data = none ∧
      ¬ Constructed s (s.seen t) ∧ ¬ Destroyed s (s.seen t) := by
  have fact := h.facts t
  rw [hc] at fact
  obtain ⟨word, pushing⟩ := fact
  have owner : Owns R s t (s.seen t) := Or.inl ⟨data, pushing⟩
  have kept := h.not_destroyed owner (by rw [hc]; rfl)
  have others : ∀ m, m % 2 ^ k = s.seen t % 2 ^ k → Constructed s m → Destroyed s m := by
    intro m slot constructed
    rcases h.constructed_in owner (by rw [hc]; rfl) slot constructed with gone | ⟨-, full⟩
    · exact gone
    · exact absurd full pushing.empty
  refine ⟨by rw [word, h.ring.slot_ofNat], ?_, fun constructed => kept (others _ rfl constructed), kept⟩
  rw [word, h.ring.node_ofNat, ← Option.not_isSome_iff_eq_none,
    stored _ (Nat.mod_lt _ (Nat.two_pow_pos k))]
  rintro ⟨m, slot, constructed, live⟩
  exact live (others m slot constructed)

omit [DecidableEq Tid] in
/-- A destructor call finds the element of its ticket. -/
theorem Inv.destroy_live (h : Inv R s) (stored : Stored k s) {head : SizeT} {result : Option T}
    (hc : s.call t = .popDestroy head result) :
    s.q.slot head = s.seen t % 2 ^ k ∧ (s.q.node head).data.isSome = true ∧
      Constructed s (s.seen t) ∧ ¬ Destroyed s (s.seen t) ∧
      ∀ m, m % 2 ^ k = s.seen t % 2 ^ k → Constructed s m → ¬ Destroyed s m → m = s.seen t := by
  have fact := h.facts t
  rw [hc] at fact
  obtain ⟨word, popping, -⟩ := fact
  have owner : Owns R s t (s.seen t) := Or.inr popping
  have hi := Nat.mod_lt (s.seen t) (Nat.two_pow_pos k)
  have kept := h.not_destroyed owner (by rw [hc]; rfl)
  have full := R.taken_full _ hi (by rw [popping.turn]; exact popping.taken)
  have constructed : Constructed s (s.seen t) :=
    Or.inl ((h.filled _).mpr (Or.inr ⟨popping.turn.symm, full⟩))
  refine ⟨by rw [word, h.ring.slot_ofNat], ?_, constructed, kept, fun m slot hm live => ?_⟩
  · rw [word, h.ring.node_ofNat, stored _ hi]
    exact ⟨s.seen t, rfl, constructed, kept⟩
  · exact ((h.constructed_in owner (by rw [hc]; rfl) slot hm).resolve_left live).1

theorem Stored.next (stored : Stored k s) (h : Inv R s) (hs : next s l = some s') : Stored k s' := by
  intro i hi
  obtain ⟨t, spurious, data, tail, -, hc, construction, destruction, after⟩ |
    ⟨t, spurious, head, result, -, hc, destruction, construction, after⟩ |
    ⟨construction, destruction, after⟩ := storage_next hs
  · obtain ⟨slot, -, -, kept⟩ := h.construct_raw stored hc
    rw [after, slot]
    by_cases here : i = s.seen t % 2 ^ k
    · rw [if_pos here]
      refine iff_of_true rfl ⟨s.seen t, here.symm, ?_, ?_⟩
      · exact (constructed_next hs _).mpr (Or.inr construction)
      · rw [destroyed_next hs, destruction]
        simpa using kept
    · rw [if_neg here, stored i hi]
      refine exists_congr fun m => and_congr_right fun slot' => ?_
      rw [constructed_next hs, destroyed_next hs, construction, destruction]
      have other : s.seen t ≠ m := fun same => here (by rw [same, slot'])
      simp [other]
  · obtain ⟨slot, -, constructed, kept, only⟩ := h.destroy_live stored hc
    rw [after, slot]
    by_cases here : i = s.seen t % 2 ^ k
    · rw [if_pos here]
      apply iff_of_false Bool.false_ne_true
      rintro ⟨m, slot', hm, live⟩
      rw [constructed_next hs, construction] at hm
      rw [destroyed_next hs, destruction] at live
      have hm' := hm.resolve_right (by simp)
      have gone : m = s.seen t :=
        only m (slot'.trans here) hm' fun destroyed => live (Or.inl destroyed)
      exact live (Or.inr (by rw [gone]))
    · rw [if_neg here, stored i hi]
      refine exists_congr fun m => and_congr_right fun slot' => ?_
      rw [constructed_next hs, destroyed_next hs, construction, destruction]
      have other : s.seen t ≠ m := fun same => here (by rw [same, slot'])
      simp [other]
  · rw [after, stored i hi]
    refine exists_congr fun m => and_congr_right fun _ => ?_
    rw [constructed_next hs, destroyed_next hs, construction, destruction]
    simp

end Steps

end LockFreeQueue
