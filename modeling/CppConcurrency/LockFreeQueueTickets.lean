import CppConcurrency.LockFreeQueueRing
import Mathlib.Data.List.GetD
import Mathlib.Data.List.Nodup

/-!
# The ticket invariant of `LockFreeQueueCpp11`

A call that waits between its test and its compare-exchange knows nothing about the
slot any more, except in one case: while the counter is still the value it loaded,
the slot is still the way the test found it. Each call carries that conditional fact,
a call past its compare-exchange owns its slot, and a ring ties all of them together.
The compare-exchange tells tickets apart by their words, so each step is asked to be
timely: the call has not slept while `2 ^ 64` tickets were issued.
-/

namespace LockFreeQueue

open Machines WordCounters TicketRings LockFreeQueueCpp11

universe u v

variable {Tid : Type v} {T : Type u} {k : ℕ}

/-- The value of the push that took ticket `n`. -/
def State.sent (s : State Tid T) (n : ℕ) : Option T := s.pushes[n]?.map fun e => e.2.2

/-- Fewer than `2 ^ 64` tickets were issued since the call read the counter value that
its compare-exchange expects. -/
def Timely (s : State Tid T) : Label Tid T → Prop
  | .step t _ =>
    match s.call t with
    | .pushClaim _ _ => s.pushes.length < s.seen t + 2 ^ 64
    | .popClaim _ => s.pops.length < s.seen t + 2 ^ 64
    | _ => True
  | .invoke _ _ => True

/-- `t` has taken push ticket `n` and not yet made its final store. -/
structure Pushing (R : TicketRing (2 ^ k)) (s : State Tid T) (t : Tid) (n : ℕ) (data : T) :
    Prop where
  drawn : n < R.tail
  turn : R.turn (n % 2 ^ k) = n
  empty : ¬ R.full (n % 2 ^ k)
  mine : s.pushes[n]? = some (BitVec.ofNat 64 n, t, data)

/-- `t` has taken pop ticket `n` and not yet made its final store. -/
structure Popping (R : TicketRing (2 ^ k)) (s : State Tid T) (t : Tid) (n : ℕ) : Prop where
  taken : n < R.head
  turn : R.turn (n % 2 ^ k) = n
  mine : s.pops[n]? = some (BitVec.ofNat 64 n, t)

/-- What a call of `t` that read its counter at `n` tickets may rely on. -/
def Fact (R : TicketRing (2 ^ k)) (s : State Tid T) (t : Tid) (n : ℕ) : Call T → Prop
  | .pushTest _ tail => tail = BitVec.ofNat 64 n ∧ n ≤ R.tail
  | .pushClaim _ tail =>
    tail = BitVec.ofNat 64 n ∧ n ≤ R.tail ∧ (n = R.tail → R.turn (n % 2 ^ k) = n)
  | .pushConstruct data tail => tail = BitVec.ofNat 64 n ∧ Pushing R s t n data
  | .pushPublish tail =>
    tail = BitVec.ofNat 64 n ∧
      ∃ data, Pushing R s t n data ∧ (s.q.queue (n % 2 ^ k)).data = some data
  | .popTest head => head = BitVec.ofNat 64 n ∧ n ≤ R.head
  | .popClaim head =>
    head = BitVec.ofNat 64 n ∧ n ≤ R.head ∧
      (n = R.head → R.turn (n % 2 ^ k) = n ∧ R.full (n % 2 ^ k))
  | .popCopy head =>
    head = BitVec.ofNat 64 n ∧ Popping R s t n ∧ n ∉ s.copied.map Prod.fst ∧
      (s.q.queue (n % 2 ^ k)).data = s.sent n
  | .popDestroy head result =>
    head = BitVec.ofNat 64 n ∧ Popping R s t n ∧ (n, t, result) ∈ s.copied
  | .popRelease head result =>
    head = BitVec.ofNat 64 n ∧ Popping R s t n ∧ (n, t, result) ∈ s.copied
  | .popReturn true result => (n, t, result) ∈ s.copied
  | _ => True

/-- The invariant: words, history and calls all agree with one ring. -/
structure Inv (R : TicketRing (2 ^ k)) (s : State Tid T) : Prop where
  ring : OnRing k R s.q
  pushes_length : s.pushes.length = R.tail
  pops_length : s.pops.length = R.head
  pushes_word : ∀ (n : ℕ) e, s.pushes[n]? = some e → e.1 = BitVec.ofNat 64 n
  pops_word : ∀ (n : ℕ) e, s.pops[n]? = some e → e.1 = BitVec.ofNat 64 n
  stored : ∀ i, i < 2 ^ k → R.full i → R.head ≤ R.turn i →
    (s.q.queue i).data = s.sent (R.turn i)
  facts : ∀ t, Fact R s t (s.seen t) (s.call t)
  filled : ∀ n, n ∈ s.filled ↔
    n < R.turn (n % 2 ^ k) ∨ n = R.turn (n % 2 ^ k) ∧ R.full (n % 2 ^ k)
  released : ∀ n, n ∈ s.released ↔ n < R.turn (n % 2 ^ k)
  copied : ∀ n t r, (n, t, r) ∈ s.copied →
    s.pops[n]? = some (BitVec.ofNat 64 n, t) ∧ r = s.sent n ∧ r.isSome
  copied_once : (s.copied.map Prod.fst).Nodup

theorem start_inv (Tid : Type v) [DecidableEq Tid] (T : Type u) (capacity : SizeT)
    (pos : 1 ≤ capacity.toNat) (small : capacity.toNat ≤ 2 ^ 63) :
    ∃ k, (new (T := T) capacity).capacity.toNat = 2 ^ k ∧
      ∃ R : TicketRing (2 ^ k), Inv R (machine Tid T capacity).start := by
  obtain ⟨k, -, ring⟩ := new_onRing T capacity pos small
  have hw := capacity_lt_wrap ring.small
  have hpos := Nat.two_pow_pos k
  refine ⟨k, ?_, .fresh (2 ^ k), ring, rfl, rfl, ?_, ?_, ?_, fun _ => trivial, ?_, ?_, ?_, .nil⟩
  · rw [ring.capacity, BitVec.toNat_ofNat, Nat.mod_eq_of_lt (by omega)]
  · intro n e h; simp [machine] at h
  · intro n e h; simp [machine] at h
  · intro i _ full; exact full.elim
  · intro n
    have := Nat.mod_le n (2 ^ k)
    simp [machine, TicketRing.fresh, this]
  · intro n
    have := Nat.mod_le n (2 ^ k)
    simp [machine, TicketRing.fresh, this]
  · intro n t r h; simp [machine] at h

/-! ### What other threads keep -/

section Frame

variable {R R' : TicketRing (2 ^ k)} {s s' : State Tid T} {t t' : Tid} {n : ℕ} {call : Call T}

theorem sent_extends (pushes : ∀ (m : ℕ) e, s.pushes[m]? = some e → s'.pushes[m]? = some e)
    (hn : n < s.pushes.length) : s'.sent n = s.sent n := by
  have he : s.pushes[n]? = some s.pushes[n] := List.getElem?_eq_getElem hn
  simp only [State.sent, he, pushes _ _ he]

/-- Drawing a ticket disturbs no fact: a call that expects the old counter value now
knows nothing, and the slots are as they were. -/
theorem Fact.counters (h : Fact R s t n call) (len : s.pushes.length = R.tail)
    (tail : R.tail ≤ R'.tail) (head : R.head ≤ R'.head) (turn : R'.turn = R.turn)
    (full : R'.full = R.full)
    (pushes : ∀ (m : ℕ) e, s.pushes[m]? = some e → s'.pushes[m]? = some e)
    (pops : ∀ (m : ℕ) e, s.pops[m]? = some e → s'.pops[m]? = some e)
    (data : ∀ i, (s'.q.queue i).data = (s.q.queue i).data) (copied : s'.copied = s.copied) :
    Fact R' s' t n call := by
  have pushing : ∀ d, Pushing R s t n d → Pushing R' s' t n d := fun d p =>
    ⟨by have := p.drawn; omega, turn ▸ p.turn, full ▸ p.empty, pushes _ _ p.mine⟩
  have popping : Popping R s t n → Popping R' s' t n := fun p =>
    ⟨by have := p.taken; omega, turn ▸ p.turn, pops _ _ p.mine⟩
  have sent : Popping R s t n → s'.sent n = s.sent n := fun p => by
    have := p.taken
    have := R.head_le_tail
    exact sent_extends pushes (by omega)
  cases call with
  | pushTest d w => exact ⟨h.1, by have := h.2; omega⟩
  | pushClaim d w =>
    refine ⟨h.1, by have := h.2.1; omega, fun now => ?_⟩
    rw [turn]
    exact h.2.2 (by have := h.2.1; omega)
  | pushConstruct d w => exact ⟨h.1, pushing d h.2⟩
  | pushPublish w =>
    obtain ⟨hw, d, hp, hd⟩ := h
    exact ⟨hw, d, pushing d hp, (data _).trans hd⟩
  | popTest w => exact ⟨h.1, by have := h.2; omega⟩
  | popClaim w =>
    refine ⟨h.1, by have := h.2.1; omega, fun now => ?_⟩
    rw [turn, full]
    exact h.2.2 (by have := h.2.1; omega)
  | popCopy w =>
    obtain ⟨hw, hp, once, hd⟩ := h
    exact ⟨hw, popping hp, copied ▸ once, by rw [data, sent hp, hd]⟩
  | popDestroy w r => exact ⟨h.1, popping h.2.1, copied ▸ h.2.2⟩
  | popRelease w r => exact ⟨h.1, popping h.2.1, copied ▸ h.2.2⟩
  | popReturn ok r =>
    cases ok with
    | true => exact (copied ▸ h : (n, t, r) ∈ s'.copied)
    | false => trivial
  | rest | pushLoad | pushReturn | popLoad => trivial

/-- A slot is owned by the call that has taken its ticket and not made its final store. -/
def Owns (R : TicketRing (2 ^ k)) (s : State Tid T) (t : Tid) (n : ℕ) : Prop :=
  (∃ d, Pushing R s t n d) ∨ Popping R s t n

theorem Owns.turn (h : Owns R s t n) : R.turn (n % 2 ^ k) = n :=
  h.elim (fun ⟨_, p⟩ => p.turn) fun p => p.turn

theorem Owns.drawn (h : Owns R s t n) : n < R.tail := by
  rcases h with ⟨_, p⟩ | p
  · exact p.drawn
  · have := p.taken
    have := R.head_le_tail
    omega

/-- A slot has one owner: the histories name the thread of each ticket, and a pop
owns a full slot only. -/
theorem Owns.unique {m : ℕ} (h : Owns R s t n) (h' : Owns R s t' m)
    (slot : n % 2 ^ k = m % 2 ^ k) : t = t' ∧ n = m := by
  have same : n = m := by rw [← h.turn, ← h'.turn, slot]
  subst same
  have full : Popping R s t n ∨ Popping R s t' n → R.full (n % 2 ^ k) := fun p => by
    have hi := Nat.mod_lt n (Nat.two_pow_pos k)
    have taken : n < R.head := p.elim Popping.taken Popping.taken
    exact R.taken_full _ hi (by rw [h.turn]; exact taken)
  refine ⟨?_, rfl⟩
  rcases h with ⟨d, p⟩ | p <;> rcases h' with ⟨d', p'⟩ | p'
  · have := p.mine.symm.trans p'.mine
    simp only [Option.some.injEq, Prod.mk.injEq, true_and] at this
    exact this.1
  · exact absurd (full (Or.inr p')) p.empty
  · exact absurd (full (Or.inl p)) p'.empty
  · have := p.mine.symm.trans p'.mine
    simpa only [Option.some.injEq, Prod.mk.injEq, true_and] using this

/-- A step that uses the slot of ticket `m` only. -/
structure Within (m : ℕ) (R R' : TicketRing (2 ^ k)) (s s' : State Tid T) : Prop where
  tail : R'.tail = R.tail
  head : R'.head = R.head
  turn : ∀ i, i ≠ m % 2 ^ k → R'.turn i = R.turn i
  full : ∀ i, i ≠ m % 2 ^ k → (R'.full i ↔ R.full i)
  pushes : s'.pushes = s.pushes
  pops : s'.pops = s.pops
  data : ∀ i, i ≠ m % 2 ^ k → (s'.q.queue i).data = (s.q.queue i).data
  copied : ∀ l, l ∉ s.copied.map Prod.fst → l ≠ m → l ∉ s'.copied.map Prod.fst
  keeps : s.copied ⊆ s'.copied

/-- What the owner of a slot does to it disturbs no fact of another thread. -/
theorem Fact.slot {m : ℕ} (h : Fact R s t' n call) (owner : Owns R s t m) (other : t' ≠ t)
    (within : Within m R R' s s') : Fact R' s' t' n call := by
  obtain ⟨tail, head, turn, full, pushes, pops, data, copied, keeps⟩ := within
  have apart : Owns R s t' n → n % 2 ^ k ≠ m % 2 ^ k := fun o same =>
    other (o.unique owner same).1
  have pushing : ∀ d, Pushing R s t' n d → Pushing R' s' t' n d := fun d p => by
    have away := apart (Or.inl ⟨d, p⟩)
    exact ⟨tail ▸ p.drawn, (turn _ away).trans p.turn, fun f => p.empty ((full _ away).mp f),
      pushes ▸ p.mine⟩
  have popping : Popping R s t' n → Popping R' s' t' n := fun p => by
    have away := apart (Or.inr p)
    exact ⟨head ▸ p.taken, (turn _ away).trans p.turn, pops ▸ p.mine⟩
  have sent : s'.sent n = s.sent n := by simp only [State.sent, pushes]
  cases call with
  | pushTest d w => exact ⟨h.1, tail ▸ h.2⟩
  | pushClaim d w =>
    refine ⟨h.1, tail ▸ h.2.1, fun now => ?_⟩
    have ready := h.2.2 (by omega)
    have drawn := owner.drawn
    rw [turn _ ?_, ready]
    intro same
    rw [same, owner.turn] at ready
    omega
  | pushConstruct d w => exact ⟨h.1, pushing d h.2⟩
  | pushPublish w =>
    obtain ⟨hw, d, hp, hd⟩ := h
    exact ⟨hw, d, pushing d hp, (data _ (apart (Or.inl ⟨d, hp⟩))).trans hd⟩
  | popTest w => exact ⟨h.1, head ▸ h.2⟩
  | popClaim w =>
    refine ⟨h.1, head ▸ h.2.1, fun now => ?_⟩
    obtain ⟨ready, item⟩ := h.2.2 (by omega)
    -- the owner's slot is empty, or its ticket is already taken
    have away : n % 2 ^ k ≠ m % 2 ^ k := by
      intro same
      have hm : n = m := by rw [← ready, same, owner.turn]
      rcases owner with ⟨d, p⟩ | p
      · exact p.empty (same ▸ item)
      · have := p.taken; omega
    exact ⟨(turn _ away).trans ready, (full _ away).mpr item⟩
  | popCopy w =>
    obtain ⟨hw, hp, once, hd⟩ := h
    have away := apart (Or.inr hp)
    exact ⟨hw, popping hp, copied _ once fun e => away (by rw [e]),
      by rw [data _ away, sent, hd]⟩
  | popDestroy w r => exact ⟨h.1, popping h.2.1, keeps h.2.2⟩
  | popRelease w r => exact ⟨h.1, popping h.2.1, keeps h.2.2⟩
  | popReturn ok r =>
    cases ok with
    | true => exact keeps h
    | false => trivial
  | rest | pushLoad | pushReturn | popLoad => trivial

end Frame

/-! ### One step of one call -/

section Steps

variable [DecidableEq Tid] {R : TicketRing (2 ^ k)} {s : State Tid T} {t : Tid}

/-- The fact of the thread that moved, and those of the others. -/
theorem facts_update {R' : TicketRing (2 ^ k)} {s' : State Tid T} {n : ℕ} {call : Call T}
    (mine : Fact R' s' t n call) (others : ∀ u, u ≠ t → Fact R' s' u (s.seen u) (s.call u))
    (u : Tid) :
    Fact R' s' u (Function.update s.seen t n u) (Function.update s.call t call u) := by
  by_cases hu : u = t
  · subst hu
    rw [Function.update_self, Function.update_self]
    exact mine
  · rw [Function.update_of_ne hu, Function.update_of_ne hu]
    exact others u hu

/-- A step that touches nothing but the call and what it has read. -/
theorem Inv.move (h : Inv R s) {n : ℕ} {call : Call T} (fact : Fact R s t n call) :
    Inv R ((s.see t n).setCall t call) := by
  have kept {u : Tid} {m : ℕ} {c : Call T} (fact : Fact R s u m c) :
      Fact R ((s.see t n).setCall t call) u m c :=
    fact.counters h.pushes_length le_rfl le_rfl rfl rfl (fun _ _ e => e) (fun _ _ e => e)
      (fun _ => rfl) rfl
  exact { h with facts := facts_update (kept fact) fun u _ => kept (h.facts u) }

theorem Inv.setCall (h : Inv R s) {call : Call T} (fact : Fact R s t (s.seen t) call) :
    Inv R (s.setCall t call) := by
  have moved := h.move fact
  rwa [State.see, Function.update_eq_self] at moved

theorem Inv.pushLoad (h : Inv R s) (data : T) :
    Inv R ((s.see t s.pushes.length).setCall t (.pushTest data s.q.tail)) :=
  h.move ⟨by rw [h.ring.tail, h.pushes_length], h.pushes_length.le⟩

theorem Inv.popLoad (h : Inv R s) :
    Inv R ((s.see t s.pops.length).setCall t (.popTest s.q.head)) :=
  h.move ⟨by rw [h.ring.head, h.pops_length], h.pops_length.le⟩

theorem Inv.pushTest (h : Inv R s) {data : T} {tail : SizeT} (hc : s.call t = .pushTest data tail)
    (pass : (s.q.node tail).tail = tail) : Inv R (s.setCall t (.pushClaim data tail)) := by
  have fact := h.facts t
  rw [hc] at fact
  obtain ⟨hw, hn⟩ := fact
  refine h.setCall ⟨hw, hn, fun now => ?_⟩
  rw [hw, now] at pass
  rw [now]
  exact h.ring.tail_test.mp pass

theorem Inv.popTest (h : Inv R s) {head : SizeT} (hc : s.call t = .popTest head)
    (pass : (s.q.node head).head = head) : Inv R (s.setCall t (.popClaim head)) := by
  have fact := h.facts t
  rw [hc] at fact
  obtain ⟨hw, hn⟩ := fact
  refine h.setCall ⟨hw, hn, fun now => ?_⟩
  rw [hw, now] at pass
  rw [now]
  exact h.ring.head_test.mp pass

/-- A timely compare-exchange that succeeds takes the very ticket it tested. -/
theorem Inv.pushClaim (h : Inv R s) {data : T} {tail : SizeT}
    (hc : s.call t = .pushClaim data tail) (timely : s.pushes.length < s.seen t + 2 ^ 64)
    (same : s.q.tail = tail) :
    ∃ R' : TicketRing (2 ^ k), Inv R' ({ s.see t s.pushes.length with
      pushes := s.pushes ++ [(tail, t, data)]
      q := { s.q with tail := tail + 1 }
      call := Function.update s.call t (.pushConstruct data tail) }) := by
  have fact := h.facts t
  rw [hc] at fact
  obtain ⟨hw, hn, turn⟩ := fact
  have len := h.pushes_length
  have words : BitVec.ofNat 64 (s.seen t) = BitVec.ofNat 64 R.tail := by
    rw [← hw, ← same, h.ring.tail]
  have now : s.seen t = R.tail := ofNat_inj_of_near hn (by omega) words
  have ready : R.turn (R.tail % 2 ^ k) = R.tail := by
    have := turn now
    rwa [now] at this
  have word : tail = BitVec.ofNat 64 R.tail := by rw [hw, now]
  have last : (s.pushes ++ [(tail, t, data)])[R.tail]? = some (tail, t, data) := by
    rw [← len, List.getElem?_concat_length]
  refine ⟨R.draw (Nat.two_pow_pos k) ready, ?_, ?_, h.pops_length, ?_, h.pops_word, ?_, ?_,
    h.filled, h.released, ?_, h.copied_once⟩
  · simpa only [same] using h.ring.draw ready
  · change (s.pushes ++ [_]).length = R.tail + 1
    simp [len]
  · refine concat_forall h.pushes_word ?_
    rw [len]
    exact word
  · intro i hi full waiting
    change (s.q.queue i).data = _
    rw [h.stored i hi full waiting]
    exact (sent_extends (s := s) (concat_old _) (by have := R.full_drawn i hi full; omega)).symm
  · refine facts_update ?_ fun u _ => ?_
    · rw [len]
      refine ⟨word, Nat.lt_succ_self _, ready, ?_, word ▸ last⟩
      intro full
      have := R.full_drawn _ (Nat.mod_lt _ (Nat.two_pow_pos k)) full
      omega
    · exact (h.facts u).counters len (Nat.le_succ _) le_rfl rfl rfl (concat_old _) (fun _ _ e => e)
        (fun _ => rfl) rfl
  · intro n u r hr
    obtain ⟨hp, hs, some⟩ := h.copied n u r hr
    refine ⟨hp, ?_, some⟩
    have := (List.getElem?_eq_some_iff.mp hp).1
    have := h.pops_length
    have := R.head_le_tail
    rw [hs]
    exact (sent_extends (s := s) (concat_old _) (by omega)).symm

theorem Inv.popClaim (h : Inv R s) {head : SizeT} (hc : s.call t = .popClaim head)
    (timely : s.pops.length < s.seen t + 2 ^ 64) (same : s.q.head = head) :
    ∃ R' : TicketRing (2 ^ k), Inv R' ({ s.see t s.pops.length with
      pops := s.pops ++ [(head, t)]
      q := { s.q with head := head + 1 }
      call := Function.update s.call t (.popCopy head) }) := by
  have fact := h.facts t
  rw [hc] at fact
  obtain ⟨hw, hn, turn⟩ := fact
  have len := h.pops_length
  have words : BitVec.ofNat 64 (s.seen t) = BitVec.ofNat 64 R.head := by
    rw [← hw, ← same, h.ring.head]
  have now : s.seen t = R.head := ofNat_inj_of_near hn (by omega) words
  obtain ⟨ready, full⟩ : R.turn (R.head % 2 ^ k) = R.head ∧ R.full (R.head % 2 ^ k) := by
    have := turn now
    rwa [now] at this
  have word : head = BitVec.ofNat 64 R.head := by rw [hw, now]
  have hi := Nat.mod_lt R.head (Nat.two_pow_pos k)
  have last : (s.pops ++ [(head, t)])[R.head]? = some (head, t) := by
    rw [← len, List.getElem?_concat_length]
  refine ⟨R.take (Nat.two_pow_pos k) ready full, ?_, h.pushes_length, ?_, h.pushes_word, ?_, ?_,
    ?_, h.filled, h.released, ?_, h.copied_once⟩
  · simpa only [same] using h.ring.take ready full
  · change (s.pops ++ [_]).length = R.head + 1
    simp [len]
  · refine concat_forall h.pops_word ?_
    rw [len]
    exact word
  · intro i hi' hfull waiting
    exact h.stored i hi' hfull (Nat.le_of_succ_le waiting)
  · refine facts_update ?_ fun u _ => ?_
    · rw [len]
      refine ⟨word, ⟨Nat.lt_succ_self _, ready, word ▸ last⟩, ?_, ?_⟩
      · -- every copied ticket was taken before
        intro old
        obtain ⟨⟨n, u', r⟩, hr, hn'⟩ := List.mem_map.mp old
        simp only at hn'
        subst hn'
        have := (List.getElem?_eq_some_iff.mp (h.copied _ _ _ hr).1).1
        omega
      · change (s.q.queue (R.head % 2 ^ k)).data = _
        rw [h.stored _ hi full ready.ge, ready]
        rfl
    · exact (h.facts u).counters h.pushes_length le_rfl (Nat.le_succ _) rfl rfl
        (fun _ _ e => e) (concat_old _) (fun _ => rfl) rfl
  · intro n u r hr
    obtain ⟨hp, hs, some⟩ := h.copied n u r hr
    exact ⟨concat_old _ _ _ hp, hs, some⟩

/-- The facts of all threads after the owner of slot `m % 2 ^ k` took its step. -/
theorem Inv.others {R' : TicketRing (2 ^ k)} {s' : State Tid T} (h : Inv R s) {m : ℕ}
    {call : Call T} (owner : Owns R s t m) (mine : Fact R' s' t (s.seen t) call)
    (within : Within m R R' s s') (u : Tid) :
    Fact R' s' u (s.seen u) (Function.update s.call t call u) := by
  have facts := facts_update mine (fun u hu => (h.facts u).slot owner hu within) u
  rwa [Function.update_eq_self] at facts

theorem Inv.pushConstruct (h : Inv R s) {data : T} {tail : SizeT}
    (hc : s.call t = .pushConstruct data tail) :
    Inv R { s with
      q := s.q.storeData tail (some data)
      call := Function.update s.call t (.pushPublish tail) } := by
  have fact := h.facts t
  rw [hc] at fact
  obtain ⟨hw, hp⟩ := fact
  have slot : s.q.slot tail = s.seen t % 2 ^ k := by rw [hw, h.ring.slot_ofNat]
  refine { h with ring := h.ring.storeData _ _, stored := ?_, facts := ?_ }
  · intro i hi full waiting
    have away : i ≠ s.seen t % 2 ^ k := fun e => hp.empty (e ▸ full)
    rw [storeData_data, slot, if_neg away]
    exact h.stored i hi full waiting
  · refine h.others (m := s.seen t) (Or.inl ⟨data, hp⟩) ?_ {
      tail := rfl
      head := rfl
      turn := fun _ _ => rfl
      full := fun _ _ => Iff.rfl
      pushes := rfl
      pops := rfl
      data := ?_
      copied := fun _ fresh _ => fresh
      keeps := List.Subset.refl _ }
    · refine ⟨hw, data, ⟨hp.drawn, hp.turn, hp.empty, hp.mine⟩, ?_⟩
      rw [storeData_data, slot, if_pos rfl]
    · intro i away
      rw [storeData_data, slot, if_neg away]

theorem Inv.pushPublish (h : Inv R s) {tail : SizeT} (hc : s.call t = .pushPublish tail) :
    ∃ R' : TicketRing (2 ^ k), Inv R' { s with
      q := s.q.storeHead tail tail
      filled := s.filled ++ [s.seen t]
      call := Function.update s.call t (.pushReturn true) } := by
  have fact := h.facts t
  rw [hc] at fact
  obtain ⟨hw, data, hp, hd⟩ := fact
  refine ⟨R.fill (s.seen t) hp.drawn hp.turn, ?_, h.pushes_length, h.pops_length, h.pushes_word,
    h.pops_word, ?_, ?_, ?_, h.released, h.copied, h.copied_once⟩
  · rw [hw]
    exact h.ring.publish hp.drawn hp.turn
  · intro i hi full waiting
    rw [storeHead_data, TicketRing.fill_turn]
    rcases full with rfl | full
    · rw [hd, hp.turn]
      simp only [State.sent, hp.mine, Option.map_some]
    · exact h.stored i hi full waiting
  · exact h.others (m := s.seen t) (Or.inl ⟨data, hp⟩) trivial {
      tail := rfl
      head := rfl
      turn := fun _ _ => rfl
      full := fun i away => or_iff_right away
      pushes := rfl
      pops := rfl
      data := fun i _ => storeHead_data ..
      copied := fun _ fresh _ => fresh
      keeps := List.Subset.refl _ }
  · intro n
    rw [List.mem_append, List.mem_singleton, h.filled n, TicketRing.fill_turn]
    change _ ↔ _ ∨ n = R.turn (n % 2 ^ k) ∧ (n % 2 ^ k = s.seen t % 2 ^ k ∨ R.full (n % 2 ^ k))
    constructor
    · rintro ((old | ⟨now, full⟩) | rfl)
      · exact Or.inl old
      · exact Or.inr ⟨now, Or.inr full⟩
      · exact Or.inr ⟨hp.turn.symm, Or.inl rfl⟩
    · rintro (old | ⟨now, here | full⟩)
      · exact Or.inl (Or.inl old)
      · rw [here, hp.turn] at now
        exact Or.inr now
      · exact Or.inl (Or.inr ⟨now, full⟩)

theorem Inv.popCopy (h : Inv R s) {head : SizeT} (hc : s.call t = .popCopy head) :
    Inv R { s with
      copied := s.copied ++ [(s.seen t, t, (s.q.node head).data)]
      call := Function.update s.call t (.popDestroy head (s.q.node head).data) } := by
  have fact := h.facts t
  rw [hc] at fact
  obtain ⟨hw, hp, once, hd⟩ := fact
  have value : (s.q.node head).data = s.sent (s.seen t) := by rw [hw, h.ring.node_ofNat, hd]
  refine { h with facts := ?_, copied := ?_, copied_once := ?_ }
  · refine h.others (m := s.seen t) (Or.inr hp) ?_ {
      tail := rfl
      head := rfl
      turn := fun _ _ => rfl
      full := fun _ _ => Iff.rfl
      pushes := rfl
      pops := rfl
      data := fun _ _ => rfl
      copied := ?_
      keeps := List.subset_append_left _ _ }
    · exact ⟨hw, ⟨hp.taken, hp.turn, hp.mine⟩, List.mem_append_right _ (List.mem_singleton_self _)⟩
    · intro l fresh other
      rw [List.map_append, List.mem_append]
      rintro (old | now)
      · exact fresh old
      · exact other (by simpa using now)
  · intro n u r hr
    rcases List.mem_append.mp hr with old | now
    · exact h.copied n u r old
    · obtain ⟨rfl, rfl, rfl⟩ := by simpa using now
      refine ⟨hp.mine, value, ?_⟩
      have hlt : s.seen u < s.pushes.length := by
        have := hp.taken
        have := R.head_le_tail
        have := h.pushes_length
        omega
      rw [value, State.sent, List.getElem?_eq_getElem hlt]
      rfl
  · rw [List.map_append, List.nodup_append]
    refine ⟨h.copied_once, List.nodup_singleton _, ?_⟩
    intro a ha b hb
    rw [List.map_singleton, List.mem_singleton] at hb
    subst hb
    rintro rfl
    exact once ha

theorem Inv.popDestroy (h : Inv R s) {head : SizeT} {result : Option T}
    (hc : s.call t = .popDestroy head result) :
    Inv R { s with
      q := s.q.storeData head none
      call := Function.update s.call t (.popRelease head result) } := by
  have fact := h.facts t
  rw [hc] at fact
  obtain ⟨hw, hp, hr⟩ := fact
  have slot : s.q.slot head = s.seen t % 2 ^ k := by rw [hw, h.ring.slot_ofNat]
  refine { h with ring := h.ring.storeData _ _, stored := ?_, facts := ?_ }
  · intro i hi full waiting
    have away : i ≠ s.seen t % 2 ^ k := by
      rintro rfl
      have := hp.taken
      rw [hp.turn] at waiting
      omega
    rw [storeData_data, slot, if_neg away]
    exact h.stored i hi full waiting
  · refine h.others (m := s.seen t) (Or.inr hp) ?_ {
      tail := rfl
      head := rfl
      turn := fun _ _ => rfl
      full := fun _ _ => Iff.rfl
      pushes := rfl
      pops := rfl
      data := ?_
      copied := fun _ fresh _ => fresh
      keeps := List.Subset.refl _ }
    · exact ⟨hw, ⟨hp.taken, hp.turn, hp.mine⟩, hr⟩
    · intro i away
      rw [storeData_data, slot, if_neg away]

theorem Inv.popRelease (h : Inv R s) {head : SizeT} {result : Option T}
    (hc : s.call t = .popRelease head result) :
    ∃ R' : TicketRing (2 ^ k), Inv R' { s with
      q := s.q.storeTail head (head + s.q.capacity)
      released := s.released ++ [s.seen t]
      call := Function.update s.call t (.popReturn true result) } := by
  have fact := h.facts t
  rw [hc] at fact
  obtain ⟨hw, hp, logged⟩ := fact
  have hcap := Nat.two_pow_pos k
  have full := R.taken_full _ (Nat.mod_lt (s.seen t) hcap) (by rw [hp.turn]; exact hp.taken)
  -- within the released slot, the tickets below the new turn are those up to the old one
  have lap : ∀ n, n % 2 ^ k = s.seen t % 2 ^ k →
      (n < s.seen t + 2 ^ k ↔ n < s.seen t ∨ n = s.seen t) := by
    intro n same
    constructor
    · intro hn
      by_contra later
      rcases eq_or_lap same.symm (by omega) with e | e <;> omega
    · omega
  refine ⟨R.release hcap (s.seen t) hp.taken hp.turn, ?_, h.pushes_length, h.pops_length,
    h.pushes_word, h.pops_word, ?_, ?_, ?_, ?_, h.copied, h.copied_once⟩
  · rw [hw]
    exact h.ring.vacate hp.taken hp.turn
  · intro i hi item waiting
    rw [TicketRing.release_turn, if_neg item.1] at waiting ⊢
    rw [storeTail_data]
    exact h.stored i hi item.2 waiting
  · exact h.others (m := s.seen t) (Or.inr hp) logged {
      tail := rfl
      head := rfl
      turn := fun i away => by rw [TicketRing.release_turn, if_neg away]
      full := fun i away => and_iff_right away
      pushes := rfl
      pops := rfl
      data := fun i _ => storeTail_data ..
      copied := fun _ fresh _ => fresh
      keeps := List.Subset.refl _ }
  · intro n
    rw [h.filled n, TicketRing.release_turn]
    change _ ↔ _ ∨ _ ∧ n % 2 ^ k ≠ s.seen t % 2 ^ k ∧ R.full (n % 2 ^ k)
    by_cases here : n % 2 ^ k = s.seen t % 2 ^ k
    · rw [if_pos here, here, hp.turn, lap n here]
      simp [full]
    · simp [here]
  · intro n
    rw [List.mem_append, List.mem_singleton, h.released n, TicketRing.release_turn]
    by_cases here : n % 2 ^ k = s.seen t % 2 ^ k
    · rw [if_pos here, here, hp.turn, lap n here]
    · rw [if_neg here, or_iff_left]
      rintro rfl
      exact here rfl

/-- Every timely step of every thread keeps the invariant. -/
theorem Inv.step (h : Inv R s) {l : Label Tid T} {s' : State Tid T} (timely : Timely s l)
    (hs : next s l = some s') : ∃ R' : TicketRing (2 ^ k), Inv R' s' := by
  cases next_step hs with
  | invoke rest op => cases op <;> exact ⟨R, h.setCall trivial⟩
  | @step t running spurious =>
    cases hc : s.call t with
    | rest | pushReturn | popReturn => simp [hc, Call.atRest] at running
    | pushLoad data =>
      simp only [record, advance, hc]
      exact ⟨R, h.pushLoad data⟩
    | pushTest data tail =>
      simp only [record, advance, hc]
      split
      · exact ⟨R, h.setCall trivial⟩
      · rename_i pass
        exact ⟨R, h.pushTest hc (not_not.mp pass)⟩
    | pushClaim data tail =>
      simp only [Timely, hc] at timely
      simp only [record, advance, hc]
      split
      · rename_i won
        exact h.pushClaim hc timely won.1
      · exact ⟨R, h.pushLoad data⟩
    | pushConstruct data tail =>
      simp only [record, advance, hc]
      exact ⟨R, h.pushConstruct hc⟩
    | pushPublish tail =>
      simp only [record, advance, hc]
      exact h.pushPublish hc
    | popLoad =>
      simp only [record, advance, hc]
      exact ⟨R, h.popLoad⟩
    | popTest head =>
      simp only [record, advance, hc]
      split
      · exact ⟨R, h.setCall trivial⟩
      · rename_i pass
        exact ⟨R, h.popTest hc (not_not.mp pass)⟩
    | popClaim head =>
      simp only [Timely, hc] at timely
      simp only [record, advance, hc]
      split
      · rename_i won
        exact h.popClaim hc timely won.1
      · exact ⟨R, h.popLoad⟩
    | popCopy head =>
      simp only [record, advance, hc]
      exact ⟨R, h.popCopy hc⟩
    | popDestroy head result =>
      simp only [record, advance, hc]
      exact ⟨R, h.popDestroy hc⟩
    | popRelease head result =>
      simp only [record, advance, hc]
      exact h.popRelease hc

end Steps

end LockFreeQueue
