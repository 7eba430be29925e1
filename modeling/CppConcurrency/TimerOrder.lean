import CppConcurrency.TimerHandles

/-!
# Timers fire in the order of their deadlines

With delays that are not negative and a clock that does not go back, a timer added now
expires after every timer that has fired, or at the same tick with a younger id. So all
pending timers lie ahead of the fired ones, and the first of them is the next in order.
-/

namespace Timers

open Machines OrderedSets

universe u v

variable {Obj : Type v} {Task : Type u} {clock : ℤ}

/-- The clock does not go back, delays are not negative, callbacks return, do not delete
a timer that is being fired, and do not check the timers of their own object. -/
def Orderly (s : State Obj Task) : Label Obj Task → Prop
  | .addTimer _ tick msec _ => s.clock ≤ tick ∧ 0 ≤ msec
  | .delTimer o node => ¬ BeingFired s o node
  | .checkTimer o tick => s.clock ≤ tick ∧ ∀ e ∈ s.firing, e.1 ≠ o
  | .callbackReturns => True
  | .callbackThrows => False

variable {s s' : State Obj Task} {o : Obj}

theorem idle_of_no_callback (none : ∀ e ∈ s.firing, e.1 ≠ o) (h : TimerNodeBase) :
    ¬ BeingFired s o h := by
  rintro ⟨n, hn, -⟩
  exact none _ hn rfl

theorem Orderly.regular {l : Label Obj Task} (orderly : Orderly s l) : Regular s l := by
  cases l with
  | addTimer | callbackReturns => trivial
  | delTimer => exact orderly
  | checkTimer => exact fun _ _ _ => idle_of_no_callback orderly.2 _
  | callbackThrows => exact orderly

structure Ordered (s : State Obj Task) : Prop where
  due : ∀ e ∈ s.fired, e.2.2.expireTime ≤ e.2.1
  past : ∀ e ∈ s.fired, e.2.1 ≤ s.clock
  increasing : s.fired.Pairwise fun a b => a.1 = b.1 → (sliced a.2.2).lt (sliced b.2.2) = true
  ahead : ∀ o n, n ∈ s.map o → ¬ BeingFired s o (sliced n) →
    ∀ e ∈ s.fired, e.1 = o → (sliced e.2.2).lt (sliced n) = true

section Steps

variable [DecidableEq Obj]

theorem start_ordered : Ordered (machine Obj Task clock).start where
  due e he := by cases he
  past e he := by cases he
  increasing := .nil
  ahead o n hn := by cases hn

/-- A new timer lies ahead of all that has fired. -/
theorem Ordered.add (ord : Ordered s) (h : Inv s) {tick msec : ℤ} (now : s.clock ≤ tick)
    (delay : 0 ≤ msec) (o : Obj) (callback : Task) : Ordered (addTimer s o tick msec callback).2 where
  due := ord.due
  past e he := Int.le_trans (ord.past e he) now
  increasing := ord.increasing
  ahead p n hn idle e he same := by
    have unused := h.unused tick msec callback
    have new : ∀ m ∈ s.map o, sliced m ≠ sliced (s.newNode tick msec callback) :=
      fun m hm => unused _ (h.created o m hm)
    rcases (mem_setMap_insert new).mp hn with old | ⟨rfl, rfl⟩
    · exact ord.ahead p n old idle e he same
    · have due := ord.due e he
      have past := ord.past e he
      have older := h.bound _ (h.wasFired e.1 (sliced e.2.2) ⟨e.2.1, e.2.2, he, rfl⟩)
      rw [TimerNodeBase.lt_iff]
      change e.2.2.expireTime < tick + msec ∨
        e.2.2.expireTime = tick + msec ∧ (sliced e.2.2).id < s.gid + 1
      change (sliced e.2.2).id ≤ s.gid at older
      omega

omit [DecidableEq Obj] in
/-- The first timer fires next in order, and it is the least of the pending ones. -/
theorem Ordered.fire (ord : Ordered s) (h : Inv s) {it : TimerNode Task}
    {rest : List (TimerNode Task)} {tick : ℤ} (first : s.map o = it :: rest)
    (due : it.expireTime ≤ tick) (now : s.clock ≤ tick) (none : ∀ e ∈ s.firing, e.1 ≠ o) :
    Ordered { s with
      firing := (o, it) :: s.firing
      fired := s.fired ++ [(o, tick, it)]
      clock := tick } := by
  have hit : it ∈ s.map o := first ▸ List.mem_cons_self
  have before := ord.ahead o it hit (idle_of_no_callback none _)
  refine {
    due := fun e he => ?due
    past := fun e he => ?past
    increasing := ?increasing
    ahead := fun p n hn idle e he same => ?ahead }
  case due =>
    rcases List.mem_append.mp he with old | new
    · exact ord.due e old
    · rw [List.mem_singleton.mp new]
      exact due
  case past =>
    rcases List.mem_append.mp he with old | new
    · exact Int.le_trans (ord.past e old) now
    · obtain rfl := List.mem_singleton.mp new
      exact Int.le_refl _
  case increasing =>
    refine List.pairwise_append.mpr ⟨ord.increasing, List.pairwise_singleton .., ?_⟩
    intro a ha b hb same
    rw [List.mem_singleton.mp hb] at same ⊢
    exact before a ha same
  case ahead =>
    have both := not_or.mp ((not_congr (BeingFired.cons rfl)).mp idle)
    rcases List.mem_append.mp he with old | new
    · exact ord.ahead p n hn both.1 e old same
    · obtain rfl := List.mem_singleton.mp new
      obtain rfl : o = p := same
      have sorted := h.sorted o
      rw [first] at sorted hn
      rcases List.mem_cons.mp hn with rfl | later
      · exact absurd ⟨rfl, rfl⟩ both.2
      · exact (List.pairwise_cons.mp sorted).1 n later

theorem Ordered.next (ord : Ordered s) (h : Inv s) {l : Label Obj Task} (orderly : Orderly s l)
    (hs : next s l = some s') : Ordered s' := by
  cases next_step hs with
  | adds o tick msec callback => exact ord.add h orderly.1 orderly.2 o callback
  | @deletes o node it found =>
    refine { ord with ahead := fun p n hn idle => ?_ }
    exact ord.ahead p n ((mem_setMap_erase (h.sorted o)).mp hn).1 idle
  | misses => exact ord
  | fires first due => exact ord.fire h first due orderly.1 orderly.2
  | rests => exact { ord with past := fun e he => Int.le_trans (ord.past e he) orderly.1 }
  | @returns o it outer running =>
    refine { ord with ahead := fun p n hn idle => ?_ }
    obtain ⟨before, other⟩ := (mem_setMap_erase (h.sorted o)).mp hn
    refine ord.ahead p n before fun busy => ?_
    obtain ⟨m, hm, key⟩ := busy
    rw [running] at hm
    rcases List.mem_cons.mp hm with here | inner
    · obtain ⟨rfl, rfl⟩ := Prod.mk.inj here
      exact other ⟨rfl, key.symm⟩
    · exact idle ⟨m, inner, key⟩
  | throws => exact orderly.elim

theorem reachBy_ordered (reached : (machine Obj Task clock).ReachBy Orderly s) :
    Inv s ∧ Ordered s := by
  refine reached.invariant (P := fun s => Inv s ∧ Ordered s) _ ⟨start_inv, start_ordered⟩ ?_
  rintro s l s' ⟨h, ord⟩ orderly hs
  exact ⟨h.next orderly.regular hs, ord.next h orderly hs⟩

omit [DecidableEq Obj] in
/-- What was created with the lesser id was created first. -/
theorem Inv.created_first (h : Inv s) {a b : Obj × TimerNodeBase} (ha : a ∈ s.created)
    (hb : b ∈ s.created) (less : a.2.id < b.2.id) : [a, b].Sublist s.created := by
  have ids := h.ids
  revert ha hb ids
  generalize s.created = all
  intro ha hb ids
  induction all with
  | nil => cases ha
  | cons c rest ih =>
    obtain ⟨first, later⟩ := List.pairwise_cons.mp ids
    rcases List.mem_cons.mp ha with rfl | ha
    · rcases List.mem_cons.mp hb with rfl | hb
      · exact absurd less (Int.lt_irrefl _)
      · exact (List.singleton_sublist.mpr hb).cons_cons a
    · rcases List.mem_cons.mp hb with hb | hb
      · exact absurd (first a ha) (Int.not_lt.mpr (Int.le_of_lt (hb ▸ less)))
      · exact (ih ha hb later).cons c

omit [DecidableEq Obj] in
/-- A check that calls nothing has found the earliest timer not yet due. -/
theorem Inv.none_overdue (h : Inv s) {tick : ℤ} (rests : (checkTimer s o tick).1 = false) :
    ∀ n ∈ s.map o, tick < n.expireTime := by
  obtain ⟨early, -⟩ := checkTimer_rests rests
  have sorted := h.sorted o
  intro n hn
  cases set : s.map o with
  | nil =>
    rw [set] at hn
    cases hn
  | cons it rest =>
    rw [set] at early sorted hn
    have first : tick < it.expireTime := early it rfl
    rcases List.mem_cons.mp hn with rfl | later
    · exact first
    · have before := (List.pairwise_cons.mp sorted).1 n later
      rw [TimerNodeBase.lt_iff] at before
      change it.expireTime < n.expireTime ∨ it.expireTime = n.expireTime ∧ _ at before
      omega

/-- The timers of one object fire in the order of their deadlines, those of one deadline
in the order of their creation, none twice and none before its time. A check that
answers false leaves no overdue timer behind. -/
theorem fired_in_deadline_order (reached : (machine Obj Task clock).ReachBy Orderly s) :
    s.fired.Pairwise (fun a b => a.1 = b.1 →
      (sliced a.2.2).lt (sliced b.2.2) = true ∧
        (a.2.2.expireTime = b.2.2.expireTime →
          [(a.1, sliced a.2.2), (b.1, sliced b.2.2)].Sublist s.created)) ∧
      (s.fired.map fun e => (e.1, sliced e.2.2)).Nodup ∧
      (∀ e ∈ s.fired, e.2.2.expireTime ≤ e.2.1) ∧
      ∀ o tick, (checkTimer s o tick).1 = false → ∀ n ∈ s.map o, tick < n.expireTime := by
  obtain ⟨h, ord⟩ := reachBy_ordered reached
  have created : ∀ e ∈ s.fired, (e.1, sliced e.2.2) ∈ s.created :=
    fun e he => h.wasFired e.1 _ ⟨e.2.1, e.2.2, he, rfl⟩
  refine ⟨?_, ?_, ord.due, fun o tick rests => h.none_overdue rests⟩
  · refine ord.increasing.imp_of_mem fun {a b} ha hb before same => ⟨before same, fun tie => ?_⟩
    refine h.created_first (created a ha) (created b hb) ?_
    rcases TimerNodeBase.lt_iff.mp (before same) with earlier | ⟨-, older⟩
    · exact absurd tie (Int.ne_of_lt earlier)
    · exact older
  · refine List.pairwise_map.mpr (ord.increasing.imp fun {a b} before twice => ?_)
    obtain ⟨same, key⟩ := Prod.mk.inj twice
    have less := before same
    rw [key, comparator.irrefl] at less
    cases less

end Steps

/-- Two timers of one deadline; the callback of the first adds a third one, which is due at
once and fires last. -/
def tiedTimers : List (Label (Fin 2) Unit) :=
  [.addTimer 0 5 10 (), .addTimer 0 7 8 (), .checkTimer 0 20, .addTimer 0 21 0 (),
    .callbackReturns, .checkTimer 0 22, .callbackReturns, .checkTimer 0 23, .callbackReturns]

def tiedRun : (machine (Fin 2) Unit 0).Run := .ofSchedule _ .callbackReturns tiedTimers rfl

theorem fired_in_deadline_order_tied :
    ((tiedRun.state 9).fired.map fun e => (e.1, sliced e.2.2)).Nodup ∧
      (tiedRun.state 9).fired.map (fun e => e.2.2.id) = [1, 2, 3] := by
  have orderly : tiedRun.Meets Orderly := by
    intro i hi
    match i, hi with
    | 0, _ | 1, _ | 3, _ => exact ⟨by decide, by decide⟩
    | 2, _ | 5, _ | 7, _ => exact ⟨by decide, fun e he => (by cases he)⟩
    | 4, _ | 6, _ | 8, _ => trivial
  have ordered := fired_in_deadline_order (tiedRun.reachBy orderly (i := 9) (by decide))
  exact ⟨ordered.2.1, by decide⟩

end Timers
