import CppConcurrency.Timer

/-!
# A handle names one timer for the whole run

Every id is handed out once, so no two keys are equivalent, over all `Timer` objects. A
created timer is pending, or it has fired, or it was deleted, and where its callback is
running it is pending still. What a callback does is restricted in one way only: it may
not remove, by `delTimer` or by firing it again, a timer whose callback is running.
-/

namespace Timers

open Machines OrderedSets

universe u v

variable {Obj : Type v} {Task : Type u} {clock : ℤ}

def HasFired (s : State Obj Task) (o : Obj) (h : TimerNodeBase) : Prop :=
  ∃ tick n, (o, tick, n) ∈ s.fired ∧ sliced n = h

/-- The callback of the timer is running. -/
def BeingFired (s : State Obj Task) (o : Obj) (h : TimerNodeBase) : Prop :=
  ∃ n, (o, n) ∈ s.firing ∧ sliced n = h

/-- Callbacks return normally, and a timer whose callback is running is neither deleted
nor fired again. -/
def Regular (s : State Obj Task) : Label Obj Task → Prop
  | .addTimer _ _ _ _ | .callbackReturns => True
  | .delTimer o node => ¬ BeingFired s o node
  | .checkTimer o tick =>
    ∀ n ∈ (s.map o).head?, n.expireTime ≤ tick → ¬ BeingFired s o (sliced n)
  | .callbackThrows => False

structure Inv (s : State Obj Task) : Prop where
  ids : s.created.Pairwise fun a b => a.2.id < b.2.id
  bound : ∀ e ∈ s.created, e.2.id ≤ s.gid
  sorted : ∀ o, Sorted TimerNodeBase.lt sliced (s.map o)
  created : ∀ o n, n ∈ s.map o → (o, sliced n) ∈ s.created
  kept : ∀ o n, n ∈ s.map o → (o, sliced n) ∉ s.deleted
  running : ∀ o n, n ∈ s.map o → HasFired s o (sliced n) → BeingFired s o (sliced n)
  gone : ∀ o h, (o, h) ∈ s.created → (∀ n ∈ s.map o, sliced n ≠ h) →
    HasFired s o h ∨ (o, h) ∈ s.deleted
  apart : ∀ o h, (o, h) ∈ s.deleted → ¬ HasFired s o h
  wasDeleted : ∀ o h, (o, h) ∈ s.deleted → (o, h) ∈ s.created
  wasFired : ∀ o h, HasFired s o h → (o, h) ∈ s.created
  pending : ∀ o n, (o, n) ∈ s.firing → n ∈ s.map o
  begun : ∀ o n, (o, n) ∈ s.firing → HasFired s o (sliced n)
  once : s.firing.Pairwise fun a b => (a.1, sliced a.2) ≠ (b.1, sliced b.2)

variable {s s' : State Obj Task} {o : Obj}

theorem HasFired.append {tick : ℤ} {it : TimerNode Task} {h : TimerNodeBase} {p : Obj}
    (fired : s'.fired = s.fired ++ [(o, tick, it)]) :
    HasFired s' p h ↔ HasFired s p h ∨ p = o ∧ sliced it = h := by
  constructor
  · rintro ⟨tick', n, hn, key⟩
    rw [fired] at hn
    rcases List.mem_append.mp hn with old | new
    · exact Or.inl ⟨tick', n, old, key⟩
    · obtain ⟨rfl, rfl, rfl⟩ : p = o ∧ tick' = tick ∧ n = it := by
        simpa using List.mem_singleton.mp new
      exact Or.inr ⟨rfl, key⟩
  · rintro (⟨tick', n, hn, key⟩ | ⟨rfl, key⟩)
    · exact ⟨tick', n, fired ▸ List.mem_append_left _ hn, key⟩
    · exact ⟨tick, it, fired ▸ List.mem_append_right _ (List.mem_singleton_self _), key⟩

theorem BeingFired.cons {it : TimerNode Task} {h : TimerNodeBase} {p : Obj}
    (firing : s'.firing = (o, it) :: s.firing) :
    BeingFired s' p h ↔ BeingFired s p h ∨ p = o ∧ sliced it = h := by
  constructor
  · rintro ⟨n, hn, key⟩
    rw [firing] at hn
    rcases List.mem_cons.mp hn with new | old
    · obtain ⟨rfl, rfl⟩ := Prod.mk.inj new
      exact Or.inr ⟨rfl, key⟩
    · exact Or.inl ⟨n, old, key⟩
  · rintro (⟨n, hn, key⟩ | ⟨rfl, key⟩)
    · exact ⟨n, firing ▸ List.mem_cons_of_mem _ hn, key⟩
    · exact ⟨it, firing ▸ List.mem_cons_self, key⟩

section Steps

variable [DecidableEq Obj]

theorem start_inv : Inv (machine Obj Task clock).start where
  ids := .nil
  bound e he := by cases he
  sorted o := .nil
  created o n hn := by cases hn
  kept o n hn := by cases hn
  running o n hn := by cases hn
  gone o h hh := by cases hh
  apart o h hh := by cases hh
  wasDeleted o h hh := by cases hh
  wasFired := by
    rintro o h ⟨tick, n, hn, -⟩
    cases hn
  pending o n hn := by cases hn
  begun o n hn := by cases hn
  once := .nil

theorem setMap_self (set : List (TimerNode Task)) : (s.setMap o set).map o = set :=
  Function.update_self ..

theorem setMap_other {p : Obj} (set : List (TimerNode Task)) (other : p ≠ o) :
    (s.setMap o set).map p = s.map p :=
  Function.update_of_ne other ..

/-- What an insertion of a new key makes of the sets. -/
theorem mem_setMap_insert {it n : TimerNode Task} {p : Obj}
    (new : ∀ m ∈ s.map o, sliced m ≠ sliced it) :
    n ∈ (s.setMap o (insert TimerNodeBase.lt sliced it (s.map o))).map p ↔
      n ∈ s.map p ∨ p = o ∧ n = it := by
  by_cases here : p = o
  · subst here
    rw [setMap_self, (perm_insert comparator new).mem_iff, List.mem_cons]
    constructor
    · rintro (rfl | old)
      · exact Or.inr ⟨rfl, rfl⟩
      · exact Or.inl old
    · rintro (old | ⟨-, rfl⟩)
      · exact Or.inr old
      · exact Or.inl rfl
  · rw [setMap_other _ here]
    exact (or_iff_left fun wrong => here wrong.1).symm

theorem mem_setMap_erase {h : TimerNodeBase} {n : TimerNode Task} {p : Obj}
    (sorted : Sorted TimerNodeBase.lt sliced (s.map o)) :
    n ∈ (s.setMap o (erase TimerNodeBase.lt sliced h (s.map o))).map p ↔
      n ∈ s.map p ∧ ¬ (p = o ∧ sliced n = h) := by
  by_cases here : p = o
  · subst here
    rw [setMap_self, mem_erase comparator sorted]
    simp
  · rw [setMap_other _ here]
    exact (and_iff_left fun wrong => here wrong.1).symm

theorem sorted_setMap {set : List (TimerNode Task)}
    (sorted : ∀ o, Sorted TimerNodeBase.lt sliced (s.map o))
    (here : Sorted TimerNodeBase.lt sliced set) (p : Obj) :
    Sorted TimerNodeBase.lt sliced ((s.setMap o set).map p) := by
  by_cases same : p = o
  · subst same
    rw [setMap_self]
    exact here
  · rw [setMap_other _ same]
    exact sorted p

omit [DecidableEq Obj] in
/-- The key of a new node was never handed out before. -/
theorem Inv.unused (h : Inv s) (tick msec : ℤ) (callback : Task) :
    ∀ e ∈ s.created, e.2 ≠ sliced (s.newNode tick msec callback) := by
  intro e he wrong
  have old := h.bound e he
  rw [wrong] at old
  change s.gid + 1 ≤ s.gid at old
  omega

theorem Inv.add (h : Inv s) (o : Obj) (tick msec : ℤ) (callback : Task) :
    Inv (addTimer s o tick msec callback).2 := by
  have unused := h.unused tick msec callback
  have new : ∀ m ∈ s.map o, sliced m ≠ sliced (s.newNode tick msec callback) :=
    fun m hm => unused _ (h.created o m hm)
  have mem : ∀ {p n}, n ∈ (addTimer s o tick msec callback).2.map p ↔
      n ∈ s.map p ∨ p = o ∧ n = s.newNode tick msec callback := mem_setMap_insert new
  refine {
    ids := ?ids
    bound := ?bound
    sorted := sorted_setMap h.sorted ((h.sorted o).insert comparator)
    created := fun p n hn => ?created
    kept := fun p n hn => ?kept
    running := fun p n hn fired => ?running
    gone := fun p k hk missing => ?gone
    apart := h.apart
    wasDeleted := fun p k hk => List.mem_append_left _ (h.wasDeleted p k hk)
    wasFired := fun p k hk => List.mem_append_left _ (h.wasFired p k hk)
    pending := fun p n hn => mem.mpr (Or.inl (h.pending p n hn))
    begun := h.begun
    once := h.once }
  case ids =>
    refine List.pairwise_append.mpr ⟨h.ids, List.pairwise_singleton .., ?_⟩
    rintro a ha b hb
    rw [List.mem_singleton.mp hb]
    exact Int.lt_add_one_of_le (h.bound a ha)
  case bound =>
    intro e he
    rcases List.mem_append.mp he with old | new
    · exact Int.le_trans (h.bound e old) (Int.le_add_one (Int.le_refl _))
    · rw [List.mem_singleton.mp new]
      exact Int.le_refl _
  case created =>
    rcases mem.mp hn with old | ⟨rfl, rfl⟩
    · exact List.mem_append_left _ (h.created p n old)
    · exact List.mem_append_right _ (List.mem_singleton_self _)
  case kept =>
    rcases mem.mp hn with old | ⟨rfl, rfl⟩
    · exact h.kept p n old
    · exact fun wrong => unused _ (h.wasDeleted _ _ wrong) rfl
  case running =>
    rcases mem.mp hn with old | ⟨rfl, rfl⟩
    · exact h.running p n old fired
    · exact absurd rfl (unused _ (h.wasFired _ _ fired))
  case gone =>
    rcases List.mem_append.mp hk with old | fresh
    · exact h.gone p k old fun n hn => missing n (mem.mpr (Or.inl hn))
    · obtain ⟨rfl, rfl⟩ := Prod.mk.inj (List.mem_singleton.mp fresh)
      exact absurd rfl (missing _ (mem.mpr (Or.inr ⟨rfl, rfl⟩)))

/-- A timer that is deleted while its callback does not run. -/
theorem Inv.delete (h : Inv s) {it : TimerNode Task} (hit : it ∈ s.map o)
    (idle : ¬ BeingFired s o (sliced it)) :
    Inv { s.setMap o (erase TimerNodeBase.lt sliced (sliced it) (s.map o)) with
      deleted := s.deleted ++ [(o, sliced it)] } := by
  have mem : ∀ {p n}, n ∈ (s.setMap o (erase TimerNodeBase.lt sliced (sliced it) (s.map o))).map p ↔
      n ∈ s.map p ∧ ¬ (p = o ∧ sliced n = sliced it) := mem_setMap_erase (h.sorted o)
  have now : ∀ {p k}, (p, k) ∈ s.deleted ++ [(o, sliced it)] ↔
      (p, k) ∈ s.deleted ∨ p = o ∧ k = sliced it := by simp
  refine {
    ids := h.ids
    bound := h.bound
    sorted := sorted_setMap h.sorted ((h.sorted o).erase _)
    created := fun p n hn => h.created p n (mem.mp hn).1
    kept := fun p n hn => ?kept
    running := fun p n hn => h.running p n (mem.mp hn).1
    gone := fun p k hk missing => ?gone
    apart := fun p k hk => ?apart
    wasDeleted := fun p k hk => ?wasDeleted
    wasFired := h.wasFired
    pending := fun p n hn => mem.mpr ⟨h.pending p n hn, ?pending⟩
    begun := h.begun
    once := h.once }
  case kept =>
    obtain ⟨before, other⟩ := mem.mp hn
    intro wrong
    rcases now.mp wrong with old | here
    · exact h.kept p n before old
    · exact other here
  case gone =>
    by_cases here : p = o ∧ k = sliced it
    · exact Or.inr (now.mpr (Or.inr here))
    · refine (h.gone p k hk fun n hn key => missing n (mem.mpr ⟨hn, ?_⟩) key).imp_right
        fun old => now.mpr (Or.inl old)
      rintro ⟨same, same'⟩
      exact here ⟨same, key.symm.trans same'⟩
  case apart =>
    rcases now.mp hk with old | ⟨rfl, rfl⟩
    · exact h.apart p k old
    · exact fun fired => idle (h.running _ it hit fired)
  case wasDeleted =>
    rcases now.mp hk with old | ⟨rfl, rfl⟩
    · exact h.wasDeleted p k old
    · exact h.created _ it hit
  case pending =>
    rintro ⟨rfl, key⟩
    exact idle ⟨n, hn, key⟩

omit [DecidableEq Obj] in
/-- A pending timer fires whose callback does not run yet. -/
theorem Inv.fire (h : Inv s) {it : TimerNode Task} {tick : ℤ} (hit : it ∈ s.map o)
    (idle : ¬ BeingFired s o (sliced it)) :
    Inv { s with
      firing := (o, it) :: s.firing
      fired := s.fired ++ [(o, tick, it)]
      clock := tick } := by
  refine {
    ids := h.ids
    bound := h.bound
    sorted := h.sorted
    created := h.created
    kept := h.kept
    running := fun p n hn fired => (BeingFired.cons rfl).mpr ?running
    gone := fun p k hk missing => (h.gone p k hk missing).imp_left ?gone
    apart := fun p k hk fired => ?apart
    wasDeleted := h.wasDeleted
    wasFired := fun p k fired => ?wasFired
    pending := fun p n hn => ?pending
    begun := fun p n hn => (HasFired.append rfl).mpr ?begun
    once := List.pairwise_cons.mpr ⟨fun e he same => ?once, h.once⟩ }
  case running =>
    rcases (HasFired.append rfl).mp fired with old | here
    · exact Or.inl (h.running p n hn old)
    · exact Or.inr here
  case gone => exact fun old => (HasFired.append rfl).mpr (Or.inl old)
  case apart =>
    rcases (HasFired.append rfl).mp fired with old | ⟨rfl, rfl⟩
    · exact h.apart p k hk old
    · exact h.kept _ it hit hk
  case wasFired =>
    rcases (HasFired.append rfl).mp fired with old | ⟨rfl, rfl⟩
    · exact h.wasFired p k old
    · exact h.created _ it hit
  case pending =>
    rcases List.mem_cons.mp hn with here | old
    · obtain ⟨rfl, rfl⟩ := Prod.mk.inj here
      exact hit
    · exact h.pending p n old
  case begun =>
    rcases List.mem_cons.mp hn with here | old
    · obtain ⟨rfl, rfl⟩ := Prod.mk.inj here
      exact Or.inr ⟨rfl, rfl⟩
    · exact Or.inl (h.begun p n old)
  case once =>
    obtain ⟨rfl, key⟩ := Prod.mk.inj same
    exact idle ⟨e.2, he, key.symm⟩

/-- The callback returns and its node is erased. -/
theorem Inv.finish (h : Inv s) {it : TimerNode Task} {outer : List (Obj × TimerNode Task)}
    (running : s.firing = (o, it) :: outer) :
    Inv { s.setMap o (erase TimerNodeBase.lt sliced (sliced it) (s.map o)) with firing := outer } := by
  have mem : ∀ {p n}, n ∈ (s.setMap o (erase TimerNodeBase.lt sliced (sliced it) (s.map o))).map p ↔
      n ∈ s.map p ∧ ¬ (p = o ∧ sliced n = sliced it) := mem_setMap_erase (h.sorted o)
  have once := h.once
  rw [running] at once
  obtain ⟨different, once⟩ := List.pairwise_cons.mp once
  have inner : (o, it) ∈ s.firing := running ▸ List.mem_cons_self
  have outside : ∀ {e}, e ∈ outer → e ∈ s.firing := fun he => running ▸ List.mem_cons_of_mem _ he
  refine {
    ids := h.ids
    bound := h.bound
    sorted := sorted_setMap h.sorted ((h.sorted o).erase _)
    created := fun p n hn => h.created p n (mem.mp hn).1
    kept := fun p n hn => h.kept p n (mem.mp hn).1
    running := fun p n hn fired => ?running
    gone := fun p k hk missing => ?gone
    apart := h.apart
    wasDeleted := h.wasDeleted
    wasFired := h.wasFired
    pending := fun p n hn => mem.mpr ⟨h.pending p n (outside hn), ?pending⟩
    begun := fun p n hn => h.begun p n (outside hn)
    once := once }
  case running =>
    obtain ⟨before, other⟩ := mem.mp hn
    obtain ⟨m, hm, key⟩ := h.running p n before fired
    rw [running] at hm
    rcases List.mem_cons.mp hm with here | there
    · obtain ⟨rfl, rfl⟩ := Prod.mk.inj here
      exact absurd ⟨rfl, key.symm⟩ other
    · exact ⟨m, there, key⟩
  case gone =>
    by_cases here : p = o ∧ k = sliced it
    · obtain ⟨rfl, rfl⟩ := here
      exact Or.inl (h.begun _ it inner)
    · refine h.gone p k hk fun n hn key => missing n (mem.mpr ⟨hn, ?_⟩) key
      rintro ⟨same, same'⟩
      exact here ⟨same, key.symm.trans same'⟩
  case pending =>
    rintro ⟨rfl, key⟩
    exact different _ hn (Prod.ext rfl key.symm)

theorem Inv.next (h : Inv s) {l : Label Obj Task} (regular : Regular s l) (hs : next s l = some s') :
    Inv s' := by
  cases next_step hs with
  | adds o tick msec callback => exact h.add o tick msec callback
  | deletes found =>
    obtain ⟨hit, key⟩ := find_eq_some comparator found
    exact h.delete hit (key ▸ regular)
  | misses => exact h
  | fires first due =>
    refine h.fire (first ▸ List.mem_cons_self) (regular _ ?_ due)
    rw [first]
    exact rfl
  | rests =>
    exact { h with }
  | returns running => exact h.finish running
  | throws => exact regular.elim

theorem reachBy_inv (reached : (machine Obj Task clock).ReachBy Regular s) : Inv s :=
  reached.invariant _ start_inv fun _ _ _ h regular hs => h.next regular hs

theorem next_deleted {l : Label Obj Task} (hs : next s l = some s') : s.deleted ⊆ s'.deleted := by
  cases next_step hs with
  | deletes => exact List.subset_append_left ..
  | adds | misses | fires | rests | returns | throws => exact List.Subset.refl _

/-! ### Lookups -/

omit [DecidableEq Obj] in
/-- A lookup by handle finds a timer of that object which is still pending. -/
theorem Inv.find_iff (h : Inv s) {k : TimerNodeBase} (idle : ¬ BeingFired s o k) :
    (find TimerNodeBase.lt sliced k (s.map o)).isSome = true ↔
      (o, k) ∈ s.created ∧ ¬ HasFired s o k ∧ (o, k) ∉ s.deleted := by
  rw [find_isSome comparator]
  constructor
  · rintro ⟨n, hn, rfl⟩
    exact ⟨h.created o n hn, fun fired => idle (h.running o n hn fired), h.kept o n hn⟩
  · rintro ⟨created, unfired, kept⟩
    by_contra missing
    have gone := h.gone o k created fun n hn key => missing ⟨n, hn, key⟩
    exact gone.elim unfired kept

theorem delTimer_true {k : TimerNodeBase} :
    (delTimer s o k).1 = (find TimerNodeBase.lt sliced k (s.map o)).isSome := by
  unfold delTimer
  split
  · rename_i found
    rw [found]
    rfl
  · rename_i missing
    rw [missing]
    rfl

theorem mem_delTimer (sorted : Sorted TimerNodeBase.lt sliced (s.map o)) {k : TimerNodeBase} {p : Obj}
    {n : TimerNode Task} :
    n ∈ (delTimer s o k).2.map p ↔ n ∈ s.map p ∧ ¬ (p = o ∧ sliced n = k) := by
  unfold delTimer
  split
  · rename_i it found
    obtain ⟨-, rfl⟩ := find_eq_some comparator found
    exact mem_setMap_erase sorted
  · rename_i missing
    refine (and_iff_left_of_imp fun hn => ?_).symm
    rintro ⟨rfl, key⟩
    exact (find_eq_none comparator).mp missing n hn key

/-- No two keys are equivalent, so that each insertion adds a node, a handle is found
exactly as long as its timer is pending, and a deletion takes out that timer and no
other, which never fires afterwards. -/
theorem handles_identify_timers (run : (machine Obj Task clock).Run) (regular : run.Meets Regular) {i : ℕ}
    (hi : i ≤ run.length) :
    let s := run.state i
    s.created.Pairwise (fun a b => a.2.lt b.2 = true ∨ b.2.lt a.2 = true) ∧
    (∀ o tick msec callback, let added := addTimer s o tick msec callback
      (added.2.map o).Perm (s.newNode tick msec callback :: s.map o) ∧
        added.2.created = s.created ++ [(o, added.1)]) ∧
    ∀ o k, ¬ BeingFired s o k →
      ((delTimer s o k).1 = true ↔
        (o, k) ∈ s.created ∧ ¬ HasFired s o k ∧ (o, k) ∉ s.deleted) ∧
      ((delTimer s o k).1 = true →
        (∀ p n, n ∈ (delTimer s o k).2.map p ↔ n ∈ s.map p ∧ ¬ (p = o ∧ sliced n = k)) ∧
        (delTimer s o k).2.gid = s.gid ∧ (delTimer s o k).2.firing = s.firing ∧
        (delTimer s o k).2.fired = s.fired ∧
        ∀ j, i < j → j ≤ run.length → run.label i = .delTimer o k → ¬ HasFired (run.state j) o k) ∧
      ((delTimer s o k).1 = false → (delTimer s o k).2 = s) := by
  intro s
  have h : Inv s := reachBy_inv (run.reachBy regular hi)
  refine ⟨?_, ?_, ?_⟩
  · refine h.ids.imp fun {a b} older => ?_
    rw [TimerNodeBase.lt_iff, TimerNodeBase.lt_iff]
    omega
  · intro o tick msec callback
    have unused := h.unused tick msec callback
    refine ⟨?_, rfl⟩
    change ((s.setMap o _).map o).Perm _
    rw [setMap_self]
    exact perm_insert comparator fun m hm => unused _ (h.created o m hm)
  · intro o k idle
    have found := h.find_iff idle
    rw [← delTimer_true] at found
    refine ⟨found, fun deleted => ⟨fun p n => mem_delTimer (h.sorted o), ?_⟩, fun missing => ?_⟩
    · have present := deleted
      rw [delTimer_true] at present
      obtain ⟨it, hit⟩ := Option.isSome_iff_exists.mp present
      have after : (delTimer s o k).2 = { s.setMap o
          (erase TimerNodeBase.lt sliced (sliced it) (s.map o)) with
          deleted := s.deleted ++ [(o, sliced it)] } := by
        simp only [delTimer, hit]
      rw [after]
      refine ⟨rfl, rfl, rfl, fun j hij hj called fired => ?_⟩
      -- the deletion is on record from the next state on
      have step : next s (run.label i) = some (run.state (i + 1)) := run.step i (by omega)
      rw [called] at step
      have next : run.state (i + 1) = (delTimer s o k).2 := (Option.some.inj step).symm
      have kept : (run.state (i + 1)).deleted ⊆ (run.state j).deleted :=
        run.monotone (R := fun a b => a.deleted ⊆ b.deleted) (fun _ => List.Subset.refl _)
          (fun _ _ _ => List.Subset.trans) (fun _ _ _ hs => next_deleted hs) hij hj
      have now := (reachBy_inv (run.reachBy regular hj)).apart o k
      rw [next, after, (find_eq_some comparator hit).2] at kept
      exact now (kept (List.mem_append_right _ (List.mem_singleton_self _))) fired
    · unfold delTimer at missing ⊢
      split at missing
      · cases missing
      · rfl

end Steps

/-- Two objects with one timer each, of which the first is deleted. -/
def oneDeleted : List (Label (Fin 2) Unit) :=
  [.addTimer 0 5 10 (), .addTimer 1 5 10 (), .delTimer 0 ⟨15, 1⟩]

def deletedRun : (machine (Fin 2) Unit 0).Run := .ofSchedule _ .callbackReturns oneDeleted rfl

theorem handles_identify_timers_deleted :
    (delTimer (deletedRun.state 2) 0 ⟨15, 1⟩).1 = true ∧ ¬ HasFired (deletedRun.state 3) 0 ⟨15, 1⟩ := by
  have none : ∀ o k, ¬ BeingFired (deletedRun.state 2) o k := by
    rintro o k ⟨n, hn, -⟩
    cases hn
  have regular : deletedRun.Meets Regular := by
    intro i hi
    match i, hi with
    | 0, _ | 1, _ => trivial
    | 2, _ => exact none _ _
  have deleted : (delTimer (deletedRun.state 2) 0 ⟨15, 1⟩).1 = true := rfl
  obtain ⟨-, -, lookup⟩ := handles_identify_timers deletedRun regular (show 2 ≤ 3 by decide)
  obtain ⟨-, -, -, -, never⟩ := (lookup 0 ⟨15, 1⟩ (none _ _)).2.1 deleted
  exact ⟨deleted, never 3 (by decide) (by decide) rfl⟩

end Timers
