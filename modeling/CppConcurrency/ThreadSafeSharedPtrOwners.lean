import CppConcurrency.ThreadSafeSharedPtr

/-!
# The counter of a `ThreadSafeShared_ptr` is the number of its owners

A handle owns an object from the `fetch_add` of its construction to the `fetch_sub` of
its destruction, and moves and swaps only pass owners around. So the counter is the
number of handles that hold the object, the `fetch_sub` that returns 1 is the one of the
last owner, and nobody is left to reach what its thread then deletes. A copy cannot come
too late, since the handle it copies from owns the object until the copy has returned.
-/

namespace ThreadSafeSharedPtr

open Machines Threads

universe u v

variable {H : Type u} {Tid : Type v}

/-- The handle holds object `o`. -/
def holds (o : ℕ) : Option Handle → Bool
  | some k => k.ptr = some o
  | none => false

/-- How many handles hold object `o`. -/
def owners [Fintype H] (s : State H Tid) (o : ℕ) : ℕ := census (holds o) s.handle

/-- No default construction, and copies and assignments between non-null handles only. -/
def Proper (s : State H Tid) : Label H Tid → Prop
  | .invoke _ (.constructNull _ _) => False
  | .invoke _ (.copy _ src) => ∀ k ∈ s.handle src, k.ptr ≠ none
  | .invoke _ (.assign h src) =>
    (∀ k ∈ s.handle h, k.ptr ≠ none) ∧ ∀ k ∈ s.handle src, k.ptr ≠ none
  | _ => True

instance (s : State H Tid) : (l : Label H Tid) → Decidable (Proper s l)
  | .invoke _ (.constructNull _ _) => inferInstanceAs (Decidable False)
  | .invoke _ (.copy _ src) => inferInstanceAs (Decidable (∀ k ∈ s.handle src, k.ptr ≠ none))
  | .invoke _ (.assign h src) => inferInstanceAs
      (Decidable ((∀ k ∈ s.handle h, k.ptr ≠ none) ∧ ∀ k ∈ s.handle src, k.ptr ≠ none))
  | .invoke _ (.construct _ _) | .invoke _ (.move _ _) | .invoke _ (.destroy _)
  | .invoke _ (.swap _ _) | .step _ => inferInstanceAs (Decidable True)

/-- A handle on object `o`. -/
def on (o : ℕ) : Option Handle := some ⟨some o, some o⟩

/-- What a running call of thread `t` may rely on. -/
def Fact (s : State H Tid) (t : Tid) : Call H → Prop
  | .rest => True
  | .copyCount h src => s.handle h = none ∧ ∃ o, s.handle src = on o
  | .copyPtr h src count => s.handle h = none ∧ ∃ o, s.handle src = on o ∧ count = some o
  | .copyAdd h src count ptr =>
    s.handle h = none ∧ ∃ o, s.handle src = on o ∧ count = some o ∧ ptr = some o
  | .destroySub h => ∃ o, s.handle h = on o
  | .deleteCount h count ptr => s.handle h = none ∧ ∃ o, count = some o ∧ ptr = some o ∧
    s.dropped o = [t] ∧ s.countDeletes o = [] ∧ s.objectDeletes o = []
  | .deletePtr h ptr => s.handle h = none ∧ ∃ o, ptr = some o ∧
    s.dropped o = [t] ∧ s.countDeletes o = [t] ∧ s.objectDeletes o = []
  | .assignTest h src => (∃ o, s.handle h = on o) ∧ ∃ o, s.handle src = on o
  | _ => False

/-- The life of counter and object `o`: a thread `t` that drops it deletes the one and
then the other. -/
inductive Status [Fintype H] (s : State H Tid) (o : ℕ) : Prop where
  | unused (counter : s.counter o = .unused) (object : s.object o = .unused)
      (owners : owners s o = 0) (dropped : s.dropped o = []) (countDeletes : s.countDeletes o = [])
      (objectDeletes : s.objectDeletes o = [])
  | held (counter : s.counter o = .live (owners s o)) (object : s.object o = .live ())
      (owners : 0 < owners s o) (dropped : s.dropped o = []) (countDeletes : s.countDeletes o = [])
      (objectDeletes : s.objectDeletes o = [])
  | counting (t : Tid) (h : H) (call : s.call t = .deleteCount h (some o) (some o))
      (counter : s.counter o = .live 0) (object : s.object o = .live ())
      (owners : owners s o = 0) (dropped : s.dropped o = [t]) (countDeletes : s.countDeletes o = [])
      (objectDeletes : s.objectDeletes o = [])
  | freeing (t : Tid) (h : H) (call : s.call t = .deletePtr h (some o))
      (counter : s.counter o = .deleted) (object : s.object o = .live ())
      (owners : owners s o = 0) (dropped : s.dropped o = [t])
      (countDeletes : s.countDeletes o = [t]) (objectDeletes : s.objectDeletes o = [])
  | gone (t : Tid) (counter : s.counter o = .deleted) (object : s.object o = .deleted)
      (owners : owners s o = 0) (dropped : s.dropped o = [t])
      (countDeletes : s.countDeletes o = [t]) (objectDeletes : s.objectDeletes o = [t])

structure Inv [Fintype H] (s : State H Tid) : Prop where
  handles : ∀ h k, s.handle h = some k → k.count = k.ptr
  facts : ∀ t, Fact s t (s.call t)
  apart : Separated Call.footprint s.call
  status : ∀ o, Status s o

section Frames

variable {s s' : State H Tid} {t u : Tid} {c : Call H}

@[simp] theorem holds_on {o p : ℕ} : holds o (on p) = decide (p = o) := by
  simp [holds, on]

@[simp] theorem holds_null {o : ℕ} : holds o (some ⟨none, none⟩) = false := rfl

@[simp] theorem holds_none {o : ℕ} : holds o none = false := rfl

/-- A call's facts are about the handles it uses and about what its thread dropped. -/
theorem Fact.frame (fact : Fact s u c)
    (handle : ∀ x, x ∈ c.footprint.writes ∨ x ∈ c.footprint.reads → s'.handle x = s.handle x)
    (history : ∀ o, s.dropped o = [u] → s'.dropped o = s.dropped o ∧
      s'.countDeletes o = s.countDeletes o ∧ s'.objectDeletes o = s.objectDeletes o) :
    Fact s' u c := by
  have write : ∀ x, c.footprint.writes = [x] → s'.handle x = s.handle x := fun x only =>
    handle x (Or.inl (only ▸ List.mem_singleton_self x))
  have read : ∀ x, c.footprint.reads = [x] → s'.handle x = s.handle x := fun x only =>
    handle x (Or.inr (only ▸ List.mem_singleton_self x))
  cases c with
  | rest => trivial
  | copyCount h src => simpa only [Fact, write h rfl, read src rfl] using fact
  | copyPtr h src count => simpa only [Fact, write h rfl, read src rfl] using fact
  | copyAdd h src count ptr => simpa only [Fact, write h rfl, read src rfl] using fact
  | assignTest h src => simpa only [Fact, write h rfl, read src rfl] using fact
  | destroySub h => simpa only [Fact, write h rfl] using fact
  | deleteCount h count ptr =>
    obtain ⟨free, o, hc, hp, dropped, counts, objects⟩ := fact
    obtain ⟨sameD, sameC, sameO⟩ := history o dropped
    exact ⟨(write h rfl).trans free, o, hc, hp, sameD.trans dropped, sameC.trans counts,
      sameO.trans objects⟩
  | deletePtr h ptr =>
    obtain ⟨free, o, hp, dropped, counts, objects⟩ := fact
    obtain ⟨sameD, sameC, sameO⟩ := history o dropped
    exact ⟨(write h rfl).trans free, o, hp, sameD.trans dropped, sameC.trans counts,
      sameO.trans objects⟩
  | _ => exact fact

/-- The other threads rely on nothing that a step changes inside its own footprint. -/
theorem Inv.facts_after [Fintype H] (h : Inv s) [DecidableEq Tid]
    (calls : s'.call = Function.update s.call t c) (mine : Fact s' t c) {f : Footprint H}
    (apart : ∀ u, u ≠ t → f.Apart (s.call u).footprint)
    (handle : ∀ x, x ∉ f.writes → s'.handle x = s.handle x)
    (history : ∀ u, u ≠ t → ∀ o, s.dropped o = [u] → s'.dropped o = s.dropped o ∧
      s'.countDeletes o = s.countDeletes o ∧ s'.objectDeletes o = s.objectDeletes o) :
    ∀ u, Fact s' u (s'.call u) := by
  intro u
  rw [calls]
  by_cases here : u = t
  · subst here
    rw [Function.update_self]
    exact mine
  · rw [Function.update_of_ne here]
    refine (h.facts u).frame (fun x used => handle x fun mine => ?_) (history u here)
    obtain ⟨offWrites, offReads⟩ := (apart u here).1 x mine
    exact used.elim offWrites offReads

variable [Fintype H]

/-- An object whose blocks, owners and history stay, and whose deleting call stays. -/
theorem Status.frame {o : ℕ} (status : Status s o) (counter : s'.counter o = s.counter o)
    (object : s'.object o = s.object o) (same : owners s' o = owners s o)
    (dropped : s'.dropped o = s.dropped o) (counts : s'.countDeletes o = s.countDeletes o)
    (objects : s'.objectDeletes o = s.objectDeletes o)
    (calls : ∀ u x, s.call u = .deleteCount x (some o) (some o) ∨ s.call u = .deletePtr x (some o) →
      s'.call u = s.call u) : Status s' o := by
  cases status with
  | unused hc ho hn hd hcd hod =>
    exact .unused (counter.trans hc) (object.trans ho) (same.trans hn) (dropped.trans hd)
      (counts.trans hcd) (objects.trans hod)
  | held hc ho hn hd hcd hod =>
    exact .held (by rw [counter, hc, same]) (object.trans ho) (same ▸ hn) (dropped.trans hd)
      (counts.trans hcd) (objects.trans hod)
  | counting u x call hc ho hn hd hcd hod =>
    exact .counting u x ((calls u x (Or.inl call)).trans call) (counter.trans hc) (object.trans ho)
      (same.trans hn) (dropped.trans hd) (counts.trans hcd) (objects.trans hod)
  | freeing u x call hc ho hn hd hcd hod =>
    exact .freeing u x ((calls u x (Or.inr call)).trans call) (counter.trans hc) (object.trans ho)
      (same.trans hn) (dropped.trans hd) (counts.trans hcd) (objects.trans hod)
  | gone u hc ho hn hd hcd hod =>
    exact .gone u (counter.trans hc) (object.trans ho) (same.trans hn) (dropped.trans hd)
      (counts.trans hcd) (objects.trans hod)

variable [DecidableEq H]

theorem owners_setHandle (s : State H Tid) (x : H) (k : Option Handle) (o : ℕ) :
    owners (s.setHandle x k) o + (holds o (s.handle x)).toNat =
      owners s o + (holds o k).toNat :=
  census_update (holds o) s.handle x k

omit [DecidableEq H] in
/-- An object that a handle holds is alive and counts it. -/
theorem Inv.held (h : Inv s) {x : H} {o : ℕ} (hx : s.handle x = on o) :
    s.counter o = .live (owners s o) ∧ s.object o = .live () ∧ 0 < owners s o ∧
      s.dropped o = [] ∧ s.countDeletes o = [] ∧ s.objectDeletes o = [] := by
  have some : 0 < owners s o := by
    refine census_pos (holds o) (t := x) ?_
    rw [hx]
    simp
  cases h.status o with
  | held hc ho hn hd hcd hod => exact ⟨hc, ho, hn, hd, hcd, hod⟩
  | unused _ _ none | counting _ _ _ _ _ none | freeing _ _ _ _ _ none | gone _ _ _ none => omega

end Frames

/-! ### Steps -/

section Steps

variable [Fintype H] [DecidableEq H] [DecidableEq Tid] {s s' : State H Tid} {t : Tid} {c : Call H}

omit [Fintype H] in
theorem sound_update {handle : H → Option Handle} {x : H} {new : Option Handle}
    (old : ∀ y k, handle y = some k → k.count = k.ptr) (sound : ∀ k, new = some k → k.count = k.ptr)
    (y : H) (k : Handle) (hk : Function.update handle x new y = some k) : k.count = k.ptr := by
  by_cases here : y = x
  · subst here
    rw [Function.update_self] at hk
    exact sound k hk
  · rw [Function.update_of_ne here] at hk
    exact old y k hk

/-- The call is about to delete one of the blocks. -/
def Call.deletes : Call H → Bool
  | .deleteCount _ _ _ | .deletePtr _ _ => true
  | _ => false

omit [Fintype H] [DecidableEq H] [DecidableEq Tid] in
theorem other_object {u : Tid} {o p : ℕ} (dropped : s.dropped o = [t]) (other : u ≠ t)
    (droppedP : s.dropped p = [u]) : p ≠ o := by
  rintro rfl
  rw [dropped] at droppedP
  exact other (List.singleton_inj.mp droppedP).symm

omit [Fintype H] [DecidableEq H] in
/-- A step of a call that does not delete leaves the deleting calls where they are. -/
theorem deleting_stays (keeps : (s.call t).deletes = false) {o : ℕ} (u : Tid) (x : H)
    (deleting : s.call u = .deleteCount x (some o) (some o) ∨ s.call u = .deletePtr x (some o)) :
    Function.update s.call t c u = s.call u := by
  have other : u ≠ t := by
    rintro rfl
    rcases deleting with hd | hd <;> rw [hd] at keeps <;> cases keeps
  exact Function.update_of_ne other _ _

omit [DecidableEq H] [DecidableEq Tid] in
theorem Inv.apart_of (h : Inv s) (hc : s.call t = c) (u : Tid) (other : u ≠ t) :
    c.footprint.Apart (s.call u).footprint :=
  hc ▸ h.apart t u (Ne.symm other)

omit [DecidableEq H] in
/-- A step that moves the call only. -/
theorem Inv.setCall (h : Inv s) (keeps : (s.call t).deletes = false) (fact : Fact s t c)
    (apart : ∀ u, u ≠ t → c.footprint.Apart (s.call u).footprint) : Inv (s.setCall t c) where
  handles := h.handles
  facts := h.facts_after rfl fact apart (fun _ _ => rfl) fun _ _ _ _ => ⟨rfl, rfl, rfl⟩
  apart := h.apart.update apart
  status o := (h.status o).frame rfl rfl rfl rfl rfl rfl fun u x => deleting_stays keeps u x

omit [DecidableEq H] in
/-- A call that passes handles around and leaves every object its owners. -/
theorem Inv.rearrange (h : Inv s) (rest : s.call t = .rest) {foot : Footprint H}
    (apart : ∀ u, u ≠ t → foot.Apart (s.call u).footprint) {handle : H → Option Handle}
    (outside : ∀ x, x ∉ foot.writes → handle x = s.handle x)
    (handles : ∀ x k, handle x = some k → k.count = k.ptr)
    (same : ∀ o, census (holds o) handle = owners s o) : Inv { s with handle := handle } where
  handles := handles
  facts := by
    refine h.facts_after (c := .rest) (t := t) ?_ trivial apart outside fun _ _ _ _ => ⟨rfl, rfl, rfl⟩
    rw [← rest]
    exact (Function.update_eq_self t s.call).symm
  apart := h.apart
  status o := (h.status o).frame rfl rfl (same o) rfl rfl rfl fun _ _ _ => rfl

/-- Two handles that are given new values which hold the same objects. -/
theorem Inv.exchange (h : Inv s) (rest : s.call t = .rest) {x y : H} (different : x ≠ y)
    (apart : ∀ u, u ≠ t → (⟨[x, y], []⟩ : Footprint H).Apart (s.call u).footprint) {k l : Handle}
    (soundK : k.count = k.ptr) (soundL : l.count = l.ptr)
    (balanced : ∀ o, (holds o (some k)).toNat + (holds o (some l)).toNat =
      (holds o (s.handle x)).toNat + (holds o (s.handle y)).toNat) :
    Inv ((s.setHandle x (some k)).setHandle y (some l)) := by
  refine h.rearrange rest apart (fun z off => ?_) (sound_update (sound_update h.handles ?_) ?_)
    fun o => census_update_two (holds o) s.handle different _ _ (balanced o)
  · have notX : z ≠ x := fun same => off (same ▸ List.mem_cons_self)
    have notY : z ≠ y := fun same => off (same ▸ List.mem_cons_of_mem _ List.mem_cons_self)
    exact (Function.update_of_ne notY _ _).trans (Function.update_of_ne notX _ _)
  · intro k' hk
    obtain rfl := Option.some.inj hk
    exact soundK
  · intro l' hl
    obtain rfl := Option.some.inj hl
    exact soundL

theorem Inv.construct (h : Inv s) (rest : s.call t = .rest) {x : H} {o : ℕ}
    (free : s.handle x = none) (hc : s.counter o = .unused)
    (apart : ∀ u, u ≠ t → (⟨[x], []⟩ : Footprint H).Apart (s.call u).footprint) :
    Inv { s.setHandle x (on o) with
      counter := Function.update s.counter o (.live 1)
      object := Function.update s.object o (.live ()) } := by
  have count : ∀ p, owners (s.setHandle x (on o)) p = owners s p + (decide (o = p)).toNat := by
    intro p
    have := owners_setHandle s x (on o) p
    rw [free, holds_none, holds_on] at this
    exact this
  refine {
    handles := sound_update h.handles fun k hk => by rw [← Option.some.inj hk]
    facts := ?facts
    apart := h.apart
    status := fun p => ?status }
  case facts =>
    refine h.facts_after (c := .rest) (t := t) ?_ trivial apart ?_ fun _ _ _ _ => ⟨rfl, rfl, rfl⟩
    · rw [← rest]
      exact (Function.update_eq_self t s.call).symm
    · intro y off
      exact Function.update_of_ne (fun same => off (List.mem_singleton.mpr same)) _ _
  case status =>
    by_cases here : p = o
    · subst here
      have added := count p
      cases h.status p with
      | unused _ _ none hd hcd hod =>
        rw [none] at added
        simp only [decide_true, Bool.toNat_true, Nat.zero_add] at added
        refine .held ?_ (Function.update_self ..) ?_ hd hcd hod
        · change Function.update s.counter p (.live 1) p =
            .live (owners (s.setHandle x (on p)) p)
          rw [added, Function.update_self]
          rfl
        · change 0 < owners (s.setHandle x (on p)) p
          omega
      | held live | counting _ _ _ live | freeing _ _ _ live | gone _ live =>
        rw [hc] at live
        cases live
    · have other : o ≠ p := Ne.symm here
      refine (h.status p).frame (Function.update_of_ne here _ _) (Function.update_of_ne here _ _)
        ?_ rfl rfl rfl fun _ _ _ => rfl
      refine (count p).trans ?_
      simp [other]

/-- The copy constructor's `fetch_add`: the source owns the object, so its counter is alive. -/
theorem Inv.copyAdd (h : Inv s) {x src : H} {o : ℕ}
    (hc : s.call t = .copyAdd x src (some o) (some o)) (free : s.handle x = none)
    (held : s.handle src = on o) :
    ∃ s₁, fetchAdd s (some o) = some s₁ ∧ Inv ((s₁.setHandle x (on o)).setCall t .rest) := by
  obtain ⟨live, object, positive, hd, hcd, hod⟩ := h.held held
  have count : ∀ p, owners (s.setHandle x (on o)) p = owners s p + (decide (o = p)).toNat := by
    intro p
    have := owners_setHandle s x (on o) p
    rw [free, holds_none, holds_on] at this
    exact this
  have keeps : (s.call t).deletes = false := by rw [hc]; rfl
  refine ⟨{ s with counter := Function.update s.counter o (.live (owners s o + 1)) },
    by simp only [fetchAdd, live], {
      handles := sound_update h.handles fun k hk => by rw [← Option.some.inj hk]
      facts := ?facts
      apart := h.apart.update fun u _ => Footprint.apart_of_empty _
      status := fun p => ?status }⟩
  case facts =>
    refine h.facts_after (c := .rest) (t := t) rfl trivial (f := ⟨[x], [src]⟩)
      (h.apart_of hc) ?_ fun _ _ _ _ => ⟨rfl, rfl, rfl⟩
    · intro y off
      exact Function.update_of_ne (fun same => off (List.mem_singleton.mpr same)) _ _
  case status =>
    by_cases here : p = o
    · subst here
      have added := count p
      simp only [decide_true, Bool.toNat_true] at added
      refine .held ?_ object ?_ hd hcd hod
      · change Function.update s.counter p (.live (owners s p + 1)) p =
          .live (owners (s.setHandle x (on p)) p)
        rw [added, Function.update_self]
        rfl
      · change 0 < owners (s.setHandle x (on p)) p
        omega
    · have other : o ≠ p := Ne.symm here
      refine (h.status p).frame (Function.update_of_ne here _ _) rfl ?_ rfl rfl rfl
        fun u y => deleting_stays keeps u y
      refine (count p).trans ?_
      simp [other]

/-- The destructor's `fetch_sub` returns 1 to the last owner. -/
theorem Inv.destroySub (h : Inv s) {x : H} {o : ℕ} (hc : s.call t = .destroySub x)
    (held : s.handle x = on o) :
    ∃ last s₁, fetchSub s t (some o) = some (last, s₁) ∧
      Inv ((s₁.setHandle x none).setCall t
        (if last then .deleteCount x (some o) (some o) else .rest)) := by
  obtain ⟨live, object, positive, hd, hcd, hod⟩ := h.held held
  have count : ∀ p, owners (s.setHandle x none) p + (decide (o = p)).toNat = owners s p := by
    intro p
    have := owners_setHandle s x none p
    rw [held, holds_none, holds_on] at this
    exact this
  have keeps : (s.call t).deletes = false := by rw [hc]; rfl
  have apart : ∀ u, u ≠ t → (⟨[x], []⟩ : Footprint H).Apart (s.call u).footprint := h.apart_of hc
  have offX : ∀ y, y ∉ [x] → Function.update s.handle x none y = s.handle y := fun y off =>
    Function.update_of_ne (fun same => off (List.mem_singleton.mpr same)) _ _
  have notMine : ∀ {u p}, u ≠ t → s.dropped p = [u] → p ≠ o := by
    rintro u p other dropped rfl
    rw [hd] at dropped
    cases dropped
  have mine := count o
  simp only [decide_true, Bool.toNat_true] at mine
  by_cases one : owners s o = 1
  · -- the last owner
    have last : ((owners s o : ℕ) : ℤ) = 1 := by rw [one]; rfl
    refine ⟨true, { s with
      counter := Function.update s.counter o (.live 0)
      dropped := Function.update s.dropped o [t] }, by simp [fetchSub, live, last, hd], {
        handles := sound_update h.handles fun k hk => by cases hk
        facts := ?facts
        apart := h.apart.update apart
        status := fun p => ?status }⟩
    case facts =>
      refine h.facts_after (f := ⟨[x], []⟩) rfl ?_ apart offX ?_
      · exact ⟨Function.update_self .., o, rfl, rfl, Function.update_self .., hcd, hod⟩
      · intro u other p dropped
        exact ⟨Function.update_of_ne (notMine other dropped) _ _, rfl, rfl⟩
    case status =>
      by_cases here : p = o
      · subst here
        refine .counting t x (Function.update_self ..) (Function.update_self ..) object ?_
          (Function.update_self ..) hcd hod
        change owners (s.setHandle x none) p = 0
        omega
      · have other : o ≠ p := Ne.symm here
        refine (h.status p).frame (Function.update_of_ne here _ _) rfl ?_
          (Function.update_of_ne here _ _) rfl rfl fun u y => deleting_stays keeps u y
        change owners (s.setHandle x none) p = owners s p
        simpa [other] using count p
  · -- other owners stay
    have more : ((owners s o : ℕ) : ℤ) ≠ 1 := by exact_mod_cast one
    refine ⟨false, { s with counter := Function.update s.counter o (.live (owners s o - 1)) },
      by simp [fetchSub, live, more], {
        handles := sound_update h.handles fun k hk => by cases hk
        facts := h.facts_after rfl trivial apart offX fun _ _ _ _ => ⟨rfl, rfl, rfl⟩
        apart := h.apart.update fun u _ => Footprint.apart_of_empty _
        status := fun p => ?status }⟩
    case status =>
      by_cases here : p = o
      · subst here
        refine .held ?_ object ?_ hd hcd hod
        · change Function.update s.counter p (.live (owners s p - 1)) p =
            .live (owners (s.setHandle x none) p)
          rw [Function.update_self, ← mine]
          congr 1
          push_cast
          omega
        · change 0 < owners (s.setHandle x none) p
          omega
      · have other : o ≠ p := Ne.symm here
        refine (h.status p).frame (Function.update_of_ne here _ _) rfl ?_ rfl rfl rfl
          fun u y => deleting_stays keeps u y
        change owners (s.setHandle x none) p = owners s p
        simpa [other] using count p

omit [DecidableEq H] in
/-- `delete count` falls to the thread that dropped the object, once. -/
theorem Inv.deleteCount (h : Inv s) {x : H} {o : ℕ}
    (hc : s.call t = .deleteCount x (some o) (some o)) :
    ∃ s₁, deleteCounter s t (some o) = some s₁ ∧ Inv (s₁.setCall t (.deletePtr x (some o))) := by
  have fact := h.facts t
  rw [hc] at fact
  obtain ⟨free, _, same, -, dropped, counts, objects⟩ := fact
  obtain rfl := Option.some.inj same
  have apart : ∀ u, u ≠ t → (⟨[x], []⟩ : Footprint H).Apart (s.call u).footprint := h.apart_of hc
  obtain ⟨counter, object, none⟩ : s.counter o = .live 0 ∧ s.object o = .live () ∧ owners s o = 0 := by
    cases h.status o with
    | counting _ _ _ hc ho hn => exact ⟨hc, ho, hn⟩
    | unused _ _ _ hd | held _ _ _ hd =>
      rw [dropped] at hd
      cases hd
    | freeing _ _ _ _ _ _ _ hcd | gone _ _ _ _ _ hcd =>
      rw [counts] at hcd
      cases hcd
  refine ⟨{ s with
    counter := Function.update s.counter o .deleted
    countDeletes := Function.update s.countDeletes o [t] }, by simp [deleteCounter, counter, counts], {
      handles := h.handles
      facts := ?facts
      apart := h.apart.update apart
      status := fun p => ?status }⟩
  case facts =>
    refine h.facts_after (f := ⟨[x], []⟩) rfl ?_ apart (fun _ _ => rfl) ?_
    · exact ⟨free, o, rfl, dropped, Function.update_self .., objects⟩
    · intro u other p droppedP
      exact ⟨rfl, Function.update_of_ne (other_object dropped other droppedP) _ _, rfl⟩
  case status =>
    by_cases here : p = o
    · subst here
      exact .freeing t x (Function.update_self ..) (Function.update_self ..) object none dropped
        (Function.update_self ..) objects
    · refine (h.status p).frame (Function.update_of_ne here _ _) rfl rfl rfl
        (Function.update_of_ne here _ _) rfl fun u y deleting => ?_
      have other : u ≠ t := by
        rintro rfl
        rw [hc] at deleting
        rcases deleting with wrong | wrong
        · cases wrong
          exact here rfl
        · cases wrong
      exact Function.update_of_ne other _ _

omit [DecidableEq H] in
/-- So does `delete ptr`, after it. -/
theorem Inv.deletePtr (h : Inv s) {x : H} {o : ℕ} (hc : s.call t = .deletePtr x (some o)) :
    ∃ s₁, deleteObject s t (some o) = some s₁ ∧ Inv (s₁.setCall t .rest) := by
  have fact := h.facts t
  rw [hc] at fact
  obtain ⟨-, _, same, dropped, counts, objects⟩ := fact
  obtain rfl := Option.some.inj same
  obtain ⟨counter, object, none⟩ : s.counter o = .deleted ∧ s.object o = .live () ∧
      owners s o = 0 := by
    cases h.status o with
    | freeing _ _ _ hc ho hn => exact ⟨hc, ho, hn⟩
    | unused _ _ _ hd | held _ _ _ hd =>
      rw [dropped] at hd
      cases hd
    | counting _ _ _ _ _ _ _ hcd =>
      rw [counts] at hcd
      cases hcd
    | gone _ _ _ _ _ _ hod =>
      rw [objects] at hod
      cases hod
  refine ⟨{ s with
    object := Function.update s.object o .deleted
    objectDeletes := Function.update s.objectDeletes o [t] },
    by simp [deleteObject, object, objects], {
      handles := h.handles
      facts := ?facts
      apart := h.apart.update fun u _ => Footprint.apart_of_empty _
      status := fun p => ?status }⟩
  case facts =>
    refine h.facts_after (f := ⟨[], []⟩) rfl trivial (fun _ _ => Footprint.apart_of_empty _)
      (fun _ _ => rfl) ?_
    intro u other p droppedP
    exact ⟨rfl, rfl, Function.update_of_ne (other_object dropped other droppedP) _ _⟩
  case status =>
    by_cases here : p = o
    · subst here
      exact .gone t counter (Function.update_self ..) none dropped counts (Function.update_self ..)
    · refine (h.status p).frame rfl (Function.update_of_ne here _ _) rfl rfl rfl
        (Function.update_of_ne here _ _) fun u y deleting => ?_
      have other : u ≠ t := by
        rintro rfl
        rw [hc] at deleting
        rcases deleting with wrong | wrong
        · cases wrong
        · cases wrong
          exact here rfl
      exact Function.update_of_ne other _ _

/-- The calls that are done at once, and the first step of the others. -/
theorem Inv.invoke (h : Inv s) (rest : s.call t = .rest) {op : Op H}
    (apart : ∀ u, u ≠ t → op.footprint.Apart (s.call u).footprint)
    (proper : Proper s (.invoke t op)) (hs : invoke s t op = some s') : Inv s' := by
  have keeps : (s.call t).deletes = false := by rw [rest]; rfl
  have nonNull : ∀ {x k}, s.handle x = some k → k.ptr ≠ none → ∃ o, s.handle x = on o := by
    intro x k hx pointing
    obtain ⟨o, ho⟩ := Option.ne_none_iff_exists'.mp pointing
    have same := h.handles x k hx
    obtain ⟨count, ptr⟩ := k
    obtain rfl : ptr = some o := ho
    obtain rfl : count = some o := same
    exact ⟨o, hx⟩
  cases op with
  | construct x o =>
    simp only [ThreadSafeSharedPtr.invoke] at hs
    split at hs
    · rename_i free counter object
      obtain rfl := Option.some.inj hs
      exact h.construct rest free counter apart
    · cases hs
  | constructNull x o => exact proper.elim
  | copy x src =>
    simp only [ThreadSafeSharedPtr.invoke] at hs
    split at hs
    · rename_i k free exists'
      obtain rfl := Option.some.inj hs
      exact h.setCall keeps ⟨free, nonNull exists' (proper k exists')⟩ apart
    · cases hs
  | move x src =>
    simp only [ThreadSafeSharedPtr.invoke] at hs
    split at hs
    · rename_i k free existsSrc
      obtain rfl := Option.some.inj hs
      have different : x ≠ src := by
        rintro rfl
        rw [free] at existsSrc
        cases existsSrc
      refine h.exchange rest different apart (h.handles src k existsSrc) rfl fun o => ?_
      rw [free, existsSrc, holds_null, holds_none]
      exact Nat.add_comm _ _
    · cases hs
  | destroy x =>
    simp only [ThreadSafeSharedPtr.invoke] at hs
    split at hs
    · rename_i count exists'
      obtain rfl := Option.some.inj hs
      have only : ∀ o, owners (s.setHandle x none) o = owners s o := by
        intro o
        have := owners_setHandle s x none o
        rw [exists'] at this
        simpa [holds] using this
      refine h.rearrange rest apart (fun y off => ?_) (sound_update h.handles fun k hk => ?_) only
      · exact Function.update_of_ne (fun same => off (List.mem_singleton.mpr same)) _ _
      · cases hk
    · rename_i count o exists'
      obtain rfl := Option.some.inj hs
      exact h.setCall keeps (nonNull exists' (Option.some_ne_none o)) apart
    · cases hs
  | assign x src =>
    simp only [ThreadSafeSharedPtr.invoke] at hs
    split at hs
    · rename_i k l existsX existsSrc
      obtain rfl := Option.some.inj hs
      exact h.setCall keeps ⟨nonNull existsX (proper.1 k existsX),
        nonNull existsSrc (proper.2 l existsSrc)⟩ apart
    · cases hs
  | swap x src =>
    simp only [ThreadSafeSharedPtr.invoke] at hs
    split at hs
    · rename_i k l existsX existsSrc
      obtain rfl := Option.some.inj hs
      by_cases same : x = src
      · -- a swap of a handle with itself
        subst same
        obtain rfl : l = k := Option.some.inj (existsSrc.symm.trans existsX)
        have unchanged : (s.setHandle x (some l)).setHandle x (some l) = s := by
          simp only [State.setHandle, Function.update_idem]
          rw [← existsX, Function.update_eq_self]
        rw [unchanged]
        exact h
      · refine h.exchange rest same apart (h.handles src l existsSrc) (h.handles x k existsX)
          fun o => ?_
        rw [existsX, existsSrc]
        exact Nat.add_comm _ _
    · cases hs

/-- The next step of a running call is defined. -/
theorem Inv.perform (h : Inv s) (busy : s.call t ≠ .rest) :
    ∃ s₁, perform s t (s.call t) = some s₁ ∧ Inv s₁ := by
  have fact := h.facts t
  cases hc : s.call t with
  | rest => exact absurd hc busy
  | copyCount x src =>
    rw [hc] at fact
    obtain ⟨free, o, held⟩ := fact
    refine ⟨s.setCall t (.copyPtr x src (some o)), ?_, ?_⟩
    · simp only [ThreadSafeSharedPtr.perform, held, on, Option.map_some]
    · exact h.setCall (by rw [hc]; rfl) ⟨free, o, held, rfl⟩ fun u other => h.apart_of hc u other
  | copyPtr x src count =>
    rw [hc] at fact
    obtain ⟨free, o, held, rfl⟩ := fact
    refine ⟨s.setCall t (.copyAdd x src (some o) (some o)), ?_, ?_⟩
    · simp only [ThreadSafeSharedPtr.perform, held, on, Option.map_some]
    · exact h.setCall (by rw [hc]; rfl) ⟨free, o, held, rfl, rfl⟩ fun u other => h.apart_of hc u other
  | copyAdd x src count ptr =>
    rw [hc] at fact
    obtain ⟨free, o, held, rfl, rfl⟩ := fact
    obtain ⟨s₁, added, after⟩ := h.copyAdd hc free held
    exact ⟨_, by rw [ThreadSafeSharedPtr.perform, added]; rfl, after⟩
  | destroySub x =>
    rw [hc] at fact
    obtain ⟨o, held⟩ := fact
    obtain ⟨last, s₁, dropped, after⟩ := h.destroySub hc held
    refine ⟨_, ?_, after⟩
    rw [ThreadSafeSharedPtr.perform, held, on, Option.bind_some, dropped]
    rfl
  | deleteCount x count ptr =>
    rw [hc] at fact
    obtain ⟨-, o, rfl, rfl, -⟩ := fact
    obtain ⟨s₁, deleted, after⟩ := h.deleteCount hc
    exact ⟨_, by rw [ThreadSafeSharedPtr.perform, deleted]; rfl, after⟩
  | deletePtr x ptr =>
    rw [hc] at fact
    obtain ⟨-, o, rfl, -⟩ := fact
    obtain ⟨s₁, deleted, after⟩ := h.deletePtr hc
    exact ⟨_, by rw [ThreadSafeSharedPtr.perform, deleted]; rfl, after⟩
  | assignTest x src =>
    rw [hc] at fact
    obtain ⟨⟨o, held⟩, p, held'⟩ := fact
    refine ⟨s.setCall t .rest, ?_, ?_⟩
    · simp only [ThreadSafeSharedPtr.perform, held, held', on, Option.bind_some, Option.map_some,
        Option.isSome_some, if_true]
    · exact h.setCall (by rw [hc]; rfl) trivial fun _ _ => Footprint.apart_of_empty _
  | _ =>
    rw [hc] at fact
    exact fact.elim

theorem Inv.next [Fintype Tid] (h : Inv s) {l : Label H Tid} (proper : Proper s l)
    (hs : next s l = some s') : Inv s' := by
  cases l with
  | invoke t op =>
    simp only [ThreadSafeSharedPtr.next] at hs
    split at hs
    · rename_i may
      have rest : s.call t = .rest := by
        have := may.1
        cases hc : s.call t with
        | rest => rfl
        | _ => rw [hc] at this; cases this
      exact h.invoke rest may.2 proper hs
    · cases hs
  | step t =>
    simp only [ThreadSafeSharedPtr.next] at hs
    split at hs
    · cases hs
    · cases hs
    · rename_i busy _
      obtain ⟨s₁, performed, after⟩ := h.perform busy
      rw [performed, Option.getD_some] at hs
      exact Option.some.inj hs ▸ after

end Steps

section Runs

variable [Fintype H] [DecidableEq H] [Fintype Tid] [DecidableEq Tid] {s : State H Tid}

theorem start_inv : Inv (machine H Tid).start where
  handles _ _ wrong := by cases wrong
  facts _ := trivial
  apart _ _ _ := Footprint.apart_of_empty _
  status o := .unused rfl rfl ((census_eq_zero (holds o)).mpr fun _ => rfl) rfl rfl rfl

theorem reachBy_inv (reached : (machine H Tid).ReachBy Proper s) : Inv s :=
  reached.invariant _ start_inv fun _ _ _ h proper hs => h.next proper hs

/-- Counters count the handles that hold their object, and these handles find both blocks
alive. The `fetch_sub` that returns 1 is made once, when no handle is left, and its
thread makes both deletions, once each. No call touches a deleted block. -/
theorem owners_are_counted (reached : (machine H Tid).ReachBy Proper s) :
    (∀ o n, s.counter o = .live n → n = owners s o) ∧
    (∀ h k o, s.handle h = some k → k.ptr = some o →
      k.count = some o ∧ s.counter o = .live (owners s o) ∧ s.object o = .live ()) ∧
    (∀ o, s.counter o ≠ .unused →
      (s.dropped o = [] ∧ (∃ h, holds o (s.handle h) = true) ∧ s.countDeletes o = [] ∧
        s.objectDeletes o = []) ∨
      ∃ t, s.dropped o = [t] ∧ (∀ h, holds o (s.handle h) = false) ∧
        ((∃ h, s.call t = .deleteCount h (some o) (some o) ∧ s.countDeletes o = [] ∧
            s.objectDeletes o = []) ∨
          (∃ h, s.call t = .deletePtr h (some o) ∧ s.countDeletes o = [t] ∧
            s.objectDeletes o = []) ∨
          s.countDeletes o = [t] ∧ s.objectDeletes o = [t])) ∧
    ∀ t, s.call t ≠ .undefined := by
  have inv := reachBy_inv reached
  refine ⟨?_, ?_, ?_, ?_⟩
  · intro o n live
    cases inv.status o with
    | unused hc | freeing _ _ _ hc | gone _ hc =>
      rw [hc] at live
      cases live
    | held hc =>
      rw [hc] at live
      exact (Block.live.inj live).symm
    | counting _ _ _ hc _ none =>
      rw [hc] at live
      rw [none]
      exact (Block.live.inj live).symm
  · intro h k o hk ho
    have sound := (inv.handles h k hk).trans ho
    have held : s.handle h = on o := by
      rw [hk, on]
      exact congrArg some (by cases k; simp_all)
    obtain ⟨live, object, -⟩ := inv.held held
    exact ⟨sound, live, object⟩
  · intro o managed
    cases inv.status o with
    | unused hc => exact absurd hc managed
    | held _ _ some dropped counts objects =>
      refine Or.inl ⟨dropped, ?_, counts, objects⟩
      by_contra nobody
      have none : owners s o = 0 := (census_eq_zero (holds o)).mpr fun h =>
        Bool.eq_false_iff.mpr fun holding => nobody ⟨h, holding⟩
      exact absurd none (Nat.ne_of_gt some)
    | counting t h hc _ _ none dropped counts objects =>
      exact Or.inr ⟨t, dropped, (census_eq_zero (holds o)).mp none,
        Or.inl ⟨h, hc, counts, objects⟩⟩
    | freeing t h hc _ _ none dropped counts objects =>
      exact Or.inr ⟨t, dropped, (census_eq_zero (holds o)).mp none,
        Or.inr (Or.inl ⟨h, hc, counts, objects⟩)⟩
    | gone t _ _ none dropped counts objects =>
      exact Or.inr ⟨t, dropped, (census_eq_zero (holds o)).mp none,
        Or.inr (Or.inr ⟨counts, objects⟩)⟩
  · intro t wrong
    have fact := inv.facts t
    rw [wrong] at fact
    exact fact

end Runs

/-- Both threads run a copy from handle 0, and then three destructors drop the object. -/
def shareAndDrop : List (Label (Fin 3) (Fin 2)) :=
  [.invoke 0 (.construct 0 0), .invoke 1 (.copy 1 0), .invoke 0 (.copy 2 0), .step 0, .step 1,
    .step 0, .step 1, .step 1, .step 0, .invoke 0 (.destroy 0), .invoke 1 (.destroy 1), .step 1,
    .step 0, .invoke 0 (.destroy 2), .step 0, .step 0, .step 0]

def sharedRun : (machine (Fin 3) (Fin 2)).Run :=
  .ofSchedule _ (.step 0) shareAndDrop (by decide)

theorem owners_are_counted_shared : (sharedRun.state 17).dropped 0 = [0] ∧
    (sharedRun.state 17).countDeletes 0 = [0] ∧ (sharedRun.state 17).objectDeletes 0 = [0] := by
  have proper : ∀ i, i < 17 → Proper (sharedRun.state i) (sharedRun.label i) := by decide
  obtain ⟨-, -, ends, -⟩ := owners_are_counted (sharedRun.reachBy proper (Nat.le_refl 17))
  have deleted : (sharedRun.state 17).counter 0 = .deleted := rfl
  have resting : (sharedRun.state 17).call 0 = .rest := rfl
  have last : (sharedRun.state 17).dropped 0 = [0] := rfl
  have managed : (sharedRun.state 17).counter 0 ≠ .unused := by
    intro wrong
    rw [deleted] at wrong
    cases wrong
  rcases ends 0 managed with
    ⟨none, -⟩ | ⟨t, dropped, -, ⟨_, call, -⟩ | ⟨_, call, -⟩ | ⟨counts, objects⟩⟩
  · rw [last] at none
    cases none
  · obtain rfl : 0 = t := List.singleton_inj.mp (last.symm.trans dropped)
    rw [resting] at call
    cases call
  · obtain rfl : 0 = t := List.singleton_inj.mp (last.symm.trans dropped)
    rw [resting] at call
    cases call
  · obtain rfl : 0 = t := List.singleton_inj.mp (last.symm.trans dropped)
    exact ⟨last, counts, objects⟩

end ThreadSafeSharedPtr
