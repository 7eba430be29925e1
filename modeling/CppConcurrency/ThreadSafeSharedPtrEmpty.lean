import CppConcurrency.ThreadSafeSharedPtrTallies

/-!
# Counters behind null handles of a `ThreadSafeShared_ptr`

A counter made with an object counts the handles that hold it. One made without an object
counts nothing: its null handles raise it when they are copied, lower it when they are
assigned over and leave it alone when they are destroyed. It starts at 0 or at 1, and is
deleted when it is lowered from 1, whoever still refers to it. Such counters are safe as
long as no null handle is used whose counter is gone, and no counter is left behind by
the last handle that refers to it.
-/

namespace ThreadSafeSharedPtr

open Machines Threads

universe u

variable {H : Type u}

/-- Some other handle refers to the same counter. -/
def Shared (s : State H Unit) (h : H) (count : Option ℕ) : Prop :=
  ∃ x, x ≠ h ∧ ∃ k ∈ s.handle x, k.count = count

/-- A null handle that is copied, counted or assigned from still has its counter, and one that
is assigned over or destroyed does not leave as the last one a counter that stays alive. -/
def Careful (s : State H Unit) : Operation H → Prop
  | .op (.copy _ src) | .useCount src => ∀ k ∈ s.handle src, k.ptr = none → value s k.count ≠ none
  | .op (.assign h src) => ∀ k ∈ s.handle h, ∀ l ∈ s.handle src, k.ptr.isSome ≠ l.ptr.isSome →
      (l.ptr = none → value s l.count ≠ none) ∧
        (k.ptr = none → value s k.count = some 1 ∨ value s k.count ≠ none ∧ Shared s h k.count)
  | .op (.destroy h) => ∀ k ∈ s.handle h, k.ptr = none →
      value s k.count = none ∨ Shared s h k.count
  | _ => True

section

variable [Fintype H] [DecidableEq H] (s : State H Unit)

instance (h : H) (count : Option ℕ) : Decidable (Shared s h count) :=
  inferInstanceAs (Decidable (∃ x, x ≠ h ∧ ∃ k ∈ s.handle x, k.count = count))

instance : (op : Operation H) → Decidable (Careful s op)
  | .op (.copy _ src) | .useCount src =>
    inferInstanceAs (Decidable (∀ k ∈ s.handle src, k.ptr = none → value s k.count ≠ none))
  | .op (.assign h src) => inferInstanceAs (Decidable (∀ k ∈ s.handle h, ∀ l ∈ s.handle src,
      k.ptr.isSome ≠ l.ptr.isSome → (l.ptr = none → value s l.count ≠ none) ∧
        (k.ptr = none → value s k.count = some 1 ∨ value s k.count ≠ none ∧ Shared s h k.count)))
  | .op (.destroy h) => inferInstanceAs (Decidable (∀ k ∈ s.handle h, k.ptr = none →
      value s k.count = none ∨ Shared s h k.count))
  | .op (.construct _ _) | .op (.constructNull _ _) | .op (.move _ _) | .op (.swap _ _)
  | .constructFromNull _ _ => inferInstanceAs (Decidable True)

end

/-- The life of counter `c`. A deleted one may still be referred to, by null handles. -/
inductive Standing [Fintype H] (s : State H Unit) (c : ℕ) : Prop where
  | unused (counter : s.counter c = .unused) (holders : holders s c = 0)
      (deletes : s.countDeletes c = [])
  | object (counter : s.counter c = .live (holders s c)) (object : s.object c = .live ())
      (positive : 0 < holders s c) (alike : Alike s.handle c (some c)) (deletes : s.countDeletes c = [])
  | null (n : ℤ) (counter : s.counter c = .live n) (positive : 0 < holders s c)
      (alike : Alike s.handle c none) (deletes : s.countDeletes c = [])
  | gone (counter : s.counter c = .deleted) (alike : Alike s.handle c none)
      (deletes : s.countDeletes c = [()])

structure Orderly [Fintype H] (s : State H Unit) : Prop where
  rest : s.call () = .rest
  sound : ∀ x k o, s.handle x = some k → k.ptr = some o → k.count = some o
  standing : ∀ c, Standing s c

section Standing

variable [Fintype H] {s s' : State H Unit} {c : ℕ} {h src : H} {k : Handle} {new : Option Handle}

/-- A counter whose blocks and holders stay. -/
theorem Standing.frame (standing : Standing s c) (counter : s'.counter c = s.counter c)
    (object : s'.object c = s.object c) (deletes : s'.countDeletes c = s.countDeletes c)
    (same : holders s' c = holders s c)
    (old : ∀ x k, s'.handle x = some k → k.count = some c → ∃ y, s.handle y = some k) :
    Standing s' c := by
  have alike : ∀ p, Alike s.handle c p → Alike s'.handle c p := by
    intro p alike x k hk count
    obtain ⟨y, hy⟩ := old x k hk count
    exact alike y k hy count
  cases standing with
  | unused hc hn hd => exact .unused (counter.trans hc) (same.trans hn) (deletes.trans hd)
  | object hc ho hn ha hd =>
    exact .object (by rw [counter, hc, same]) (object.trans ho) (same ▸ hn) (alike _ ha)
      (deletes.trans hd)
  | null n hc hn ha hd => exact .null n (counter.trans hc) (same ▸ hn) (alike _ ha) (deletes.trans hd)
  | gone hc ha hd => exact .gone (counter.trans hc) (alike _ ha) (deletes.trans hd)

/-- A live counter counts the handles of its object, or its handles are null. -/
theorem Standing.of_live {n : ℤ} (standing : Standing s c) (live : s.counter c = .live n) :
    s.countDeletes c = [] ∧ (n = holders s c ∧ s.object c = .live () ∧ Alike s.handle c (some c) ∨
      Alike s.handle c none) := by
  cases standing with
  | unused hc | gone hc =>
    rw [hc] at live
    cases live
  | object hc ho _ ha hd =>
    rw [hc] at live
    exact ⟨hd, Or.inl ⟨(Block.live.inj live).symm, ho, ha⟩⟩
  | null m _ _ ha hd => exact ⟨hd, Or.inr ha⟩

variable [DecidableEq H]

/-- A handle becomes one more copy of a handle that refers to the counter. -/
theorem Standing.gain {n : ℤ} (standing : Standing s c) (source : s.handle src = some k)
    (count : k.count = some c) (live : s.counter c = .live n)
    (handle : s'.handle = Function.update s.handle h (some k))
    (off : carries c (s.handle h) = false) (counter : s'.counter c = .live (n + 1))
    (object : s'.object c = s.object c) (deletes : s'.countDeletes c = s.countDeletes c) :
    Standing s' c := by
  have more := holders_update (c := c) handle
  rw [off, carries_iff.mpr ⟨k, rfl, count⟩] at more
  change holders s' c + 0 = holders s c + 1 at more
  have alike : ∀ p, Alike s.handle c p → Alike s'.handle c p := by
    intro p alike
    rw [handle]
    refine alike.update fun k' same _ => ?_
    obtain rfl := Option.some.inj same
    exact alike src k source count
  obtain ⟨hd, ⟨rfl, ho, ha⟩ | ha⟩ := standing.of_live live
  · refine .object ?_ (object.trans ho) (by omega) (alike _ ha) (deletes.trans hd)
    rw [counter]
    congr 1
    omega
  · exact .null (n + 1) counter (by omega) (alike _ ha) (deletes.trans hd)

/-- Others still refer to the counter when a handle goes. -/
theorem Shared.positive (shared : Shared s h (some c))
    (handle : s'.handle = Function.update s.handle h new) : 0 < holders s' c := by
  obtain ⟨x, other, k, hk, count⟩ := shared
  refine holders_pos (h := x) (k := k) ?_ count
  rw [handle, Function.update_of_ne other]
  exact hk

/-- A handle lowers its counter and goes. -/
theorem Standing.lower {n : ℤ} (standing : Standing s c) (held : s.handle h = some k)
    (count : k.count = some c) (live : s.counter c = .live n) (more : n ≠ 1)
    (shared : k.ptr = none → Shared s h (some c))
    (handle : s'.handle = Function.update s.handle h new) (off : carries c new = false)
    (counter : s'.counter c = .live (n - 1)) (object : s'.object c = s.object c)
    (deletes : s'.countDeletes c = s.countDeletes c) : Standing s' c := by
  have fewer := holders_update (c := c) handle
  rw [off, carries_iff.mpr ⟨k, held, count⟩] at fewer
  change holders s' c + 1 = holders s c + 0 at fewer
  obtain ⟨hd, ⟨rfl, ho, ha⟩ | ha⟩ := standing.of_live live
  · refine .object ?_ (object.trans ho) (by omega) (ha.leave handle off) (deletes.trans hd)
    rw [counter]
    congr 1
    omega
  · exact .null (n - 1) counter ((shared (ha h k held count)).positive handle)
      (ha.leave handle off) (deletes.trans hd)

/-- A handle finds its counter at 1 and deletes it. -/
theorem Standing.delete (standing : Standing s c) (held : s.handle h = some k)
    (count : k.count = some c) (live : s.counter c = .live 1)
    (handle : s'.handle = Function.update s.handle h new) (off : carries c new = false)
    (counter : s'.counter c = .deleted) (deletes : s'.countDeletes c = s.countDeletes c ++ [()]) :
    Standing s' c := by
  have fewer := holders_update (c := c) handle
  rw [off, carries_iff.mpr ⟨k, held, count⟩] at fewer
  change holders s' c + 1 = holders s c + 0 at fewer
  obtain ⟨hd, ⟨one, -, -⟩ | ha⟩ := standing.of_live live
  · exact .gone counter (alike_of_none (by omega)) (by rw [deletes, hd]; rfl)
  · exact .gone counter (ha.leave handle off) (by rw [deletes, hd]; rfl)

end Standing

section Steps

variable [Fintype H] [DecidableEq H] {s s' : State H Unit} {h src : H} {k l : Handle}

omit [DecidableEq H] in
theorem Orderly.tallied (orderly : Orderly s) : Tallied s where
  rest := orderly.rest
  sound x k hk o ho := orderly.sound x k o hk ho
  tally c := by
    cases orderly.standing c with
    | unused hc hn => exact .unused hc hn
    | object hc ho _ ha => exact .object hc ho ha
    | null n hc _ ha => exact .null (by simp [hc]) ha
    | gone hc ha => exact .null (by simp [hc]) ha

/-- One handle is given, replaced or taken away. -/
theorem Orderly.put (orderly : Orderly s) {new : Option Handle} (rest : s'.call () = .rest)
    (handle : s'.handle = Function.update s.handle h new)
    (sound : ∀ k o, new = some k → k.ptr = some o → k.count = some o)
    (untouched : ∀ c, carries c (s.handle h) = false → carries c new = false →
      s'.counter c = s.counter c ∧ s'.object c = s.object c ∧ s'.countDeletes c = s.countDeletes c)
    (touched : ∀ c, carries c (s.handle h) = true ∨ carries c new = true → Standing s' c) :
    Orderly s' where
  rest := rest
  sound x k o hk ho := by
    rw [handle] at hk
    by_cases here : x = h
    · subst here
      rw [Function.update_self] at hk
      exact sound k o hk ho
    · rw [Function.update_of_ne here] at hk
      exact orderly.sound x k o hk ho
  standing c := by
    cases old : carries c (s.handle h) with
    | true => exact touched c (Or.inl old)
    | false =>
      cases off : carries c new with
      | true => exact touched c (Or.inr off)
      | false =>
        obtain ⟨counter, object, deletes⟩ := untouched c old off
        obtain ⟨same, held⟩ := holders_put handle old off
        exact (orderly.standing c).frame counter object deletes same held

/-- Two handles are given values that refer to the same counters. -/
theorem Orderly.exchange (orderly : Orderly s) (different : h ≠ src)
    (old : ∀ m, m = k ∨ m = l → m = ⟨none, none⟩ ∨ ∃ y, s.handle y = some m)
    (balanced : ∀ c, (carries c (some k)).toNat + (carries c (some l)).toNat =
      (carries c (s.handle h)).toNat + (carries c (s.handle src)).toNat) :
    Orderly ((s.setHandle h (some k)).setHandle src (some l)) := by
  refine ⟨orderly.rest, fun x m o hm ho => ?_, fun c => ?_⟩
  · rcases exists_of_exchange old x m hm with rfl | ⟨y, hy⟩
    · cases ho
    · exact orderly.sound y m o hy ho
  · have same := census_update_two (carries c) s.handle different (some k) (some l) (balanced c)
    refine (orderly.standing c).frame rfl rfl rfl same fun x m hm count => ?_
    rcases exists_of_exchange old x m hm with rfl | found
    · cases count
    · exact found

/-- The counter that a handle drops, once the handle is replaced by one on another. -/
theorem Orderly.dropped {s₁ : State H Unit} {c : ℕ} {new : Option Handle} (orderly : Orderly s)
    (held : s.handle h = some k) (count : k.count = some c) (dropped : drop s k = some s₁)
    (kept : k.ptr = none → value s k.count = some 1 ∨ Shared s h k.count)
    (handle : s'.handle = Function.update s.handle h new) (off : carries c new = false)
    (counter : s'.counter c = s₁.counter c) (object : s'.object c = s₁.object c)
    (deletes : s'.countDeletes c = s₁.countDeletes c) : Standing s' c := by
  obtain ⟨c', n, hk, hc, cases⟩ := drop_cases dropped
  rw [count] at hk
  obtain rfl := Option.some.inj hk
  have standing := orderly.standing c
  obtain ⟨more, rfl⟩ | ⟨rfl, -, rfl⟩ | ⟨rfl, o, v, -, -, rfl⟩ := cases
  · refine standing.lower held count hc more (fun null => ?_) handle off
      (counter.trans (Function.update_self ..)) object deletes
    rcases kept null with one | shared
    · rw [count, value, Option.bind_some, hc] at one
      exact absurd (Option.some.inj one) more
    · exact count ▸ shared
  · exact standing.delete held count hc handle off (counter.trans (Function.update_self ..))
      (deletes.trans (Function.update_self ..))
  · exact standing.delete held count hc handle off (counter.trans (Function.update_self ..))
      (deletes.trans (Function.update_self ..))

theorem Orderly.construct {o : ℕ} {n : ℤ} {p : Option ℕ} (orderly : Orderly s)
    (free : s.handle h = none) (unused : s.counter o = .unused) (rest : s'.call () = .rest)
    (handle : s'.handle = Function.update s.handle h (some ⟨some o, p⟩))
    (pointer : p = none ∨ p = some o ∧ n = 1 ∧ s'.object o = .live ())
    (counter : s'.counter = Function.update s.counter o (.live n))
    (objects : ∀ c, c ≠ o → s'.object c = s.object c) (deletes : s'.countDeletes = s.countDeletes) :
    Orderly s' := by
  have nobody : holders s o = 0 ∧ s.countDeletes o = [] := by
    cases orderly.standing o with
    | unused _ none deletes => exact ⟨none, deletes⟩
    | object hc | null _ hc | gone hc =>
      rw [unused] at hc
      cases hc
  have one := holders_update (c := o) handle
  rw [free, carries_iff.mpr ⟨⟨some o, p⟩, rfl, rfl⟩, nobody.1] at one
  change holders s' o + 0 = 0 + 1 at one
  refine orderly.put rest handle ?_ ?_ ?_
  · intro k q same hq
    obtain rfl := Option.some.inj same
    rcases pointer with rfl | ⟨rfl, -⟩
    · cases hq
    · exact hq
  · intro c _ off
    have other : c ≠ o := ne_of_not_carries off rfl
    exact ⟨by rw [counter, Function.update_of_ne other], objects c other, by rw [deletes]⟩
  · intro c carried
    rw [free] at carried
    obtain rfl : c = o := by
      rcases carried with wrong | carried
      · cases wrong
      · exact (Option.some.inj (carries_some.mp carried)).symm
    have live : s'.counter c = .live n := by rw [counter, Function.update_self]
    have alike : Alike s'.handle c p := by
      rw [handle]
      refine (alike_of_none nobody.1).update fun k same _ => ?_
      rw [← Option.some.inj same]
    have kept : s'.countDeletes c = [] := by rw [deletes, nobody.2]
    rcases pointer with rfl | ⟨rfl, rfl, object⟩
    · exact .null n live (by omega) alike kept
    · refine .object ?_ object (by omega) alike kept
      rw [live]
      congr 1
      omega

theorem Orderly.copy (orderly : Orderly s) (free : s.handle h = none) (held : s.handle src = some k)
    {s₁ : State H Unit} (added : fetchAdd s k.count = some s₁) : Orderly (s₁.setHandle h (some k)) := by
  obtain ⟨d, m, count, live, rfl⟩ := fetchAdd_cases added
  refine orderly.put (h := h) orderly.rest rfl ?_ ?_ ?_
  · intro l o same ho
    obtain rfl := Option.some.inj same
    exact orderly.sound src k o held ho
  · intro c _ off
    have other := ne_of_not_carries off count
    exact ⟨Function.update_of_ne other _ _, rfl, rfl⟩
  · intro c carried
    rw [free] at carried
    obtain rfl : d = c := by
      rcases carried with wrong | carried
      · cases wrong
      · exact Option.some.inj (count.symm.trans (carries_some.mp carried))
    refine (orderly.standing d).gain held count live rfl ?_ (Function.update_self ..) rfl rfl
    rw [free]
    rfl

theorem Orderly.destroy (orderly : Orderly s) {o : ℕ} (held : s.handle h = some k)
    (object : k.ptr = some o) {s₁ : State H Unit} (dropped : drop s k = some s₁) :
    Orderly (s₁.setHandle h none) := by
  have notNull : k.ptr = none → value s k.count = some 1 ∨ Shared s h k.count := by
    intro null
    rw [object] at null
    cases null
  obtain ⟨handles, calls⟩ := drop_frame dropped
  have handle : (s₁.setHandle h none).handle = Function.update s.handle h none := by
    rw [← handles]
    rfl
  refine orderly.put ((congrFun calls ()).trans orderly.rest) handle ?_ ?_ ?_
  · intro l p wrong
    cases wrong
  · intro c off _
    rw [held] at off
    obtain ⟨counter, object, deletes⟩ := drop_untouched dropped (fun o => orderly.sound h k o held) off
    exact ⟨counter, object, deletes⟩
  · intro c carried
    rw [held] at carried
    have count := carries_some.mp (carried.resolve_right Bool.false_ne_true)
    exact orderly.dropped held count dropped notNull handle rfl rfl rfl rfl

/-- A null handle goes and leaves its counter to others, or leaves it deleted. -/
theorem Orderly.destroy_null (orderly : Orderly s) (held : s.handle h = some k) (null : k.ptr = none)
    (kept : value s k.count = none ∨ Shared s h k.count) : Orderly (s.setHandle h none) := by
  have handle : (s.setHandle h none).handle = Function.update s.handle h none := rfl
  refine orderly.put orderly.rest handle ?_ (fun _ _ _ => ⟨rfl, rfl, rfl⟩) ?_
  · intro l p wrong
    cases wrong
  · intro c carried
    rw [held] at carried
    have count := carries_some.mp (carried.resolve_right Bool.false_ne_true)
    have alike : ∀ p, Alike s.handle c p → Alike (s.setHandle h none).handle c p := fun p alike =>
      alike.update fun _ wrong => by cases wrong
    have present := holders_pos held count
    cases orderly.standing c with
    | unused _ nobody => omega
    | object _ _ _ same =>
      have wrong := same h k held count
      rw [null] at wrong
      cases wrong
    | null n live _ same deletes =>
      rw [count, value, Option.bind_some, live] at kept
      have shared := kept.resolve_left (by simp [Block.value])
      exact .null n live (shared.positive handle) (alike _ same) deletes
    | gone counter same deletes => exact .gone counter (alike _ same) deletes

theorem Orderly.assign (orderly : Orderly s) (held : s.handle h = some k)
    (heldSrc : s.handle src = some l) (differ : k.ptr.isSome ≠ l.ptr.isSome)
    (kept : k.ptr = none → value s k.count = some 1 ∨ Shared s h k.count)
    {s₁ s₂ : State H Unit} (dropped : drop s k = some s₁)
    (added : fetchAdd s₁ l.count = some s₂) : Orderly (s₂.setHandle h (some l)) := by
  obtain ⟨rest, handle, untouched, lowered, raised⟩ :=
    orderly.tallied.assign_blocks held heldSrc differ dropped added rfl
  rw [← held] at untouched raised
  refine orderly.put rest handle ?_ untouched ?_
  · intro l' o same ho
    obtain rfl := Option.some.inj same
    exact orderly.sound src l o heldSrc ho
  · intro c carried
    rw [held] at carried
    rcases carried with carried | carried
    · have count := carries_some.mp carried
      obtain ⟨off, counter, object, deletes⟩ := lowered c count
      exact orderly.dropped held count dropped kept handle off counter object deletes
    · have count := carries_some.mp carried
      obtain ⟨off, m, live, counter, object, deletes⟩ := raised c count
      exact (orderly.standing c).gain heldSrc count live handle off counter object deletes

omit [DecidableEq H] in
/-- Only a null handle can miss its counter. -/
theorem Orderly.looked (orderly : Orderly s) (held : s.handle h = some k)
    (null : k.ptr = none → value s k.count ≠ none) : value s k.count ≠ none := by
  cases hp : k.ptr with
  | none => exact null hp
  | some o => exact orderly.tallied.value_ne_none held hp

omit [DecidableEq H] in
/-- A careful operation finds the counters it looks at. -/
theorem Orderly.finds {op : Operation H} (orderly : Orderly s) (careful : Careful s op) :
    ¬ Misses s op := by
  intro misses
  cases op with
  | useCount h =>
    obtain ⟨k, hk, gone⟩ := misses
    exact orderly.looked hk (careful k hk) gone
  | constructFromNull => exact misses
  | op op =>
    cases op with
    | copy h src =>
      obtain ⟨k, hk, gone⟩ := misses
      exact orderly.looked hk (careful k hk) gone
    | assign h src =>
      obtain ⟨k, l, hk, hl, differ, gone⟩ := misses
      obtain ⟨nullSrc, null⟩ := careful k hk l hl differ
      rcases gone with gone | gone
      · refine orderly.looked hk (fun hp => ?_) gone
        rcases null hp with one | ⟨live, -⟩
        · rw [one]
          exact Option.some_ne_none _
        · exact live
      · exact orderly.looked hl nullSrc gone
    | construct | constructNull | move | destroy | swap => exact misses

theorem Orderly.next {op : Operation H} (orderly : Orderly s) (careful : Careful s op)
    (hs : operate s op = some s') : Orderly s' := by
  cases orderly.tallied.effect hs with
  | missing undefined misses => exact absurd misses (orderly.finds careful)
  | nothing => exact orderly
  | construct free unused rest handle pointer counter objects deletes =>
    exact orderly.construct free unused rest handle pointer counter objects deletes
  | copy free held added => exact orderly.copy free held added
  | exchange different old balanced => exact orderly.exchange different old balanced
  | destroyNull held null => exact orderly.destroy_null held null (careful _ held null)
  | destroy held object dropped => exact orderly.destroy held object dropped
  | assign held heldSrc differ dropped added =>
    obtain ⟨-, null⟩ := careful _ held _ heldSrc differ
    exact orderly.assign held heldSrc differ (fun hp => (null hp).imp_right And.right) dropped added

theorem start_orderly : Orderly (sequence H).start where
  rest := rfl
  sound _ _ _ wrong := by cases wrong
  standing c := .unused rfl ((census_eq_zero (carries c)).mpr fun _ => rfl) rfl

theorem reachBy_orderly (reached : (sequence H).ReachBy Careful s) : Orderly s :=
  reached.invariant _ start_orderly fun _ _ _ orderly careful hs => orderly.next careful hs

end Steps

end ThreadSafeSharedPtr
