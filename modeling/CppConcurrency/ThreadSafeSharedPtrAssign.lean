import CppConcurrency.ThreadSafeSharedPtrTallies

/-!
# What an assignment between two `ThreadSafeShared_ptr`s does

`operator=` returns early when `*this == other`. The class has no `operator==`, so this
compares the two handles as booleans. The early return is right for handles that are equal
already. Between handles of two objects, or two null handles, it leaves the assignment
undone. Where the handles compare unequal the assignment goes through, provided that the
null one of them still has its counter.
-/

namespace ThreadSafeSharedPtr

open Machines Threads

universe u

variable {H : Type u}

/-- The two handles share an object. -/
def Handle.Shares (k l : Handle) : Prop := k.ptr = l.ptr ∧ k.ptr ≠ none

/-- No other handle holds object `o`. -/
def LastOwner (s : State H Unit) (h : H) (o : ℕ) : Prop :=
  ∀ x, x ≠ h → ∀ m ∈ s.handle x, m.ptr ≠ some o

/-- The assignment of `l`, held by some other handle, to `h`, which held `k`, from `s` to `s'`. -/
structure Assigned (s s' : State H Unit) (h : H) (k l : Handle) : Prop where
  returns : s'.call () = .rest
  designates : s'.handle h = some l
  others : ∀ x, x ≠ h → s'.handle x = s.handle x
  releases : ¬ k.Shares l → ∀ o, k.ptr = some o → ∃ n, s.counter o = .live n ∧
    (LastOwner s h o ∧ n = 1 ∧ s'.counter o = .deleted ∧ s'.object o = .deleted ∨
      ¬ LastOwner s h o ∧ s'.counter o = .live (n - 1) ∧ s'.object o = .live ())
  gains : ¬ k.Shares l → ∀ o, l.ptr = some o → ∃ n, s.counter o = .live n ∧
    s'.counter o = .live (n + 1) ∧ s'.object o = .live ()
  keeps : k.Shares l → s'.handle = s.handle ∧ s'.counter = s.counter ∧ s'.object = s.object

/-- The handles are equal already, or one of them is null and both counters are there. -/
def Assignable (s : State H Unit) (k l : Handle) : Prop :=
  k = l ∨ k.ptr.isSome ≠ l.ptr.isSome ∧ value s k.count ≠ none ∧ value s l.count ≠ none

instance (s : State H Unit) (k l : Handle) : Decidable (Assignable s k l) :=
  inferInstanceAs (Decidable (_ ∨ _))

section Assign

variable [Fintype H] [DecidableEq H] {s s' s₁ s₂ : State H Unit} {h src : H} {k l : Handle}

theorem Tallied.lastOwner_iff (tallied : Tallied s) {o : ℕ} (held : s.handle h = some k)
    (object : k.ptr = some o) : LastOwner s h o ↔ holders s o = 1 := by
  have count := tallied.sound h k held o object
  obtain ⟨-, -, alike⟩ := tallied.object held object
  have others : holders (s.setHandle h none) o + (carries o (s.handle h)).toNat =
      holders s o + (carries o none).toNat := holders_update rfl
  rw [held, carries_some.mpr count] at others
  change holders (s.setHandle h none) o + 1 = holders s o at others
  have nobody : holders s o = 1 ↔ ∀ x, carries o ((s.setHandle h none).handle x) = false := by
    rw [← census_eq_zero (carries o)]
    change _ ↔ holders (s.setHandle h none) o = 0
    omega
  rw [nobody]
  constructor
  · intro last x
    rw [Bool.eq_false_iff]
    intro carried
    obtain ⟨m, hm, carrying⟩ := carries_iff.mp carried
    by_cases here : x = h
    · subst here
      simp [State.setHandle] at hm
    · change Function.update s.handle h none x = some m at hm
      rw [Function.update_of_ne here] at hm
      exact last x here m hm (alike x m hm carrying)
  · intro none x other m hm pointer
    have there := none x
    simp only [State.setHandle] at there
    rw [Function.update_of_ne other, hm, carries_some.mpr (tallied.sound x m hm o pointer)] at there
    cases there

omit [Fintype H] [DecidableEq H] in
/-- The early return, which changes nothing. -/
theorem assigned_self (rest : s.call () = .rest) (held : s.handle h = some k) :
    Assigned s s h k l ↔ k = l := by
  constructor
  · intro assigned
    exact Option.some.inj (held.symm.trans assigned.designates)
  · rintro rfl
    refine ⟨rest, held, fun _ _ => rfl, ?_, ?_, fun _ => ⟨rfl, rfl, rfl⟩⟩
    · intro apart o object
      exact absurd ⟨rfl, by simp [object]⟩ apart
    · intro apart o object
      exact absurd ⟨rfl, by simp [object]⟩ apart

theorem Tallied.assigned (tallied : Tallied s) (held : s.handle h = some k)
    (heldSrc : s.handle src = some l) (differ : k.ptr.isSome ≠ l.ptr.isSome)
    (dropped : drop s k = some s₁) (added : fetchAdd s₁ l.count = some s₂) :
    Assigned s (s₂.setHandle h (some l)) h k l := by
  obtain ⟨rest, handle, -, lowered, raised⟩ :=
    tallied.assign_blocks held heldSrc differ dropped added rfl
  refine ⟨rest, ?_, ?_, fun _ o object => ?_, fun _ o object => ?_, ?_⟩
  · rw [handle, Function.update_self]
  · intro x other
    rw [handle, Function.update_of_ne other]
  · have count := tallied.sound h k held o object
    obtain ⟨-, counter', object', -⟩ := lowered o count
    obtain ⟨counter, live, -⟩ := tallied.object held object
    refine ⟨holders s o, counter, ?_⟩
    rw [tallied.lastOwner_iff held object, counter', object']
    obtain ⟨c, n, hk, hc, cases⟩ := drop_cases dropped
    obtain rfl := Option.some.inj (hk.symm.trans count)
    obtain rfl := Block.live.inj (hc.symm.trans counter)
    obtain ⟨more, rfl⟩ | ⟨-, null, -⟩ | ⟨one, p, v, hp, -, rfl⟩ := cases
    · exact Or.inr ⟨by omega, Function.update_self .., live⟩
    · rw [object] at null
      cases null
    · obtain rfl := Option.some.inj (hp.symm.trans object)
      exact Or.inl ⟨by omega, one, Function.update_self .., Function.update_self ..⟩
  · obtain ⟨-, m, live, counter, same, -⟩ := raised o (tallied.sound src l heldSrc o object)
    exact ⟨m, live, counter, same.trans (tallied.object heldSrc object).2.1⟩
  · rintro ⟨shared, -⟩
    exact absurd (by rw [shared]) differ

end Assign

/-- An assignment does what it should exactly when the handles are equal already, or one of
them is null and the other is not and no assignment has deleted the counter of the null one. -/
theorem assigned_iff [Fintype H] [DecidableEq H] {s : State H Unit} {h src : H} {k l : Handle}
    (reached : (sequence H).Reach s) (rest : s.call () = .rest) (held : s.handle h = some k)
    (heldSrc : s.handle src = some l) : ∃ s', (sequence H).next s (.op (.assign h src)) = some s' ∧
      (Assigned s s' h k l ↔ Assignable s k l) := by
  have tallied := reach_tallied reached rest
  by_cases same : k.ptr.isSome = l.ptr.isSome
  · refine ⟨s, operate_assign_same rest held heldSrc same, (assigned_self rest held).trans ?_⟩
    exact ⟨Or.inl, fun assignable => assignable.resolve_right fun differ => differ.1 same⟩
  · have unequal : k ≠ l := fun equal => same (by rw [equal])
    have hs := operate_assign_differ rest held heldSrc same
    refine ⟨_, hs, ?_⟩
    rcases tallied.assign_cases held heldSrc same hs with
      ⟨gone, undefined⟩ | ⟨found, s₁, s₂, dropped, added, after⟩
    · apply iff_of_false
      · intro assigned
        rw [assigned.returns] at undefined
        cases undefined
      · rintro (equal | ⟨-, found, foundSrc⟩)
        · exact unequal equal
        · exact gone.elim found foundSrc
    · rw [after]
      exact iff_of_true (tallied.assigned held heldSrc same dropped added) (Or.inr ⟨same, found⟩)

/-- A null handle, made from a null pointer, is assigned over. -/
theorem assigned_iff_null :
    ∃ s s', (sequence (Fin 2)).exec (sequence (Fin 2)).start
        [.constructFromNull 0 0, .op (.construct 1 1)] = some s ∧
      (sequence (Fin 2)).next s (.op (.assign 0 1)) = some s' ∧
      Assigned s s' 0 ⟨some 0, none⟩ ⟨some 1, some 1⟩ := by
  have ran : (sequence (Fin 2)).exec (sequence (Fin 2)).start
      [.constructFromNull 0 0, .op (.construct 1 1)] = some _ := rfl
  obtain ⟨s', hs, assigned⟩ := @assigned_iff (Fin 2) _ _ _ 0 1 ⟨some 0, none⟩ ⟨some 1, some 1⟩
    ((sequence (Fin 2)).reach_of_exec ran) rfl rfl rfl
  exact ⟨_, s', ran, hs, assigned.mpr (by decide)⟩

/-- Handles of two objects stay as they were. -/
theorem assignment_is_skipped :
    ∃ s s', (sequence (Fin 2)).exec (sequence (Fin 2)).start
        [.op (.construct 0 0), .op (.construct 1 1)] = some s ∧
      s.handle 0 = some ⟨some 0, some 0⟩ ∧ s.handle 1 = some ⟨some 1, some 1⟩ ∧
      (sequence (Fin 2)).next s (.op (.assign 0 1)) = some s' ∧
      s'.handle 0 = some ⟨some 0, some 0⟩ ∧ ¬ Assigned s s' 0 ⟨some 0, some 0⟩ ⟨some 1, some 1⟩ := by
  refine ⟨_, _, rfl, rfl, rfl, rfl, rfl, fun assigned => ?_⟩
  have designates := Option.some.inj assigned.designates
  exact absurd (congrArg Handle.ptr designates) (by decide)

end ThreadSafeSharedPtr
