import CppConcurrency.ThreadSafeSharedPtrEmpty

/-!
# Null handles, with care and without

Careful operations look at no counter that is null or deleted and leave nothing behind. The
condition is exact. The first operation of a run that does not meet it ends where the language
gives no meaning, at a counter that is null or deleted, or it leaves a live counter behind that
no handle refers to.
-/

namespace ThreadSafeSharedPtr

open Machines Threads

universe u

variable {H : Type u} [Fintype H] [DecidableEq H] {s s₁ s' : State H Unit} {h src : H} {k l : Handle}

omit [Fintype H] in
/-- Nobody refers to the counter of a handle that was its last one. -/
theorem nobody_left {c : ℕ} {new : Option Handle} (alone : ¬ Shared s h (some c))
    (handle : s'.handle = Function.update s.handle h new) (off : carries c new = false) (x : H)
    (m : Handle) (hm : s'.handle x = some m) : m.count ≠ some c := by
  intro count
  rw [handle] at hm
  by_cases here : x = h
  · subst here
    rw [Function.update_self] at hm
    rw [hm, carries_some.mpr count] at off
    cases off
  · rw [Function.update_of_ne here] at hm
    exact alone ⟨x, here, m, hm, count⟩

/-- A null handle that is assigned over without care. -/
theorem Orderly.assign_careless (orderly : Orderly s) (held : s.handle h = some k)
    (heldSrc : s.handle src = some l) (differ : k.ptr.isSome ≠ l.ptr.isSome)
    (more : value s k.count ≠ some 1) (careless : value s k.count ≠ none → ¬ Shared s h k.count)
    (hs : operate s (.op (.assign h src)) = some s') : s'.call () = .undefined ∨
      ∃ c n, s'.counter c = .live n ∧ ∀ x m, s'.handle x = some m → m.count ≠ some c := by
  rcases orderly.tallied.assign_cases held heldSrc differ hs with
    ⟨-, undefined⟩ | ⟨⟨live, -⟩, s₁, s₂, dropped, added, rfl⟩
  · exact Or.inl undefined
  obtain ⟨-, handle, -, lowered, -⟩ :=
    orderly.tallied.assign_blocks held heldSrc differ dropped added rfl
  obtain ⟨c, n, count, hc, cases⟩ := drop_cases dropped
  obtain ⟨off, counter, -⟩ := lowered c count
  obtain ⟨-, rfl⟩ | ⟨rfl, -⟩ | ⟨rfl, -⟩ := cases
  · exact Or.inr ⟨c, n - 1, counter.trans (Function.update_self ..),
      nobody_left (count ▸ careless live) handle off⟩
  · exact absurd (by rw [count, value, Option.bind_some, hc]; rfl) more
  · exact absurd (by rw [count, value, Option.bind_some, hc]; rfl) more

/-- The first step that is not careful looks at a counter that is null or deleted, or leaves
a live counter that no handle refers to. -/
theorem careless_goes_wrong (reached : (sequence H).ReachBy Careful s) {op : Operation H}
    (careless : ¬ Careful s op) (hs : operate s op = some s') : s'.call () = .undefined ∨
      ∃ c n, s'.counter c = .live n ∧ ∀ x m, s'.handle x = some m → m.count ≠ some c := by
  have orderly := reachBy_orderly reached
  obtain ⟨rest, enabled⟩ := operate_enabled hs
  cases op with
  | constructFromNull => exact absurd trivial careless
  | useCount h =>
    obtain ⟨k, hk⟩ := enabled
    simp only [Careful, hk, Option.mem_some_iff, forall_eq', Classical.not_imp, not_not] at careless
    obtain ⟨-, gone⟩ := careless
    exact Or.inl (operate_useCount_gone rest hk gone hs)
  | op op =>
    cases op with
    | construct | constructNull | move | swap => exact absurd trivial careless
    | copy h src =>
      obtain ⟨free, k, hk⟩ := enabled
      simp only [Careful, hk, Option.mem_some_iff, forall_eq', Classical.not_imp, not_not] at careless
      exact Or.inl (operate_copy_gone rest free hk careless.2 hs)
    | destroy h =>
      obtain ⟨k, hk⟩ := enabled
      simp only [Careful, hk, Option.mem_some_iff, forall_eq', Classical.not_imp, not_or] at careless
      obtain ⟨null, live, alone⟩ := careless
      obtain ⟨c, n, count, live⟩ := exists_live live
      rw [operate_destroy_null rest hk null] at hs
      obtain rfl := Option.some.inj hs
      exact Or.inr ⟨c, n, live, nobody_left (count ▸ alone) rfl rfl⟩
    | assign h src =>
      obtain ⟨⟨k, hk⟩, l, hl⟩ := enabled
      simp only [Careful, hk, hl, Option.mem_some_iff, forall_eq', Classical.not_imp,
        Classical.not_and_iff_not_or_not, not_or, not_not] at careless
      obtain ⟨differ, ⟨-, gone⟩ | ⟨-, more, left⟩⟩ := careless
      · rcases orderly.tallied.assign_cases hk hl differ hs with ⟨-, undefined⟩ | ⟨⟨-, found⟩, -⟩
        · exact Or.inl undefined
        · exact absurd gone found
      · refine orderly.assign_careless hk hl differ more ?_ hs
        exact fun live => left.resolve_left live

/-- No operation looks at a counter that is null or deleted, no counter is deleted twice,
and once all handles are gone every counter that was allocated has been deleted. An operation
that is not careful looks at such a counter, or leaves a live one without any handle. -/
theorem careful_handles_leave_nothing (reached : (sequence H).ReachBy Careful s) :
    s.call () = .rest ∧ (∀ c, (s.countDeletes c).length ≤ 1) ∧
      ((∀ h, s.handle h = none) → ∀ c, s.counter c ≠ .unused →
        s.counter c = .deleted ∧ s.countDeletes c = [()]) ∧
      ∀ op s', ¬ Careful s op → operate s op = some s' → s'.call () = .undefined ∨
        ∃ c n, s'.counter c = .live n ∧ ∀ x m, s'.handle x = some m → m.count ≠ some c := by
  have orderly := reachBy_orderly reached
  refine ⟨orderly.rest, fun c => ?_, fun gone c allocated => ?_,
    fun op s' careless hs => careless_goes_wrong reached careless hs⟩
  · cases orderly.standing c with
    | unused _ _ deletes | object _ _ _ _ deletes | null _ _ _ _ deletes | gone _ _ deletes =>
      rw [deletes]
      decide
  · have nobody : holders s c = 0 := (census_eq_zero (carries c)).mpr fun h => by rw [gone h]; rfl
    cases orderly.standing c with
    | unused counter => exact absurd counter allocated
    | object _ _ some | null _ _ some => omega
    | gone counter _ deletes => exact ⟨counter, deletes⟩

/-- A null handle is copied and both are assigned over, the last one at 1. -/
def assignedOver : List (Operation (Fin 3)) :=
  [.constructFromNull 0 0, .op (.copy 1 0), .useCount 1, .op (.construct 2 1), .op (.assign 0 2),
    .op (.assign 1 2), .op (.destroy 0), .op (.destroy 1), .op (.destroy 2)]

def assignedOverRun : (sequence (Fin 3)).Run :=
  .ofSchedule _ (.useCount 0) assignedOver (by decide)

theorem careful_handles_leave_nothing_assigned : (assignedOverRun.state 9).countDeletes 0 = [()] ∧
    (assignedOverRun.state 9).countDeletes 1 = [()] := by
  have careful : ∀ i, i < 9 → Careful (assignedOverRun.state i) (assignedOverRun.label i) := by
    decide
  obtain ⟨-, -, ends, -⟩ :=
    careful_handles_leave_nothing (assignedOverRun.reachBy careful (Nat.le_refl 9))
  have gone : ∀ h, (assignedOverRun.state 9).handle h = none := by decide
  have zero : (assignedOverRun.state 9).counter 0 = .deleted := rfl
  have one : (assignedOverRun.state 9).counter 1 = .deleted := rfl
  constructor
  · exact (ends gone 0 (fun wrong => by cases zero.symm.trans wrong)).2
  · exact (ends gone 1 (fun wrong => by cases one.symm.trans wrong)).2

/-- A default-constructed handle leaves its counter behind, and a copy of a handle that was
moved from dereferences null. -/
theorem empty_handles_go_wrong :
    (∃ s, (sequence (Fin 1)).exec (sequence (Fin 1)).start
        [.op (.constructNull 0 0), .op (.destroy 0)] = some s ∧
      (∀ h, s.handle h = none) ∧ s.counter 0 = .live 0 ∧ s.countDeletes 0 = []) ∧
    ∃ s, (sequence (Fin 3)).exec (sequence (Fin 3)).start
        [.op (.construct 0 0), .op (.move 1 0), .op (.copy 2 0)] = some s ∧
      s.call () = .undefined := by
  constructor
  · exact ⟨_, rfl, by decide, rfl, rfl⟩
  · exact ⟨_, rfl, rfl⟩

end ThreadSafeSharedPtr
