import CppConcurrency.ThreadSafeSharedPtr
import Mathlib.Tactic.Common

/-!
# Calls of `ThreadSafeShared_ptr` made one after the other

A call runs to its end before the next one begins. Two calls join those that threads may
overlap: construction from a null pointer, whose counter starts at 1 where the default
constructor's starts at 0, and `use_count()`. Each lemma here says what a whole call does
to the handles, the counters and the objects.
-/

namespace ThreadSafeSharedPtr

open Machines Threads

universe u

variable {H : Type u}

inductive Operation (H : Type u) where
  | op (op : Op H)
  | constructFromNull (h : H) (o : ℕ)
  | useCount (h : H)

/-- `(*count).load()`, converted to `int`. -/
def useCount (s : State H Unit) : Option ℕ → Option ℤ
  | some c =>
    match s.counter c with
    | .live n => some (BitVec.ofInt 32 n).toInt
    | _ => none
  | none => none

variable [DecidableEq H]

/-- The first steps of an operation, up to where a call of several steps stands. -/
def begins (s : State H Unit) : Operation H → Option (State H Unit)
  | .op op => invoke s () op
  | .constructFromNull h o =>
    match s.handle h, s.counter o, s.object o with
    | none, .unused, .unused => some { s.setHandle h (some ⟨some o, none⟩) with
        counter := Function.update s.counter o (.live 1) }
    | _, _, _ => none
  | .useCount h => (s.handle h).map fun k =>
      if (useCount s k.count).isSome then s else s.setCall () .undefined

/-- Up to `fuel` further steps of the call, until it is at rest or undefined. -/
def finish : ℕ → State H Unit → State H Unit
  | 0, s => s
  | fuel + 1, s =>
    match perform s () (s.call ()) with
    | some s' => finish fuel s'
    | none => if (s.call ()).atRest then s else s.setCall () .undefined

/-- The longest call, an assignment that deletes, makes seven steps. -/
def operate (s : State H Unit) (op : Operation H) : Option (State H Unit) :=
  if (s.call ()).atRest then (begins s op).map (finish 7) else none

def sequence (H : Type u) [DecidableEq H] : Machine (State H Unit) (Operation H) where
  start := (machine H Unit).start
  next := operate

/-- What a handle does to its counter when it goes: the last one deletes both blocks. -/
def drop (s : State H Unit) (k : Handle) : Option (State H Unit) :=
  (fetchSub s () k.count).bind fun (last, s) =>
    if last then (deleteCounter s () k.count).bind fun s => deleteObject s () k.ptr else some s

section Finish

variable {s s' : State H Unit} {fuel : ℕ}

theorem finish_rest (rest : s.call () = .rest) (fuel : ℕ) : finish fuel s = s := by
  cases fuel with
  | zero => rfl
  | succ fuel =>
    rw [finish, rest]
    rfl

theorem finish_step (hs : perform s () (s.call ()) = some s') :
    finish (fuel + 1) s = finish fuel s' := by
  rw [finish, hs]

omit [DecidableEq H] in
@[simp] theorem setCall_setCall (s : State H Unit) (c d : Call H) :
    (s.setCall () c).setCall () d = s.setCall () d := by
  simp [State.setCall]

omit [DecidableEq H] in
theorem setCall_rest (rest : s.call () = .rest) : s.setCall () .rest = s := by
  rw [State.setCall, ← rest, Function.update_eq_self]

end Finish

section Counters

variable {s s₁ : State H Unit} {k : Handle}

omit [DecidableEq H] in
theorem fetchAdd_cases {count : Option ℕ} (added : fetchAdd s count = some s₁) :
    ∃ d m, count = some d ∧ s.counter d = .live m ∧
      s₁ = { s with counter := Function.update s.counter d (.live (m + 1)) } := by
  cases count with
  | none => cases added
  | some d =>
    cases hd : s.counter d with
    | unused | deleted => simp [fetchAdd, hd] at added
    | live m =>
      simp only [fetchAdd, hd, Option.some.injEq] at added
      exact ⟨d, m, rfl, hd, added.symm⟩

omit [DecidableEq H] in
/-- The counter that a handle drops is alive. It goes down, or it is deleted with the object. -/
theorem drop_cases (dropped : drop s k = some s₁) : ∃ c n, k.count = some c ∧ s.counter c = .live n ∧
    ((n ≠ 1 ∧ s₁ = { s with counter := Function.update s.counter c (.live (n - 1)) }) ∨
    (n = 1 ∧ k.ptr = none ∧ s₁ = { s with
      counter := Function.update s.counter c .deleted
      dropped := Function.update s.dropped c (s.dropped c ++ [()])
      countDeletes := Function.update s.countDeletes c (s.countDeletes c ++ [()]) }) ∨
    (n = 1 ∧ ∃ o v, k.ptr = some o ∧ s.object o = .live v ∧ s₁ = { s with
      counter := Function.update s.counter c .deleted
      object := Function.update s.object o .deleted
      dropped := Function.update s.dropped c (s.dropped c ++ [()])
      countDeletes := Function.update s.countDeletes c (s.countDeletes c ++ [()])
      objectDeletes := Function.update s.objectDeletes o (s.objectDeletes o ++ [()]) })) := by
  cases hk : k.count with
  | none => simp [drop, fetchSub, hk] at dropped
  | some c =>
  cases hc : s.counter c with
  | unused | deleted => simp [drop, fetchSub, hk, hc] at dropped
  | live n =>
  refine ⟨c, n, rfl, hc, ?_⟩
  by_cases one : n = 1
  · apply Or.inr
    cases hp : k.ptr with
    | none =>
      simp [drop, fetchSub, hk, hp, hc, one, deleteCounter, deleteObject] at dropped
      exact Or.inl ⟨one, rfl, dropped.symm⟩
    | some o =>
      cases ho : s.object o with
      | unused | deleted =>
        simp [drop, fetchSub, hk, hp, hc, one, deleteCounter, deleteObject, ho] at dropped
      | live v =>
        simp [drop, fetchSub, hk, hp, hc, one, deleteCounter, deleteObject, ho] at dropped
        exact Or.inr ⟨one, o, v, rfl, ho, dropped.symm⟩
  · simp [drop, fetchSub, hk, hc, one] at dropped
    exact Or.inl ⟨one, dropped.symm⟩

omit [DecidableEq H] in
theorem fetchAdd_setCall {count : Option ℕ} (added : fetchAdd s count = some s₁) (call : Call H) :
    fetchAdd (s.setCall () call) count = some (s₁.setCall () call) := by
  obtain ⟨d, m, rfl, hd, rfl⟩ := fetchAdd_cases added
  simp [fetchAdd, hd, State.setCall]

omit [DecidableEq H] in
theorem drop_setCall (dropped : drop s k = some s₁) (call : Call H) :
    drop (s.setCall () call) k = some (s₁.setCall () call) := by
  obtain ⟨c, n, hk, hc, ⟨one, rfl⟩ | ⟨one, hp, rfl⟩ | ⟨one, o, v, hp, ho, rfl⟩⟩ := drop_cases dropped
  · simp [drop, fetchSub, hk, hc, one, State.setCall]
  · simp [drop, fetchSub, hk, hp, hc, one, deleteCounter, deleteObject, State.setCall]
  · simp [drop, fetchSub, hk, hp, hc, one, deleteCounter, deleteObject, ho, State.setCall]

omit [DecidableEq H] in
theorem drop_frame (dropped : drop s k = some s₁) : s₁.handle = s.handle ∧ s₁.call = s.call := by
  obtain ⟨c, n, hk, hc, ⟨one, rfl⟩ | ⟨one, hp, rfl⟩ | ⟨one, o, v, hp, ho, rfl⟩⟩ := drop_cases dropped
  all_goals exact ⟨rfl, rfl⟩

end Counters

section Calls

variable {s s₁ s₂ : State H Unit} {h src : H} {k l : Handle}

theorem operate_at_once {op : Operation H} (rest : s.call () = .rest) (begun : begins s op = some s₁)
    (rest₁ : s₁.call () = .rest) : operate s op = some s₁ := by
  rw [operate, rest, begun]
  exact congrArg some (finish_rest rest₁ 7)

theorem operate_construct {o : ℕ} (rest : s.call () = .rest) (free : s.handle h = none)
    (counter : s.counter o = .unused) (object : s.object o = .unused) :
    operate s (.op (.construct h o)) = some { s.setHandle h (some ⟨some o, some o⟩) with
      counter := Function.update s.counter o (.live 1)
      object := Function.update s.object o (.live ()) } := by
  refine operate_at_once rest ?_ rest
  simp [begins, invoke, free, counter, object]

theorem operate_constructNull {o : ℕ} (rest : s.call () = .rest) (free : s.handle h = none)
    (counter : s.counter o = .unused) (object : s.object o = .unused) :
    operate s (.op (.constructNull h o)) = some { s.setHandle h (some ⟨some o, none⟩) with
      counter := Function.update s.counter o (.live 0) } := by
  refine operate_at_once rest ?_ rest
  simp [begins, invoke, free, counter, object]

theorem operate_constructFromNull {o : ℕ} (rest : s.call () = .rest) (free : s.handle h = none)
    (counter : s.counter o = .unused) (object : s.object o = .unused) :
    operate s (.constructFromNull h o) = some { s.setHandle h (some ⟨some o, none⟩) with
      counter := Function.update s.counter o (.live 1) } := by
  refine operate_at_once rest ?_ rest
  simp [begins, free, counter, object]

theorem operate_useCount (rest : s.call () = .rest) (held : s.handle h = some k)
    (found : (useCount s k.count).isSome) : operate s (.useCount h) = some s := by
  refine operate_at_once rest ?_ rest
  simp [begins, held, found]

theorem operate_move (rest : s.call () = .rest) (free : s.handle h = none)
    (held : s.handle src = some k) : operate s (.op (.move h src)) =
      some ((s.setHandle h (some k)).setHandle src (some ⟨none, none⟩)) := by
  refine operate_at_once rest ?_ rest
  simp [begins, invoke, free, held]

theorem operate_swap (rest : s.call () = .rest) (held : s.handle h = some k)
    (heldSrc : s.handle src = some l) : operate s (.op (.swap h src)) =
      some ((s.setHandle h (some l)).setHandle src (some k)) := by
  refine operate_at_once rest ?_ rest
  simp [begins, invoke, held, heldSrc]

theorem finish_copy (standing : s.call () = .copyCount h src) (held : s.handle src = some k)
    (added : fetchAdd s k.count = some s₁) (fuel : ℕ) :
    finish (fuel + 3) s = (s₁.setHandle h (some k)).setCall () .rest := by
  obtain ⟨count, ptr⟩ := k
  obtain ⟨d, m, same, hd, rfl⟩ := fetchAdd_cases added
  dsimp only at same
  subst same
  simp [finish, standing, perform, held, fetchAdd, hd, State.setCall, State.setHandle, finish_rest]

theorem operate_copy (rest : s.call () = .rest) (free : s.handle h = none)
    (held : s.handle src = some k) (added : fetchAdd s k.count = some s₁) :
    operate s (.op (.copy h src)) = some (s₁.setHandle h (some k)) := by
  have begun : begins s (.op (.copy h src)) = some (s.setCall () (.copyCount h src)) := by
    simp [begins, invoke, free, held]
  have standing : (s.setCall () (.copyCount h src)).call () = .copyCount h src := by
    simp [State.setCall]
  have rest₁ : (s₁.setHandle h (some k)).call () = .rest := by
    obtain ⟨d, m, -, -, rfl⟩ := fetchAdd_cases added
    exact rest
  have copied := finish_copy standing held (fetchAdd_setCall added _) 4
  rw [operate, rest, begun]
  exact congrArg some (copied.trans (setCall_rest rest₁))

/-- A handle that is not null lets go of its counter. -/
theorem finish_destroy {o : ℕ} (standing : s.call () = .destroySub h) (held : s.handle h = some k)
    (object : k.ptr = some o) (dropped : drop s k = some s₁) (fuel : ℕ) :
    finish (fuel + 3) s = (s₁.setHandle h none).setCall () .rest := by
  obtain ⟨count, ptr⟩ := k
  obtain ⟨c, n, hk, hc, ⟨one, rfl⟩ | ⟨one, hp, rfl⟩ | ⟨one, o, v, hp, ho, rfl⟩⟩ := drop_cases dropped
  · cases hk
    simp [finish, standing, perform, held, fetchSub, hc, one, Call.atRest, State.setCall,
      State.setHandle]
  · rw [object] at hp
    cases hp
  · cases hk
    cases hp
    simp [finish, standing, perform, held, fetchSub, hc, one, deleteCounter, deleteObject, ho,
      State.setCall, State.setHandle, finish_rest]

theorem operate_destroy {o : ℕ} (rest : s.call () = .rest) (held : s.handle h = some k)
    (object : k.ptr = some o) (dropped : drop s k = some s₁) :
    operate s (.op (.destroy h)) = some (s₁.setHandle h none) := by
  have begun : begins s (.op (.destroy h)) = some (s.setCall () (.destroySub h)) := by
    obtain ⟨count, ptr⟩ := k
    cases object
    simp [begins, invoke, held]
  have standing : (s.setCall () (.destroySub h)).call () = .destroySub h := by
    simp [State.setCall]
  have rest₁ : (s₁.setHandle h none).call () = .rest := by
    obtain ⟨-, calls⟩ := drop_frame dropped
    exact (congrFun calls ()).trans rest
  have dropped' := finish_destroy standing held object (drop_setCall dropped _) 4
  rw [operate, rest, begun]
  exact congrArg some (dropped'.trans (setCall_rest rest₁))

/-- A null handle goes without a look at its counter. -/
theorem operate_destroy_null (rest : s.call () = .rest) (held : s.handle h = some k)
    (null : k.ptr = none) : operate s (.op (.destroy h)) = some (s.setHandle h none) := by
  obtain ⟨count, ptr⟩ := k
  cases null
  refine operate_at_once rest ?_ rest
  simp [begins, invoke, held]

/-- Two handles that are both null, or both not, compare equal: nothing happens. -/
theorem operate_assign_same (rest : s.call () = .rest) (held : s.handle h = some k)
    (heldSrc : s.handle src = some l) (same : k.ptr.isSome = l.ptr.isSome) :
    operate s (.op (.assign h src)) = some s := by
  have begun : begins s (.op (.assign h src)) = some (s.setCall () (.assignTest h src)) := by
    simp [begins, invoke, held, heldSrc]
  have tested : finish 7 (s.setCall () (.assignTest h src)) = s.setCall () .rest := by
    rw [finish]
    simp [perform, held, heldSrc, same, State.setCall, finish_rest]
  rw [operate, rest, begun]
  exact congrArg some (tested.trans (setCall_rest rest))

/-- The part of an assignment up to where the handle has let go of its counter. -/
theorem finish_drop (standing : s.call () = .assignSub h src) (held : s.handle h = some k)
    (dropped : drop s k = some s₁) :
    ∃ n, n ≤ 3 ∧ ∀ fuel, finish (fuel + n) s = finish fuel (s₁.setCall () (.assignCount h src)) := by
  obtain ⟨c, n, hk, hc, ⟨one, rfl⟩ | ⟨one, hp, rfl⟩ | ⟨one, o, v, hp, ho, rfl⟩⟩ := drop_cases dropped
  · refine ⟨1, by omega, fun fuel => ?_⟩
    simp [finish, standing, perform, held, fetchSub, hk, hc, one, State.setCall]
  · refine ⟨3, Nat.le_refl 3, fun fuel => ?_⟩
    simp [finish, standing, perform, held, fetchSub, hk, hp, hc, one, deleteCounter, deleteObject,
      State.setCall]
  · refine ⟨3, Nat.le_refl 3, fun fuel => ?_⟩
    simp [finish, standing, perform, held, fetchSub, hk, hp, hc, one, deleteCounter, deleteObject,
      ho, State.setCall]

/-- The rest of an assignment. -/
theorem finish_replace (standing : s.call () = .assignCount h src) (held : s.handle h = some k)
    (heldSrc : s.handle src = some l) (other : src ≠ h) (added : fetchAdd s l.count = some s₂)
    (fuel : ℕ) : finish (fuel + 3) s = (s₂.setHandle h (some l)).setCall () .rest := by
  obtain ⟨count, ptr⟩ := l
  obtain ⟨d, m, same, hd, rfl⟩ := fetchAdd_cases added
  dsimp only at same
  subst same
  simp [finish, standing, perform, held, heldSrc, other, fetchAdd, hd, State.setCall,
    State.setHandle, finish_rest]

/-- An assignment between a null handle and one that is not lets go of the counter first. -/
theorem operate_assign_differ (rest : s.call () = .rest) (held : s.handle h = some k)
    (heldSrc : s.handle src = some l) (differ : k.ptr.isSome ≠ l.ptr.isSome) :
    operate s (.op (.assign h src)) = some (finish 6 (s.setCall () (.assignSub h src))) := by
  have begun : begins s (.op (.assign h src)) = some (s.setCall () (.assignTest h src)) := by
    simp [begins, invoke, held, heldSrc]
  have tested : perform (s.setCall () (.assignTest h src)) () ((s.setCall () (.assignTest h src)).call ()) =
      some (s.setCall () (.assignSub h src)) := by
    simp [perform, held, heldSrc, differ, State.setCall]
  rw [operate, rest, begun]
  exact congrArg some (finish_step tested)

theorem operate_assign (rest : s.call () = .rest) (held : s.handle h = some k)
    (heldSrc : s.handle src = some l) (differ : k.ptr.isSome ≠ l.ptr.isSome)
    (dropped : drop s k = some s₁) (added : fetchAdd s₁ l.count = some s₂) :
    operate s (.op (.assign h src)) = some (s₂.setHandle h (some l)) := by
  have other : src ≠ h := by
    rintro rfl
    rw [held] at heldSrc
    cases heldSrc
    exact differ rfl
  obtain ⟨handles₁, calls₁⟩ := drop_frame dropped
  have rest₂ : (s₂.setHandle h (some l)).call () = .rest := by
    obtain ⟨d, m, -, -, rfl⟩ := fetchAdd_cases added
    change s₁.call () = .rest
    rw [calls₁, rest]
  have standing : (s.setCall () (.assignSub h src)).call () = .assignSub h src := by
    simp [State.setCall]
  have replacing : (s₁.setCall () (.assignCount h src)).call () = .assignCount h src := by
    simp [State.setCall]
  obtain ⟨n, few, released⟩ := finish_drop standing held (drop_setCall dropped _)
  have replaced := finish_replace replacing (handles₁ ▸ held) (handles₁ ▸ heldSrc) other
    (fetchAdd_setCall added _) (3 - n)
  have spent : 6 = 3 - n + 3 + n := by omega
  rw [operate_assign_differ rest held heldSrc differ, spent, released, setCall_setCall, replaced]
  exact congrArg some (setCall_rest rest₂)

/-- Which handles an operation needs, and which blocks must be new. -/
theorem operate_enabled {op : Operation H} (hs : operate s op = some s₁) :
    s.call () = .rest ∧ match op with
      | .op (.construct h o) | .op (.constructNull h o) | .constructFromNull h o =>
        s.handle h = none ∧ s.counter o = .unused ∧ s.object o = .unused
      | .op (.copy h src) | .op (.move h src) => s.handle h = none ∧ ∃ k, s.handle src = some k
      | .op (.assign h src) | .op (.swap h src) =>
        (∃ k, s.handle h = some k) ∧ ∃ l, s.handle src = some l
      | .op (.destroy h) | .useCount h => ∃ k, s.handle h = some k := by
  rw [operate] at hs
  split_ifs at hs with rest
  constructor
  · cases standing : s.call () with
    | rest => rfl
    | _ =>
      rw [standing] at rest
      cases rest
  have begun : begins s op ≠ none := by
    intro stuck
    rw [stuck] at hs
    cases hs
  cases op with
  | useCount h => cases hk : s.handle h <;> simp_all [begins]
  | constructFromNull h o =>
    cases hk : s.handle h <;> cases hc : s.counter o <;> cases ho : s.object o <;> simp_all [begins]
  | op op =>
    cases op with
    | construct h o | constructNull h o =>
      cases hk : s.handle h <;> cases hc : s.counter o <;> cases ho : s.object o <;>
        simp_all [begins, invoke]
    | copy h src | move h src | assign h src | swap h src =>
      cases hk : s.handle h <;> cases hl : s.handle src <;> simp_all [begins, invoke]
    | destroy h => cases hk : s.handle h <;> simp_all [begins, invoke]

end Calls

end ThreadSafeSharedPtr
