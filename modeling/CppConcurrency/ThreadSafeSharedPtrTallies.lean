import CppConcurrency.ThreadSafeSharedPtrSequence

/-!
# What the counters of a `ThreadSafeShared_ptr` say, whatever was done before

The handles of an object count it, and nothing else refers to its counter. Null handles may
have lost their counter, or may count wrongly, but they never share one with a handle that
is not null. An operation that looks at a counter which is null or deleted ends where the
language gives no meaning, and every other one keeps this.
-/

namespace ThreadSafeSharedPtr

open Machines Threads

universe u

variable {H : Type u}

def Block.value {V : Type} : Block V → Option V
  | .live v => some v
  | _ => none

/-- What a look at the counter finds: nothing if it is null or deleted. -/
def value (s : State H Unit) (count : Option ℕ) : Option ℤ :=
  count.bind fun c => (s.counter c).value

def carries (c : ℕ) (handle : Option Handle) : Bool := handle.bind Handle.count = some c

/-- The handles that refer to counter `c` all have the pointer `p`. -/
def Alike (handle : H → Option Handle) (c : ℕ) (p : Option ℕ) : Prop :=
  ∀ x k, handle x = some k → k.count = some c → k.ptr = p

/-- How many handles refer to counter `c`. -/
def holders [Fintype H] (s : State H Unit) (c : ℕ) : ℕ := census (carries c) s.handle

/-- Counter `c` was never made, or it counts the handles of its object, or only null handles
refer to it. -/
inductive Tally [Fintype H] (s : State H Unit) (c : ℕ) : Prop where
  | unused (counter : s.counter c = .unused) (nobody : holders s c = 0)
  | object (counter : s.counter c = .live (holders s c)) (object : s.object c = .live ())
      (alike : Alike s.handle c (some c))
  | null (used : s.counter c ≠ .unused) (alike : Alike s.handle c none)

structure Tallied [Fintype H] (s : State H Unit) : Prop where
  rest : s.call () = .rest
  sound : ∀ x k, s.handle x = some k → ∀ o, k.ptr = some o → k.count = some o
  tally : ∀ c, Tally s c

section Handles

variable {s s' : State H Unit} {c : ℕ} {h src : H} {k l : Handle} {new : Option Handle}

theorem carries_iff {handle : Option Handle} :
    carries c handle = true ↔ ∃ k, handle = some k ∧ k.count = some c := by
  cases handle with
  | none => simp [carries]
  | some k => simp [carries]

theorem carries_some : carries c (some k) = true ↔ k.count = some c := by
  simp [carries]

theorem ne_of_not_carries {d : ℕ} (off : carries c (some k) = false) (count : k.count = some d) :
    c ≠ d := by
  rintro rfl
  rw [carries_some.mpr count] at off
  cases off

theorem alike_of_none [Fintype H] {p : Option ℕ} (none : holders s c = 0) : Alike s.handle c p := by
  intro x k hk count
  have off := (census_eq_zero (carries c)).mp none x
  rw [carries_iff.mpr ⟨k, hk, count⟩] at off
  cases off

theorem holders_pos [Fintype H] (hk : s.handle h = some k) (count : k.count = some c) :
    0 < holders s c :=
  census_pos (carries c) (carries_iff.mpr ⟨k, hk, count⟩)

variable [DecidableEq H]

theorem Alike.update {handle : H → Option Handle} {p : Option ℕ} (alike : Alike handle c p)
    (fits : ∀ k, new = some k → k.count = some c → k.ptr = p) :
    Alike (Function.update handle h new) c p := by
  intro x k hk count
  by_cases here : x = h
  · subst here
    rw [Function.update_self] at hk
    exact fits k hk count
  · rw [Function.update_of_ne here] at hk
    exact alike x k hk count

variable [Fintype H]

theorem holders_update (handle : s'.handle = Function.update s.handle h new) :
    holders s' c + (carries c (s.handle h)).toNat = holders s c + (carries c new).toNat := by
  rw [holders, holders, handle]
  exact census_update (carries c) s.handle h new

omit [Fintype H] in
theorem Alike.leave {p : Option ℕ} (alike : Alike s.handle c p)
    (handle : s'.handle = Function.update s.handle h new) (off : carries c new = false) :
    Alike s'.handle c p := by
  rw [handle]
  refine alike.update fun k same count => ?_
  rw [carries_iff.mpr ⟨k, same, count⟩] at off
  cases off

/-- A handle that is given, replaced or taken away is all that its counters hear of it. -/
theorem holders_put {c : ℕ} {new : Option Handle} (handle : s'.handle = Function.update s.handle h new)
    (old : carries c (s.handle h) = false) (off : carries c new = false) :
    holders s' c = holders s c ∧
      ∀ x k, s'.handle x = some k → k.count = some c → ∃ y, s.handle y = some k := by
  have same := holders_update (c := c) handle
  rw [old, off] at same
  refine ⟨same, fun x k hk count => ?_⟩
  rw [handle] at hk
  by_cases here : x = h
  · subst here
    rw [Function.update_self] at hk
    rw [carries_iff.mpr ⟨k, hk, count⟩] at off
    cases off
  · rw [Function.update_of_ne here] at hk
    exact ⟨x, hk⟩

omit [Fintype H] in
/-- The handles after two of them were given new values. -/
theorem exists_of_exchange
    (old : ∀ m, m = k ∨ m = l → m = ⟨none, none⟩ ∨ ∃ y, s.handle y = some m) (x : H) (m : Handle)
    (hm : Function.update (Function.update s.handle h (some k)) src (some l) x = some m) :
    m = ⟨none, none⟩ ∨ ∃ y, s.handle y = some m := by
  by_cases second : x = src
  · subst second
    rw [Function.update_self] at hm
    exact old m (Or.inr (Option.some.inj hm).symm)
  · rw [Function.update_of_ne second] at hm
    by_cases first : x = h
    · subst first
      rw [Function.update_self] at hm
      exact old m (Or.inl (Option.some.inj hm).symm)
    · rw [Function.update_of_ne first] at hm
      exact Or.inr ⟨x, hm⟩

omit [Fintype H] [DecidableEq H] in
theorem drop_untouched {s₁ : State H Unit} {c : ℕ} (dropped : drop s k = some s₁)
    (sound : ∀ o, k.ptr = some o → k.count = some o) (off : carries c (some k) = false) :
    s₁.counter c = s.counter c ∧ s₁.object c = s.object c ∧ s₁.countDeletes c = s.countDeletes c := by
  obtain ⟨d, n, count, -, cases⟩ := drop_cases dropped
  have other := ne_of_not_carries off count
  obtain ⟨-, rfl⟩ | ⟨-, -, rfl⟩ | ⟨-, o, v, pointer, -, rfl⟩ := cases
  · exact ⟨Function.update_of_ne other _ _, rfl, rfl⟩
  · exact ⟨Function.update_of_ne other _ _, rfl, Function.update_of_ne other _ _⟩
  · obtain rfl := Option.some.inj (count.symm.trans (sound o pointer))
    exact ⟨Function.update_of_ne other _ _, Function.update_of_ne other _ _,
      Function.update_of_ne other _ _⟩

omit [Fintype H] [DecidableEq H] in
theorem exists_live {count : Option ℕ} (looked : value s count ≠ none) :
    ∃ c n, count = some c ∧ s.counter c = .live n := by
  cases count with
  | none => exact absurd rfl looked
  | some c =>
    cases hc : s.counter c with
    | unused | deleted => exact absurd (by rw [value, Option.bind_some, hc]; rfl) looked
    | live n => exact ⟨c, n, rfl, hc⟩

omit [Fintype H] [DecidableEq H] in
theorem exists_fetchAdd {count : Option ℕ} (looked : value s count ≠ none) :
    ∃ s₁, fetchAdd s count = some s₁ := by
  obtain ⟨c, n, rfl, live⟩ := exists_live looked
  rw [fetchAdd, live]
  exact ⟨_, rfl⟩

end Handles

section Gone

variable [DecidableEq H] {s s₁ s' : State H Unit} {h src : H} {k l : Handle}

theorem finish_stuck (stuck : perform s () (s.call ()) = none) (busy : (s.call ()).atRest = false)
    (fuel : ℕ) : (finish (fuel + 1) s).call () = .undefined := by
  rw [finish, stuck, busy]
  simp [State.setCall]

omit [DecidableEq H] in
theorem fetch_gone {count : Option ℕ} (gone : value s count = none) :
    fetchAdd s count = none ∧ fetchSub s () count = none := by
  cases count with
  | none => exact ⟨rfl, rfl⟩
  | some c =>
    cases hc : s.counter c with
    | live n =>
      rw [value, Option.bind_some, hc] at gone
      cases gone
    | unused | deleted => exact ⟨by rw [fetchAdd, hc], by rw [fetchSub, hc]⟩

theorem finish_copy_gone (standing : s.call () = .copyCount h src) (held : s.handle src = some k)
    (gone : value s k.count = none) (fuel : ℕ) : (finish (fuel + 3) s).call () = .undefined := by
  have first : perform s () (s.call ()) = some (s.setCall () (.copyPtr h src k.count)) := by
    simp [standing, perform, held]
  have second : perform (s.setCall () (.copyPtr h src k.count)) ()
      ((s.setCall () (.copyPtr h src k.count)).call ()) =
      some (s.setCall () (.copyAdd h src k.count k.ptr)) := by
    simp [perform, held, State.setCall]
  have third : perform (s.setCall () (.copyAdd h src k.count k.ptr)) ()
      ((s.setCall () (.copyAdd h src k.count k.ptr)).call ()) = none := by
    have added := (fetch_gone (s := s.setCall () (.copyAdd h src k.count k.ptr)) gone).1
    exact congrArg (Option.map _) added
  rw [finish_step first, finish_step second]
  exact finish_stuck third rfl fuel

theorem finish_drop_gone (standing : s.call () = .assignSub h src) (held : s.handle h = some k)
    (gone : value s k.count = none) (fuel : ℕ) : (finish (fuel + 1) s).call () = .undefined := by
  refine finish_stuck ?_ (by rw [standing]; rfl) fuel
  simp [standing, perform, held, (fetch_gone gone).2]

theorem finish_replace_gone (standing : s.call () = .assignCount h src) (held : s.handle h = some k)
    (heldSrc : s.handle src = some l) (other : src ≠ h) (gone : value s l.count = none) (fuel : ℕ) :
    (finish (fuel + 3) s).call () = .undefined := by
  have first : perform s () (s.call ()) =
      some ((s.setHandle h (some ⟨l.count, k.ptr⟩)).setCall () (.assignPtr h src)) := by
    simp [standing, perform, held, heldSrc]
  have second : perform ((s.setHandle h (some ⟨l.count, k.ptr⟩)).setCall () (.assignPtr h src)) ()
      (((s.setHandle h (some ⟨l.count, k.ptr⟩)).setCall () (.assignPtr h src)).call ()) =
      some (((s.setHandle h (some ⟨l.count, k.ptr⟩)).setHandle h (some l)).setCall ()
        (.assignAdd h src)) := by
    simp [perform, heldSrc, other, State.setCall, State.setHandle]
  have third : perform (((s.setHandle h (some ⟨l.count, k.ptr⟩)).setHandle h (some l)).setCall ()
      (.assignAdd h src)) () ((((s.setHandle h (some ⟨l.count, k.ptr⟩)).setHandle h
        (some l)).setCall () (.assignAdd h src)).call ()) = none := by
    have added := (fetch_gone (s := ((s.setHandle h (some ⟨l.count, k.ptr⟩)).setHandle h
      (some l)).setCall () (.assignAdd h src)) gone).1
    simp only [perform, State.setCall, State.setHandle, Function.update_self, Option.bind_some,
      Option.map_eq_none_iff] at added ⊢
    exact added
  rw [finish_step first, finish_step second]
  exact finish_stuck third rfl fuel

theorem finish_assign_gone (held : s.handle h = some k) (heldSrc : s.handle src = some l)
    (other : src ≠ h) (dropped : drop s k = some s₁) (gone : value s₁ l.count = none) :
    (finish 6 (s.setCall () (.assignSub h src))).call () = .undefined := by
  have standing : (s.setCall () (.assignSub h src)).call () = .assignSub h src := by
    simp [State.setCall]
  have replacing : (s₁.setCall () (.assignCount h src)).call () = .assignCount h src := by
    simp [State.setCall]
  obtain ⟨handles, -⟩ := drop_frame dropped
  obtain ⟨n, few, released⟩ := finish_drop standing held (drop_setCall dropped _)
  have spent : 6 = 3 - n + 3 + n := by omega
  rw [spent, released, setCall_setCall]
  exact finish_replace_gone replacing (handles ▸ held) (handles ▸ heldSrc) other gone _

theorem operate_useCount_gone (rest : s.call () = .rest) (held : s.handle h = some k)
    (gone : value s k.count = none) (hs : operate s (.useCount h) = some s') :
    s'.call () = .undefined := by
  have none : useCount s k.count = none := by
    cases hc : k.count with
    | none => rfl
    | some c =>
      rw [hc, value, Option.bind_some] at gone
      rw [useCount]
      split
      · rename_i live
        rw [live] at gone
        cases gone
      · rfl
  have begun : begins s (.useCount h) = some (s.setCall () .undefined) := by
    simp [begins, held, none]
  rw [operate, rest, begun] at hs
  exact Option.some.inj hs ▸ finish_stuck (by simp [State.setCall, perform])
    (by simp [State.setCall, Call.atRest]) 6

theorem operate_copy_gone (rest : s.call () = .rest) (free : s.handle h = none)
    (held : s.handle src = some k) (gone : value s k.count = none)
    (hs : operate s (.op (.copy h src)) = some s') : s'.call () = .undefined := by
  have begun : begins s (.op (.copy h src)) = some (s.setCall () (.copyCount h src)) := by
    simp [begins, invoke, free, held]
  rw [operate, rest, begun] at hs
  have standing : (s.setCall () (.copyCount h src)).call () = .copyCount h src := by
    simp [State.setCall]
  exact Option.some.inj hs ▸ finish_copy_gone standing held gone 4

theorem operate_assign_gone (rest : s.call () = .rest) (held : s.handle h = some k)
    (heldSrc : s.handle src = some l) (differ : k.ptr.isSome ≠ l.ptr.isSome)
    (gone : value s k.count = none) (hs : operate s (.op (.assign h src)) = some s') :
    s'.call () = .undefined := by
  rw [operate_assign_differ rest held heldSrc differ] at hs
  have standing : (s.setCall () (.assignSub h src)).call () = .assignSub h src := by
    simp [State.setCall]
  exact Option.some.inj hs ▸ finish_drop_gone standing held gone 5

end Gone

section Tally

variable [Fintype H] {s s' : State H Unit} {c : ℕ} {h src : H} {k l : Handle} {new : Option Handle}

theorem Tally.frame (tally : Tally s c) (counter : s'.counter c = s.counter c)
    (object : s'.object c = s.object c) (same : holders s' c = holders s c)
    (old : ∀ x k, s'.handle x = some k → k.count = some c → ∃ y, s.handle y = some k) :
    Tally s' c := by
  have alike : ∀ p, Alike s.handle c p → Alike s'.handle c p := by
    intro p alike x k hk count
    obtain ⟨y, hy⟩ := old x k hk count
    exact alike y k hy count
  cases tally with
  | unused hc nobody => exact .unused (counter.trans hc) (same.trans nobody)
  | object hc ho ha => exact .object (by rw [counter, hc, same]) (object.trans ho) (alike _ ha)
  | null hc ha => exact .null (counter ▸ hc) (alike _ ha)

/-- A counter that a handle refers to: the handle holds the object and is counted, or it is null. -/
theorem Tally.of_held (tally : Tally s c) (held : s.handle h = some k) (count : k.count = some c) :
    s.counter c = .live (holders s c) ∧ s.object c = .live () ∧ Alike s.handle c (some c) ∧
        k.ptr = some c ∨
      s.counter c ≠ .unused ∧ Alike s.handle c none ∧ k.ptr = none := by
  have present := holders_pos held count
  cases tally with
  | unused _ nobody => omega
  | object hc ho ha => exact Or.inl ⟨hc, ho, ha, ha h k held count⟩
  | null hc ha => exact Or.inr ⟨hc, ha, ha h k held count⟩

theorem Tallied.object (tallied : Tallied s) {o : ℕ} (held : s.handle h = some k)
    (object : k.ptr = some o) : s.counter o = .live (holders s o) ∧ s.object o = .live () ∧
      Alike s.handle o (some o) := by
  have count := tallied.sound h k held o object
  rcases (tallied.tally o).of_held held count with ⟨hc, ho, ha, -⟩ | ⟨-, -, null⟩
  · exact ⟨hc, ho, ha⟩
  · rw [object] at null
    cases null

/-- A null handle and one that is not never refer to the same counter. -/
theorem Tallied.apart (tallied : Tallied s) (held : s.handle h = some k)
    (heldSrc : s.handle src = some l) (differ : k.ptr.isSome ≠ l.ptr.isSome) {d : ℕ}
    (countSrc : l.count = some d) : carries d (some k) = false := by
  rw [Bool.eq_false_iff]
  intro carried
  have count := carries_some.mp carried
  rcases (tallied.tally d).of_held held count with ⟨-, -, alike, null⟩ | ⟨-, alike, null⟩
  · rw [null, alike src l heldSrc countSrc] at differ
    exact differ rfl
  · rw [null, alike src l heldSrc countSrc] at differ
    exact differ rfl

theorem Tallied.value_ne_none (tallied : Tallied s) {o : ℕ} (held : s.handle h = some k)
    (object : k.ptr = some o) : value s k.count ≠ none := by
  rw [tallied.sound h k held o object, value, Option.bind_some, (tallied.object held object).1]
  exact Option.some_ne_none _

theorem Tallied.exists_drop (tallied : Tallied s) (held : s.handle h = some k)
    (looked : value s k.count ≠ none) : ∃ s₁, drop s k = some s₁ := by
  obtain ⟨c, n, count, live⟩ := exists_live looked
  by_cases one : n = 1
  · cases hp : k.ptr with
    | none => simp [drop, fetchSub, count, hp, live, one, deleteCounter, deleteObject]
    | some o =>
      obtain rfl := Option.some.inj (count.symm.trans (tallied.sound h k held o hp))
      have object := (tallied.object held hp).2.1
      simp [drop, fetchSub, count, hp, live, one, deleteCounter, deleteObject, object]
  · simp [drop, fetchSub, count, live, one]

end Tally

section Steps

variable [Fintype H] [DecidableEq H] {s s' s₁ s₂ : State H Unit} {c : ℕ} {h src : H} {k l : Handle}

/-- One handle is given, replaced or taken away. -/
theorem Tallied.put (tallied : Tallied s) {new : Option Handle} (rest : s'.call () = .rest)
    (handle : s'.handle = Function.update s.handle h new)
    (sound : ∀ k, new = some k → ∀ o, k.ptr = some o → k.count = some o)
    (untouched : ∀ c, carries c (s.handle h) = false → carries c new = false →
      s'.counter c = s.counter c ∧ s'.object c = s.object c)
    (touched : ∀ c, carries c (s.handle h) = true ∨ carries c new = true → Tally s' c) :
    Tallied s' where
  rest := rest
  sound := by
    rw [handle]
    exact (Function.forall_update_iff s.handle
      (p := fun _ k' => ∀ k, k' = some k → ∀ o, k.ptr = some o → k.count = some o)).mpr
        ⟨sound, fun x _ => tallied.sound x⟩
  tally c := by
    cases old : carries c (s.handle h) with
    | true => exact touched c (Or.inl old)
    | false =>
      cases off : carries c new with
      | true => exact touched c (Or.inr off)
      | false =>
        obtain ⟨counter, object⟩ := untouched c old off
        obtain ⟨same, held⟩ := holders_put handle old off
        exact (tallied.tally c).frame counter object same held

theorem Tallied.exchange (tallied : Tallied s) (different : h ≠ src)
    (old : ∀ m, m = k ∨ m = l → m = ⟨none, none⟩ ∨ ∃ y, s.handle y = some m)
    (balanced : ∀ c, (carries c (some k)).toNat + (carries c (some l)).toNat =
      (carries c (s.handle h)).toNat + (carries c (s.handle src)).toNat) :
    Tallied ((s.setHandle h (some k)).setHandle src (some l)) := by
  refine ⟨tallied.rest, fun x m hm o ho => ?_, fun c => ?_⟩
  · rcases exists_of_exchange old x m hm with rfl | ⟨y, hy⟩
    · cases ho
    · exact tallied.sound y m hy o ho
  · have same := census_update_two (carries c) s.handle different (some k) (some l) (balanced c)
    refine (tallied.tally c).frame rfl rfl same fun x m hm count => ?_
    rcases exists_of_exchange old x m hm with rfl | found
    · cases count
    · exact found

theorem Tallied.construct {o : ℕ} {n : ℤ} {p : Option ℕ} (tallied : Tallied s)
    (free : s.handle h = none) (unused : s.counter o = .unused) (rest : s'.call () = .rest)
    (handle : s'.handle = Function.update s.handle h (some ⟨some o, p⟩))
    (pointer : p = none ∨ p = some o ∧ n = 1 ∧ s'.object o = .live ())
    (counter : s'.counter = Function.update s.counter o (.live n))
    (objects : ∀ c, c ≠ o → s'.object c = s.object c) : Tallied s' := by
  have nobody : holders s o = 0 := by
    by_contra some
    obtain ⟨x, carried⟩ : ∃ x, carries o (s.handle x) = true := by
      by_contra none
      exact some ((census_eq_zero (carries o)).mpr fun x =>
        Bool.eq_false_iff.mpr fun carried => none ⟨x, carried⟩)
    obtain ⟨k, hk, count⟩ := carries_iff.mp carried
    rcases (tallied.tally o).of_held hk count with ⟨live, -⟩ | ⟨used, -⟩
    · rw [unused] at live
      cases live
    · exact used unused
  have one := holders_update (c := o) handle
  rw [free, carries_iff.mpr ⟨⟨some o, p⟩, rfl, rfl⟩, nobody] at one
  change holders s' o + 0 = 0 + 1 at one
  have live : s'.counter o = .live n := by rw [counter, Function.update_self]
  have alike : Alike s'.handle o p := by
    rw [handle]
    refine (alike_of_none nobody).update fun k same _ => ?_
    rw [← Option.some.inj same]
  refine tallied.put rest handle ?_ ?_ ?_
  · intro k same q hq
    obtain rfl := Option.some.inj same
    rcases pointer with rfl | ⟨rfl, -⟩
    · cases hq
    · exact hq
  · intro c _ off
    have other : c ≠ o := ne_of_not_carries off rfl
    exact ⟨by rw [counter, Function.update_of_ne other], objects c other⟩
  · intro c carried
    rw [free] at carried
    obtain rfl : c = o := by
      rcases carried with wrong | carried
      · cases wrong
      · exact (Option.some.inj (carries_some.mp carried)).symm
    rcases pointer with rfl | ⟨rfl, rfl, object⟩
    · refine .null ?_ alike
      rw [live]
      simp
    · refine .object ?_ object alike
      rw [live]
      congr 1
      omega

/-- A handle becomes one more copy of a handle that refers to the counter. -/
theorem Tally.gain {n : ℤ} (tally : Tally s c) (source : s.handle src = some k)
    (count : k.count = some c) (live : s.counter c = .live n)
    (handle : s'.handle = Function.update s.handle h (some k))
    (off : carries c (s.handle h) = false) (counter : s'.counter c = .live (n + 1))
    (object : s'.object c = s.object c) : Tally s' c := by
  have more := holders_update (c := c) handle
  rw [off, carries_iff.mpr ⟨k, rfl, count⟩] at more
  change holders s' c + 0 = holders s c + 1 at more
  have alike : ∀ p, Alike s.handle c p → Alike s'.handle c p := by
    intro p alike
    rw [handle]
    refine alike.update fun k' same _ => ?_
    obtain rfl := Option.some.inj same
    exact alike src k source count
  rcases tally.of_held source count with ⟨hc, ho, ha, -⟩ | ⟨-, ha, -⟩
  · refine .object ?_ (object.trans ho) (alike _ ha)
    rw [live] at hc
    rw [counter, Block.live.inj hc]
    congr 1
    omega
  · refine .null ?_ (alike _ ha)
    rw [counter]
    simp

/-- A handle lets go of its counter, which goes down or is deleted. -/
theorem Tallied.release {new : Option Handle} (tallied : Tallied s) (held : s.handle h = some k)
    (count : k.count = some c) (dropped : drop s k = some s₁)
    (handle : s'.handle = Function.update s.handle h new) (off : carries c new = false)
    (counter : s'.counter c = s₁.counter c) (object : s'.object c = s₁.object c) : Tally s' c := by
  have fewer := holders_update (c := c) handle
  rw [off, carries_iff.mpr ⟨k, held, count⟩] at fewer
  change holders s' c + 1 = holders s c + 0 at fewer
  obtain ⟨d, n, hk, hc, cases⟩ := drop_cases dropped
  obtain rfl := Option.some.inj (hk.symm.trans count)
  rcases (tallied.tally d).of_held held count with ⟨live, ho, ha, pointer⟩ | ⟨-, ha, null⟩
  · obtain rfl := Block.live.inj (hc.symm.trans live)
    obtain ⟨-, rfl⟩ | ⟨-, null, -⟩ | ⟨one, o, v, hp, -, rfl⟩ := cases
    · refine .object ?_ (object.trans ho) (ha.leave handle off)
      rw [counter]
      dsimp only
      rw [Function.update_self]
      congr 1
      omega
    · rw [pointer] at null
      cases null
    · refine .null ?_ (alike_of_none (by omega))
      simp [counter]
  · refine .null ?_ (ha.leave handle off)
    obtain ⟨-, rfl⟩ | ⟨-, -, rfl⟩ | ⟨-, o, v, hp, -, -⟩ := cases
    · simp [counter]
    · simp [counter]
    · rw [null] at hp
      cases hp

omit [Fintype H] [DecidableEq H] in
theorem ne_of_differ (held : s.handle h = some k) (heldSrc : s.handle src = some l)
    (differ : k.ptr.isSome ≠ l.ptr.isSome) : src ≠ h := by
  rintro rfl
  rw [held] at heldSrc
  exact differ (by rw [Option.some.inj heldSrc])

/-- Between a null handle and one that is not, an assignment finds both counters and goes
through, or it does not find one of them. -/
theorem Tallied.assign_cases (tallied : Tallied s) (held : s.handle h = some k)
    (heldSrc : s.handle src = some l) (differ : k.ptr.isSome ≠ l.ptr.isSome)
    (hs : operate s (.op (.assign h src)) = some s') :
    (value s k.count = none ∨ value s l.count = none) ∧ s'.call () = .undefined ∨
      (value s k.count ≠ none ∧ value s l.count ≠ none) ∧ ∃ s₁ s₂, drop s k = some s₁ ∧
        fetchAdd s₁ l.count = some s₂ ∧ s' = s₂.setHandle h (some l) := by
  by_cases gone : value s k.count = none
  · exact Or.inl ⟨Or.inl gone, operate_assign_gone tallied.rest held heldSrc differ gone hs⟩
  obtain ⟨s₁, dropped⟩ := tallied.exists_drop held gone
  have kept : value s₁ l.count = value s l.count := by
    cases count : l.count with
    | none => rfl
    | some d =>
      have off := tallied.apart held heldSrc differ count
      obtain ⟨counter, -⟩ := drop_untouched dropped (fun o => tallied.sound h k held o) off
      rw [value, value, Option.bind_some, Option.bind_some, counter]
  by_cases goneSrc : value s l.count = none
  · rw [operate_assign_differ tallied.rest held heldSrc differ] at hs
    exact Or.inl ⟨Or.inr goneSrc, Option.some.inj hs ▸ finish_assign_gone held heldSrc
      (ne_of_differ held heldSrc differ) dropped (kept.trans goneSrc)⟩
  · obtain ⟨s₂, added⟩ := exists_fetchAdd (kept ▸ goneSrc)
    rw [operate_assign tallied.rest held heldSrc differ dropped added] at hs
    exact Or.inr ⟨⟨gone, goneSrc⟩, s₁, s₂, dropped, added, (Option.some.inj hs).symm⟩

/-- An assignment changes the blocks of the counter that its target drops, and after them the
counter of its source. -/
theorem Tallied.assign_blocks (tallied : Tallied s) (held : s.handle h = some k)
    (heldSrc : s.handle src = some l) (differ : k.ptr.isSome ≠ l.ptr.isSome)
    (dropped : drop s k = some s₁) (added : fetchAdd s₁ l.count = some s₂)
    (after : s' = s₂.setHandle h (some l)) :
    s'.call () = .rest ∧ s'.handle = Function.update s.handle h (some l) ∧
      (∀ c, carries c (some k) = false → carries c (some l) = false →
        s'.counter c = s.counter c ∧ s'.object c = s.object c ∧
          s'.countDeletes c = s.countDeletes c) ∧
      (∀ c, k.count = some c → carries c (some l) = false ∧ s'.counter c = s₁.counter c ∧
        s'.object c = s₁.object c ∧ s'.countDeletes c = s₁.countDeletes c) ∧
      ∀ c, l.count = some c → carries c (some k) = false ∧ ∃ m, s.counter c = .live m ∧
        s'.counter c = .live (m + 1) ∧ s'.object c = s.object c ∧
          s'.countDeletes c = s.countDeletes c := by
  obtain ⟨handles, calls⟩ := drop_frame dropped
  obtain ⟨d, m, countSrc, live, rfl⟩ := fetchAdd_cases added
  have sound := tallied.sound h k held
  have off := tallied.apart held heldSrc differ countSrc
  subst after
  refine ⟨(congrFun calls ()).trans tallied.rest, ?_, ?_, ?_, ?_⟩
  · rw [← handles]
    rfl
  · intro c offOld offNew
    have other := ne_of_not_carries offNew countSrc
    obtain ⟨counter, object, deletes⟩ := drop_untouched dropped sound offOld
    exact ⟨(Function.update_of_ne other _ _).trans counter, object, deletes⟩
  · intro c count
    have other : c ≠ d := (ne_of_not_carries off count).symm
    have offNew : carries c (some l) = false := by
      rw [Bool.eq_false_iff]
      intro carried
      exact other (Option.some.inj ((carries_some.mp carried).symm.trans countSrc))
    exact ⟨offNew, Function.update_of_ne other _ _, rfl, rfl⟩
  · intro c count
    obtain rfl := Option.some.inj (countSrc.symm.trans count)
    obtain ⟨counter, object, deletes⟩ := drop_untouched dropped sound off
    exact ⟨off, m, counter.symm.trans live, Function.update_self .., object, deletes⟩

theorem Tallied.assign (tallied : Tallied s) (held : s.handle h = some k)
    (heldSrc : s.handle src = some l) (differ : k.ptr.isSome ≠ l.ptr.isSome)
    (dropped : drop s k = some s₁) (added : fetchAdd s₁ l.count = some s₂) :
    Tallied (s₂.setHandle h (some l)) := by
  obtain ⟨rest, handle, untouched, lowered, raised⟩ :=
    tallied.assign_blocks held heldSrc differ dropped added rfl
  rw [← held] at untouched raised
  refine tallied.put rest handle ?_ ?_ ?_
  · intro l' same
    obtain rfl := Option.some.inj same
    exact tallied.sound src l heldSrc
  · intro c offOld offNew
    obtain ⟨counter, object, -⟩ := untouched c offOld offNew
    exact ⟨counter, object⟩
  · intro c carried
    rw [held] at carried
    rcases carried with carried | carried
    · have count := carries_some.mp carried
      obtain ⟨off, counter, object, -⟩ := lowered c count
      exact tallied.release held count dropped handle off counter object
    · have count := carries_some.mp carried
      obtain ⟨off, m, live, counter, object, -⟩ := raised c count
      exact (tallied.tally c).gain heldSrc count live handle off counter object

theorem Tallied.copy (tallied : Tallied s) (free : s.handle h = none) (held : s.handle src = some k)
    (added : fetchAdd s k.count = some s₁) : Tallied (s₁.setHandle h (some k)) := by
  obtain ⟨d, m, count, live, rfl⟩ := fetchAdd_cases added
  refine tallied.put (h := h) tallied.rest rfl ?_ ?_ ?_
  · intro l same
    obtain rfl := Option.some.inj same
    exact tallied.sound src k held
  · intro c _ off
    have other := ne_of_not_carries off count
    exact ⟨Function.update_of_ne other _ _, rfl⟩
  · intro c carried
    rw [free] at carried
    obtain rfl : d = c := by
      rcases carried with wrong | carried
      · cases wrong
      · exact Option.some.inj (count.symm.trans (carries_some.mp carried))
    refine (tallied.tally d).gain held count live rfl ?_ (Function.update_self ..) rfl
    rw [free]
    rfl

theorem Tallied.destroy (tallied : Tallied s) (held : s.handle h = some k)
    (dropped : drop s k = some s₁) : Tallied (s₁.setHandle h none) := by
  obtain ⟨handles, calls⟩ := drop_frame dropped
  have handle : (s₁.setHandle h none).handle = Function.update s.handle h none := by
    rw [← handles]
    rfl
  refine tallied.put ((congrFun calls ()).trans tallied.rest) handle ?_ ?_ ?_
  · intro l wrong
    cases wrong
  · intro c off _
    rw [held] at off
    obtain ⟨counter, object, -⟩ := drop_untouched dropped (tallied.sound h k held) off
    exact ⟨counter, object⟩
  · intro c carried
    rw [held] at carried
    have count := carries_some.mp (carried.resolve_right Bool.false_ne_true)
    exact tallied.release held count dropped handle rfl rfl rfl

/-- A null handle goes and its counter does not hear of it. -/
theorem Tallied.destroy_null (tallied : Tallied s) (held : s.handle h = some k)
    (null : k.ptr = none) : Tallied (s.setHandle h none) := by
  refine tallied.put tallied.rest rfl ?_ (fun _ _ _ => ⟨rfl, rfl⟩) ?_
  · intro l wrong
    cases wrong
  · intro c carried
    rw [held] at carried
    have count := carries_some.mp (carried.resolve_right Bool.false_ne_true)
    rcases (tallied.tally c).of_held held count with ⟨-, -, -, pointer⟩ | ⟨used, alike, -⟩
    · rw [null] at pointer
      cases pointer
    · exact .null used (alike.update fun _ wrong => by cases wrong)

/-- The operation looks at a counter that is null or deleted. -/
def Misses (s : State H Unit) : Operation H → Prop
  | .op (.copy _ h) | .useCount h => ∃ k, s.handle h = some k ∧ value s k.count = none
  | .op (.assign h src) => ∃ k l, s.handle h = some k ∧ s.handle src = some l ∧
      k.ptr.isSome ≠ l.ptr.isSome ∧ (value s k.count = none ∨ value s l.count = none)
  | _ => False

/-- What an operation can do to a tallied state. -/
inductive Effect (s : State H Unit) : Operation H → State H Unit → Prop where
  | missing {op : Operation H} {s' : State H Unit} (undefined : s'.call () = .undefined)
      (misses : Misses s op) : Effect s op s'
  | nothing {op : Operation H} : Effect s op s
  | construct {op : Operation H} {s' : State H Unit} {h : H} {o : ℕ} {n : ℤ} {p : Option ℕ}
      (free : s.handle h = none) (unused : s.counter o = .unused) (rest : s'.call () = .rest)
      (handle : s'.handle = Function.update s.handle h (some ⟨some o, p⟩))
      (pointer : p = none ∨ p = some o ∧ n = 1 ∧ s'.object o = .live ())
      (counter : s'.counter = Function.update s.counter o (.live n))
      (objects : ∀ c, c ≠ o → s'.object c = s.object c)
      (deletes : s'.countDeletes = s.countDeletes) : Effect s op s'
  | copy {h src : H} {k : Handle} {s₁ : State H Unit} (free : s.handle h = none)
      (held : s.handle src = some k) (added : fetchAdd s k.count = some s₁) :
      Effect s (.op (.copy h src)) (s₁.setHandle h (some k))
  | exchange {op : Operation H} {h src : H} {k l : Handle} (different : h ≠ src)
      (old : ∀ m, m = k ∨ m = l → m = ⟨none, none⟩ ∨ ∃ y, s.handle y = some m)
      (balanced : ∀ c, (carries c (some k)).toNat + (carries c (some l)).toNat =
        (carries c (s.handle h)).toNat + (carries c (s.handle src)).toNat) :
      Effect s op ((s.setHandle h (some k)).setHandle src (some l))
  | destroyNull {h : H} {k : Handle} (held : s.handle h = some k) (null : k.ptr = none) :
      Effect s (.op (.destroy h)) (s.setHandle h none)
  | destroy {h : H} {k : Handle} {o : ℕ} {s₁ : State H Unit} (held : s.handle h = some k)
      (object : k.ptr = some o) (dropped : drop s k = some s₁) :
      Effect s (.op (.destroy h)) (s₁.setHandle h none)
  | assign {h src : H} {k l : Handle} {s₁ s₂ : State H Unit} (held : s.handle h = some k)
      (heldSrc : s.handle src = some l) (differ : k.ptr.isSome ≠ l.ptr.isSome)
      (dropped : drop s k = some s₁) (added : fetchAdd s₁ l.count = some s₂) :
      Effect s (.op (.assign h src)) (s₂.setHandle h (some l))

theorem Tallied.effect {op : Operation H} (tallied : Tallied s) (hs : operate s op = some s') :
    Effect s op s' := by
  obtain ⟨rest, enabled⟩ := operate_enabled hs
  cases op with
  | useCount h =>
    obtain ⟨k, hk⟩ := enabled
    by_cases gone : value s k.count = none
    · exact .missing (operate_useCount_gone rest hk gone hs) ⟨k, hk, gone⟩
    · obtain ⟨c, n, count, live⟩ := exists_live gone
      rw [operate_useCount rest hk (by rw [count, useCount, live]; rfl)] at hs
      exact Option.some.inj hs ▸ .nothing
  | constructFromNull h o =>
    obtain ⟨free, counter, object⟩ := enabled
    rw [operate_constructFromNull rest free counter object] at hs
    obtain rfl := Option.some.inj hs
    exact .construct free counter rest rfl (Or.inl rfl) rfl (fun _ _ => rfl) rfl
  | op op =>
    cases op with
    | construct h o =>
      obtain ⟨free, counter, object⟩ := enabled
      rw [operate_construct rest free counter object] at hs
      obtain rfl := Option.some.inj hs
      exact .construct free counter rest rfl (Or.inr ⟨rfl, rfl, Function.update_self ..⟩) rfl
        (fun _ other => Function.update_of_ne other _ _) rfl
    | constructNull h o =>
      obtain ⟨free, counter, object⟩ := enabled
      rw [operate_constructNull rest free counter object] at hs
      obtain rfl := Option.some.inj hs
      exact .construct free counter rest rfl (Or.inl rfl) rfl (fun _ _ => rfl) rfl
    | copy h src =>
      obtain ⟨free, k, hk⟩ := enabled
      by_cases gone : value s k.count = none
      · exact .missing (operate_copy_gone rest free hk gone hs) ⟨k, hk, gone⟩
      · obtain ⟨s₁, added⟩ := exists_fetchAdd gone
        rw [operate_copy rest free hk added] at hs
        exact Option.some.inj hs ▸ .copy free hk added
    | move h src =>
      obtain ⟨free, k, hk⟩ := enabled
      rw [operate_move rest free hk] at hs
      have different : h ≠ src := by
        rintro rfl
        rw [free] at hk
        cases hk
      refine Option.some.inj hs ▸ .exchange different ?_ fun c => ?_
      · rintro m (rfl | rfl)
        · exact Or.inr ⟨src, hk⟩
        · exact Or.inl rfl
      · rw [free, hk, Nat.add_comm]
        rfl
    | destroy h =>
      obtain ⟨k, hk⟩ := enabled
      cases hp : k.ptr with
      | none =>
        rw [operate_destroy_null rest hk hp] at hs
        exact Option.some.inj hs ▸ .destroyNull hk hp
      | some o =>
        obtain ⟨s₁, dropped⟩ := tallied.exists_drop hk (tallied.value_ne_none hk hp)
        rw [operate_destroy rest hk hp dropped] at hs
        exact Option.some.inj hs ▸ .destroy hk hp dropped
    | assign h src =>
      obtain ⟨⟨k, hk⟩, l, hl⟩ := enabled
      by_cases same : k.ptr.isSome = l.ptr.isSome
      · rw [operate_assign_same rest hk hl same] at hs
        exact Option.some.inj hs ▸ .nothing
      · rcases tallied.assign_cases hk hl same hs with
          ⟨gone, undefined⟩ | ⟨-, s₁, s₂, dropped, added, rfl⟩
        · exact .missing undefined ⟨k, l, hk, hl, same, gone⟩
        · exact .assign hk hl same dropped added
    | swap h src =>
      obtain ⟨⟨k, hk⟩, l, hl⟩ := enabled
      rw [operate_swap rest hk hl] at hs
      obtain rfl := Option.some.inj hs
      by_cases different : h = src
      · subst different
        rw [hk] at hl
        obtain rfl := Option.some.inj hl
        have same : (s.setHandle h (some k)).setHandle h (some k) = s := by
          simp [State.setHandle, ← hk]
        rw [same]
        exact .nothing
      · refine .exchange different ?_ fun c => ?_
        · rintro m (rfl | rfl)
          · exact Or.inr ⟨src, hl⟩
          · exact Or.inr ⟨h, hk⟩
        · rw [hk, hl, Nat.add_comm]

/-- An operation leaves a tallied state, or it does what the language gives no meaning. -/
theorem Tallied.next {op : Operation H} (tallied : Tallied s) (hs : operate s op = some s') :
    s'.call () = .undefined ∨ Tallied s' := by
  cases tallied.effect hs with
  | missing undefined => exact Or.inl undefined
  | nothing => exact Or.inr tallied
  | construct free unused rest handle pointer counter objects =>
    exact Or.inr (tallied.construct free unused rest handle pointer counter objects)
  | copy free held added => exact Or.inr (tallied.copy free held added)
  | exchange different old balanced => exact Or.inr (tallied.exchange different old balanced)
  | destroyNull held null => exact Or.inr (tallied.destroy_null held null)
  | destroy held object dropped => exact Or.inr (tallied.destroy held dropped)
  | assign held heldSrc differ dropped added =>
    exact Or.inr (tallied.assign held heldSrc differ dropped added)

theorem start_tallied : Tallied (sequence H).start where
  rest := rfl
  sound _ _ wrong := by cases wrong
  tally c := .unused rfl ((census_eq_zero (carries c)).mpr fun _ => rfl)

/-- Whatever is done, as long as the language gives it a meaning. -/
theorem reach_tallied (reached : (sequence H).Reach s) (rest : s.call () = .rest) : Tallied s := by
  have inv : ∀ {s}, (sequence H).Reach s → s.call () = .undefined ∨ Tallied s := by
    intro s reached
    refine reached.invariant (P := fun s => s.call () = .undefined ∨ Tallied s) _
      (Or.inr start_tallied) fun r op r' before _ hs => ?_
    rcases before with undefined | tallied
    · rw [(operate_enabled hs).1] at undefined
      cases undefined
    · exact tallied.next hs
  refine (inv reached).resolve_left fun undefined => ?_
  rw [rest] at undefined
  cases undefined

end Steps

end ThreadSafeSharedPtr
