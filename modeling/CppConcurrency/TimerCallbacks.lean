import CppConcurrency.TimerHandles

/-!
# `checkTimer` and what the callback does to its own timer

While the callback runs, `checkTimer` keeps an iterator to its node, and erases the node
when the callback has returned. Additions and deletions of other timers leave that
iterator alone, wherever they stand in the set. There are two ways to break the call: the
callback deletes its own timer, and the iterator dangles when it returns, or it throws,
and nothing erases the node. A callback that does both breaks nothing.
-/

namespace Timers

open Machines OrderedSets

universe u v

variable {Obj : Type v} {Task : Type u} {clock : ℤ}

/-- What a callback does to the `Timer` that called it. -/
inductive Action (Task : Type u) where
  | addTimer (tick msec : ℤ) (callback : Task)
  | delTimer (node : TimerNodeBase)
  deriving DecidableEq

inductive Ending where
  | returns
  | throws
  deriving DecidableEq

def Action.label (o : Obj) : Action Task → Label Obj Task
  | .addTimer tick msec callback => .addTimer o tick msec callback
  | .delTimer node => .delTimer o node

def Ending.label : Ending → Label Obj Task
  | .returns => .callbackReturns
  | .throws => .callbackThrows

section

variable [DecidableEq Obj]

/-- How often the callback of the timer was called. -/
def timesFired (s : State Obj Task) (o : Obj) (k : TimerNodeBase) : ℕ :=
  s.fired.countP fun e => e.1 = o ∧ sliced e.2.2 = k

/-- The call takes its timer out of the set, erasing what is there, and no other, and the
timer is not fired again, whatever comes later. -/
def FiresOnce (clock : ℤ) (s : State Obj Task) (o : Obj) (tick : ℤ) (it : TimerNode Task)
    (actions : List (Action Task)) (ending : Ending) : Prop :=
  ∃ s₁ s₂, (machine Obj Task clock).exec s
      (.checkTimer o tick :: actions.map (Action.label o)) = some s₁ ∧
    (machine Obj Task clock).next s₁ ending.label = some s₂ ∧
    (∀ n, n ∈ s₂.map o ↔ n ∈ s₁.map o ∧ sliced n ≠ sliced it) ∧ (∀ p, p ≠ o → s₂.map p = s₁.map p) ∧
    ∀ later s₃, (machine Obj Task clock).exec s₂ later = some s₃ →
      timesFired s₃ o (sliced it) = timesFired s₂ o (sliced it)

end

/-- Every pending timer has an id that was handed out. -/
structure Numbered (s : State Obj Task) : Prop where
  sorted : ∀ o, Sorted TimerNodeBase.lt sliced (s.map o)
  bound : ∀ o n, n ∈ s.map o → n.id ≤ s.gid

/-- The key was handed out and is not pending. -/
def Gone (s : State Obj Task) (o : Obj) (k : TimerNodeBase) : Prop :=
  k.id ≤ s.gid ∧ ∀ n ∈ s.map o, sliced n ≠ k

section Steps

variable [DecidableEq Obj] {s s' : State Obj Task} {o : Obj} {k : TimerNodeBase}

omit [DecidableEq Obj] in
theorem Numbered.new (h : Numbered s) (tick msec : ℤ) (callback : Task) :
    ∀ n ∈ s.map o, sliced n ≠ sliced (s.newNode tick msec callback) := by
  intro n hn same
  have old := h.bound o n hn
  have id : n.id = s.gid + 1 := congrArg TimerNodeBase.id same
  omega

theorem Numbered.mem_addTimer (h : Numbered s) {tick msec : ℤ} {callback : Task} {p : Obj}
    {n : TimerNode Task} : n ∈ (addTimer s o tick msec callback).2.map p ↔
      n ∈ s.map p ∨ p = o ∧ n = s.newNode tick msec callback :=
  mem_setMap_insert (h.new tick msec callback)

theorem start_numbered : Numbered (machine Obj Task clock).start where
  sorted _ := .nil
  bound _ _ hn := by cases hn

theorem Numbered.erase (h : Numbered s) (k : TimerNodeBase)
    (map : s'.map = (s.setMap o (erase TimerNodeBase.lt sliced k (s.map o))).map)
    (gid : s'.gid = s.gid) : Numbered s' where
  sorted p := by
    rw [map]
    exact sorted_setMap h.sorted ((h.sorted o).erase k) p
  bound p n hn := by
    rw [map] at hn
    rw [gid]
    exact h.bound p n ((mem_setMap_erase (h.sorted o)).mp hn).1

theorem Numbered.next {l : Label Obj Task} (h : Numbered s) (hs : next s l = some s') :
    Numbered s' := by
  cases next_step hs with
  | adds o tick msec callback =>
    refine ⟨sorted_setMap h.sorted ((h.sorted o).insert comparator), fun p n hn => ?_⟩
    change n.id ≤ s.gid + 1
    rcases h.mem_addTimer.mp hn with old | ⟨-, rfl⟩
    · exact Int.le_add_one (h.bound p n old)
    · exact Int.le_refl _
  | deletes found => exact h.erase _ rfl rfl
  | misses => exact h
  | fires => exact ⟨h.sorted, h.bound⟩
  | rests => exact ⟨h.sorted, h.bound⟩
  | returns => exact h.erase _ rfl rfl
  | throws => exact ⟨h.sorted, h.bound⟩

theorem reach_numbered (reached : (machine Obj Task clock).Reach s) : Numbered s :=
  reached.invariant _ start_numbered fun _ _ _ h _ hs => h.next hs

/-- A timer that is gone does not come back, and is not fired. -/
theorem Gone.next {l : Label Obj Task} (gone : Gone s o k) (h : Numbered s)
    (hs : next s l = some s') : Gone s' o k ∧ timesFired s' o k = timesFired s o k := by
  obtain ⟨old, missing⟩ := gone
  cases next_step hs with
  | adds p tick msec callback =>
    refine ⟨⟨Int.le_add_one old, fun n hn => ?_⟩, rfl⟩
    rcases h.mem_addTimer.mp hn with hn | ⟨-, rfl⟩
    · exact missing n hn
    · rintro rfl
      change s.gid + 1 ≤ s.gid at old
      omega
  | deletes => exact ⟨⟨old, fun n hn => missing n ((mem_setMap_erase (h.sorted _)).mp hn).1⟩, rfl⟩
  | misses => exact ⟨⟨old, missing⟩, rfl⟩
  | fires first due =>
    rename_i p tick it rest
    refine ⟨⟨old, missing⟩, ?_⟩
    have other : ¬ (p = o ∧ sliced it = k) := by
      rintro ⟨rfl, key⟩
      exact missing it (by rw [first]; exact List.mem_cons_self) key
    simp [timesFired, other]
  | rests => exact ⟨⟨old, missing⟩, rfl⟩
  | returns => exact ⟨⟨old, fun n hn => missing n ((mem_setMap_erase (h.sorted _)).mp hn).1⟩, rfl⟩
  | throws => exact ⟨⟨old, missing⟩, rfl⟩

theorem Gone.exec {later : List (Label Obj Task)} (gone : Gone s o k) (h : Numbered s)
    (hs : (machine Obj Task clock).exec s later = some s') : timesFired s' o k = timesFired s o k := by
  induction later generalizing s with
  | nil => exact Option.some.inj hs ▸ rfl
  | cons l later ih =>
    cases step : (machine Obj Task clock).next s l with
    | none => simp [Machine.exec, step] at hs
    | some r =>
      obtain ⟨gone', same⟩ := gone.next h step
      rw [Machine.exec_step _ step] at hs
      rw [ih gone' (h.next step) hs, same]

variable (clock) in
/-- What a callback makes of a timer that was added before it: it stays as it is until it
is deleted. -/
theorem Numbered.exec_actions (h : Numbered s) (old : k.id ≤ s.gid) (actions : List (Action Task)) :
    ∃ s₁, (machine Obj Task clock).exec s (actions.map (Action.label o)) = some s₁ ∧ Numbered s₁ ∧
      k.id ≤ s₁.gid ∧ s₁.firing = s.firing ∧
      ∀ n, sliced n = k → (n ∈ s₁.map o ↔ n ∈ s.map o ∧ .delTimer k ∉ actions) := by
  induction actions generalizing s with
  | nil => exact ⟨s, rfl, h, old, rfl, fun n _ => by simp⟩
  | cons action actions ih =>
    cases action with
    | addTimer tick msec callback =>
      have step : Timers.next s (.addTimer o tick msec callback) =
        some (addTimer s o tick msec callback).2 := rfl
      obtain ⟨s₁, ran, h₁, old₁, firing, mem⟩ := ih (h.next step) (Int.le_add_one old)
      refine ⟨s₁, (Machine.exec_step _ (s := s) step _).trans ran, h₁, old₁, firing, fun n key => ?_⟩
      have other : ¬ (o = o ∧ n = s.newNode tick msec callback) := by
        rintro ⟨-, rfl⟩
        subst key
        change s.gid + 1 ≤ s.gid at old
        omega
      rw [mem n key, h.mem_addTimer, or_iff_left other]
      simp
    | delTimer node =>
      have step : Timers.next s (.delTimer o node) = some (delTimer s o node).2 := rfl
      have frame : (delTimer s o node).2.gid = s.gid ∧ (delTimer s o node).2.firing = s.firing := by
        unfold delTimer
        split <;> exact ⟨rfl, rfl⟩
      obtain ⟨s₁, ran, h₁, old₁, firing, mem⟩ := ih (h.next step) (frame.1 ▸ old)
      refine ⟨s₁, (Machine.exec_step _ (s := s) step _).trans ran, h₁, old₁,
        firing.trans frame.2, fun n key => ?_⟩
      rw [mem n key, mem_delTimer (h.sorted o), key]
      simp [and_assoc]

variable (clock) in
/-- A call that fires, up to the end of its callback. -/
theorem Numbered.exec_callback {tick : ℤ} {it : TimerNode Task} {rest : List (TimerNode Task)}
    (h : Numbered s) (first : s.map o = it :: rest) (due : it.expireTime ≤ tick)
    (actions : List (Action Task)) :
    ∃ s₁, (machine Obj Task clock).exec s (.checkTimer o tick :: actions.map (Action.label o)) =
        some s₁ ∧ Numbered s₁ ∧ it.id ≤ s₁.gid ∧ s₁.firing = (o, it) :: s.firing ∧
      (it ∈ s₁.map o ↔ .delTimer (sliced it) ∉ actions) ∧
      ∀ n ∈ s₁.map o, sliced n = sliced it → .delTimer (sliced it) ∉ actions := by
  have here : it ∈ s.map o := by
    rw [first]
    exact List.mem_cons_self
  have begun : Timers.next s (.checkTimer o tick) = some { s with
      firing := (o, it) :: s.firing
      fired := s.fired ++ [(o, tick, it)]
      clock := tick } := by
    simp [Timers.next, checkTimer, first, due]
  obtain ⟨s₁, ran, h₁, old, firing, mem⟩ :=
    (h.next begun).exec_actions clock (o := o) (h.bound o it here) actions
  exact ⟨s₁, (Machine.exec_step _ (s := s) begun _).trans ran, h₁, old, firing,
    (mem it rfl).trans (and_iff_right here), fun n hn key => ((mem n key).mp hn).2⟩

/-- The callback can return where a node with its key is there to be erased. -/
theorem callbackReturns_iff {it : TimerNode Task} {firing : List (Obj × TimerNode Task)}
    (now : s.firing = (o, it) :: firing) :
    (∃ s', Timers.next s .callbackReturns = some s') ↔ ∃ n ∈ s.map o, sliced n = sliced it := by
  rw [← find_isSome comparator (k := sliced it)]
  constructor
  · rintro ⟨s', step⟩
    simp only [Timers.next, callbackReturns, now] at step
    exact (Option.ite_none_right_eq_some.mp step).1
  · intro found
    simp only [Timers.next, callbackReturns, now, if_pos found]
    exact ⟨_, rfl⟩

theorem Numbered.callbackReturns {it : TimerNode Task} {firing : List (Obj × TimerNode Task)}
    (h : Numbered s) (now : s.firing = (o, it) :: firing)
    (step : Timers.next s .callbackReturns = some s') : s'.gid = s.gid ∧
      (∀ n, n ∈ s'.map o ↔ n ∈ s.map o ∧ sliced n ≠ sliced it) ∧ ∀ p, p ≠ o → s'.map p = s.map p := by
  simp only [Timers.next, Timers.callbackReturns, now] at step
  obtain ⟨-, ⟨⟩⟩ := Option.ite_none_right_eq_some.mp step
  refine ⟨rfl, fun n => ?_, fun p other => setMap_other _ other⟩
  simpa using mem_setMap_erase (n := n) (p := o) (h.sorted o)

end Steps

/-- A call of `checkTimer` that fires is safe exactly when its callback returns and has not
deleted its own timer, or throws and has. -/
theorem fires_once_iff [DecidableEq Obj] {s : State Obj Task} {o : Obj} {tick : ℤ} {it : TimerNode Task}
    {rest : List (TimerNode Task)} (reached : (machine Obj Task clock).Reach s)
    (first : s.map o = it :: rest) (due : it.expireTime ≤ tick) (actions : List (Action Task))
    (ending : Ending) : FiresOnce clock s o tick it actions ending ↔
      (ending = .returns ↔ .delTimer (sliced it) ∉ actions) := by
  obtain ⟨s₁, called, h₁, old, firing, kept, spares⟩ :=
    (reach_numbered reached).exec_callback clock first due actions
  cases ending with
  | returns =>
    constructor
    · rintro ⟨r₁, s₂, called', step, -⟩
      obtain rfl := Option.some.inj (called.symm.trans called')
      obtain ⟨n, hn, key⟩ := (callbackReturns_iff firing).mp ⟨s₂, step⟩
      exact iff_of_true rfl (spares n hn key)
    · intro condition
      have there := kept.mpr (condition.mp rfl)
      obtain ⟨s₂, step⟩ := (callbackReturns_iff firing).mpr ⟨it, there, rfl⟩
      obtain ⟨gid, off, others⟩ := h₁.callbackReturns firing step
      exact ⟨s₁, s₂, called, step, off, others,
        fun later s₃ ran => Gone.exec ⟨gid ▸ old, fun n hn => ((off n).mp hn).2⟩ (h₁.next step) ran⟩
  | throws =>
    have step : Timers.next s₁ .callbackThrows = some { s₁ with firing := s.firing } := by
      simp [Timers.next, firing]
    constructor
    · rintro ⟨r₁, s₂, called', step', off, -⟩
      obtain rfl := Option.some.inj (called.symm.trans called')
      obtain rfl := Option.some.inj (step.symm.trans step')
      refine iff_of_false (by decide) fun spared => ?_
      exact ((off it).mp (kept.mpr spared)).2 rfl
    · intro condition
      have deleted : ¬ .delTimer (sliced it) ∉ actions := fun spared =>
        absurd (condition.mpr spared) (by decide)
      have off : ∀ n ∈ s₁.map o, sliced n ≠ sliced it := fun n hn key => deleted (spares n hn key)
      exact ⟨s₁, _, called, step, fun n => (and_iff_left_of_imp (off n)).symm, fun _ _ => rfl,
        fun later s₃ ran => Gone.exec ⟨old, off⟩ (h₁.next step) ran⟩

/-- A callback that adds a timer before its own and deletes it again. -/
theorem fires_once_iff_added : ∃ s, (machine (Fin 1) Unit 0).exec (machine (Fin 1) Unit 0).start
      [.addTimer 0 0 10 ()] = some s ∧
    FiresOnce 0 s 0 10 ⟨⟨10, 1⟩, ()⟩ [.addTimer 10 (-5) (), .delTimer ⟨5, 2⟩] .returns := by
  have ran : (machine (Fin 1) Unit 0).exec (machine (Fin 1) Unit 0).start [.addTimer 0 0 10 ()] =
      some _ := rfl
  refine ⟨_, ran, (fires_once_iff (Machine.reach_of_exec _ ran) rfl (by decide) _ _).mpr (by decide)⟩

/-- A callback that deletes its own timer lets `checkTimer` erase a node that is gone, and one
that throws is called again. -/
theorem callbacks_break_the_timer : ∃ s, (machine (Fin 1) Unit 0).exec (machine (Fin 1) Unit 0).start
      [.addTimer 0 0 10 ()] = some s ∧
    ¬ FiresOnce 0 s 0 10 ⟨⟨10, 1⟩, ()⟩ [.delTimer ⟨10, 1⟩] .returns ∧
    ¬ FiresOnce 0 s 0 10 ⟨⟨10, 1⟩, ()⟩ [] .throws := by
  refine ⟨_, rfl, ?_, ?_⟩
  · rintro ⟨s₁, s₂, called, step, -⟩
    obtain rfl := Option.some.inj called
    cases step
  · rintro ⟨s₁, s₂, called, step, -, -, once⟩
    obtain rfl := Option.some.inj called
    obtain rfl := Option.some.inj step
    exact absurd (once [.checkTimer 0 11] _ rfl) (by decide)

end Timers
