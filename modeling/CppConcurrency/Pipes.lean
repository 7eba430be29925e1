import CppConcurrency.SequentialObjects

/-!
# What a pipe is for

A pipe carries items from one writer to one reader. The writer may take back items from
the last complete one on, and only a flush hands the complete ones over. A read that
finds nothing puts the reader to sleep, and the next flush that hands something over
answers false: its caller has to wake the reader.
-/

namespace Pipes

open SequentialObjects

universe u

/-- `items` are the items written and not taken back, of which the first `completed` are
complete, the first `visible` were handed over and the first `taken` were read. -/
structure Pipe (T : Type u) where
  items : List T
  completed : ℕ
  visible : ℕ
  taken : ℕ
  asleep : Bool

/-- A call with its answer. -/
inductive Event (T : Type u) where
  | write (value : T) (incomplete : Bool)
  | unwrite (result : Option T)
  | flush (ok : Bool)
  | check (ok : Bool)
  | read (result : Option T)
  deriving DecidableEq

variable {T : Type u}

namespace Pipe

variable (p : Pipe T)

def new : Pipe T := ⟨[], 0, 0, 0, false⟩

def write (value : T) (incomplete : Bool) : Pipe T :=
  { p with
    items := p.items ++ [value]
    completed := if incomplete then p.completed else p.items.length + 1 }

def unwrite : Option T × Pipe T :=
  if p.completed < p.items.length then (p.items.getLast?, { p with items := p.items.dropLast })
  else (none, p)

def flush : Bool × Pipe T :=
  if p.visible = p.completed then (true, p)
  else (!p.asleep, { p with visible := p.completed, asleep := false })

def check : Bool × Pipe T :=
  if p.taken < p.visible then (true, p) else (false, { p with asleep := true })

def read : Option T × Pipe T :=
  if p.taken < p.visible then (p.items[p.taken]?, { p with taken := p.taken + 1 })
  else (none, { p with asleep := true })

/-- The pipe gives this answer, and goes on as `p'`. -/
def Answers (p : Pipe T) : Event T → Pipe T → Prop
  | .write value incomplete, p' => p.write value incomplete = p'
  | .unwrite result, p' => p.unwrite = (result, p')
  | .flush ok, p' => p.flush = (ok, p')
  | .check ok, p' => p.check = (ok, p')
  | .read result, p' => p.read = (result, p')

end Pipe

def pipe (T : Type u) : Object (Pipe T) (Event T) := ⟨.new, Pipe.Answers⟩

/-- Items are completed before they are handed over, and handed over before they are read. -/
structure Lawful (p : Pipe T) : Prop where
  taken_le : p.taken ≤ p.visible
  visible_le : p.visible ≤ p.completed
  completed_le : p.completed ≤ p.items.length
  asleep : p.asleep = true → p.taken = p.visible

/-- What an event can be, by its call and answer. -/
inductive Step (p : Pipe T) : Event T → Pipe T → Prop where
  | write (value : T) (incomplete : Bool) :
      Step p (.write value incomplete) (p.write value incomplete)
  | tookBack {value : T} (some : p.completed < p.items.length)
      (last : p.items.getLast? = Option.some value) :
      Step p (.unwrite (Option.some value)) { p with items := p.items.dropLast }
  | complete (none : p.items.length ≤ p.completed) : Step p (.unwrite Option.none) p
  | nothing (same : p.visible = p.completed) : Step p (.flush true) p
  | handed (other : p.visible ≠ p.completed) :
      Step p (.flush (!p.asleep)) { p with visible := p.completed, asleep := false }
  | ready (some : p.taken < p.visible) : Step p (.check true) p
  | notReady (none : p.taken = p.visible) : Step p (.check false) { p with asleep := true }
  | took {value : T} (some : p.taken < p.visible) (item : p.items[p.taken]? = Option.some value) :
      Step p (.read (Option.some value)) { p with taken := p.taken + 1 }
  | tookNone (none : p.taken = p.visible) :
      Step p (.read Option.none) { p with asleep := true }

variable {p p' : Pipe T} {e : Event T}

theorem Lawful.step_cases (h : Lawful p) (answers : p.Answers e p') : Step p e p' := by
  obtain ⟨taken, visible, completed, -⟩ := h
  cases e with
  | write value incomplete =>
    obtain rfl := answers
    exact .write value incomplete
  | unwrite result =>
    by_cases some : p.completed < p.items.length
    · obtain ⟨rfl, rfl⟩ := Prod.mk.inj ((if_pos some).symm.trans answers)
      obtain ⟨last, hlast⟩ : ∃ v, p.items.getLast? = Option.some v :=
        Option.isSome_iff_exists.mp (List.getLast?_isSome.mpr (List.ne_nil_of_length_pos (by omega)))
      rw [hlast]
      exact .tookBack some hlast
    · obtain ⟨rfl, rfl⟩ := Prod.mk.inj ((if_neg some).symm.trans answers)
      exact .complete (Nat.le_of_not_lt some)
  | flush ok =>
    by_cases same : p.visible = p.completed
    · obtain ⟨rfl, rfl⟩ := Prod.mk.inj ((if_pos same).symm.trans answers)
      exact .nothing same
    · obtain ⟨rfl, rfl⟩ := Prod.mk.inj ((if_neg same).symm.trans answers)
      exact .handed same
  | check ok =>
    by_cases some : p.taken < p.visible
    · obtain ⟨rfl, rfl⟩ := Prod.mk.inj ((if_pos some).symm.trans answers)
      exact .ready some
    · obtain ⟨rfl, rfl⟩ := Prod.mk.inj ((if_neg some).symm.trans answers)
      exact .notReady (Nat.le_antisymm taken (Nat.le_of_not_lt some))
  | read result =>
    by_cases some : p.taken < p.visible
    · obtain ⟨rfl, rfl⟩ := Prod.mk.inj ((if_pos some).symm.trans answers)
      have inside : p.taken < p.items.length := by omega
      rw [List.getElem?_eq_getElem inside]
      exact .took some (List.getElem?_eq_getElem inside)
    · obtain ⟨rfl, rfl⟩ := Prod.mk.inj ((if_neg some).symm.trans answers)
      exact .tookNone (Nat.le_antisymm taken (Nat.le_of_not_lt some))

theorem Step.answers (step : Step p e p') : p.Answers e p' := by
  cases step with
  | write value incomplete => rfl
  | tookBack some last => exact (if_pos some).trans (by rw [last])
  | complete none => exact if_neg (Nat.not_lt.mpr none)
  | nothing same => exact if_pos same
  | handed other => exact if_neg other
  | ready some => exact if_pos some
  | notReady none => exact if_neg (Nat.not_lt.mpr (Nat.le_of_eq none.symm))
  | took some item => exact (if_pos some).trans (by rw [item])
  | tookNone none => exact if_neg (Nat.not_lt.mpr (Nat.le_of_eq none.symm))

theorem Lawful.step (h : Lawful p) (step : Step p e p') : Lawful p' := by
  obtain ⟨taken, visible, completed, asleep⟩ := h
  cases step with
  | write value incomplete =>
    refine ⟨taken, ?_, ?_, asleep⟩
    · cases incomplete with
      | true => exact visible
      | false => exact Nat.le_succ_of_le (Nat.le_trans visible completed)
    · rw [Pipe.write, List.length_append, List.length_singleton]
      cases incomplete with
      | true => exact Nat.le_succ_of_le completed
      | false => exact Nat.le_refl _
  | tookBack some =>
    refine ⟨taken, visible, ?_, asleep⟩
    rw [List.length_dropLast]
    exact Nat.le_sub_one_of_lt some
  | complete | nothing | ready => exact ⟨taken, visible, completed, asleep⟩
  | handed =>
    exact ⟨Nat.le_trans taken visible, Nat.le_refl _, completed, fun wrong => by cases wrong⟩
  | notReady none | tookNone none => exact ⟨taken, visible, completed, fun _ => none⟩
  | took some =>
    exact ⟨some, visible, completed, fun sleeps => absurd (asleep sleeps) (Nat.ne_of_lt some)⟩

/-- After a flush every complete item is handed over. -/
theorem Lawful.flush_answers (h : Lawful p) {ok : Bool} (answers : p.Answers (.flush ok) p') :
    p'.items = p.items ∧ p'.completed = p.completed ∧ p'.taken = p.taken ∧
      p'.visible = p.completed := by
  cases h.step_cases answers with
  | nothing same => exact ⟨rfl, rfl, rfl, same⟩
  | handed => exact ⟨rfl, rfl, rfl, rfl⟩

/-- A read takes the oldest item, or there is none. -/
theorem Lawful.read_answers (h : Lawful p) {result : Option T} (answers : p.Answers (.read result) p') :
    p'.items = p.items ∧ p'.completed = p.completed ∧ p'.visible = p.visible ∧
      ((∃ value, result = some value ∧ p.items[p.taken]? = some value ∧ p.taken < p.visible ∧
          p'.taken = p.taken + 1) ∨
        (result = none ∧ p.taken = p.visible ∧ p'.taken = p.taken)) := by
  cases h.step_cases answers with
  | took some item => exact ⟨rfl, rfl, rfl, Or.inl ⟨_, rfl, item, some, rfl⟩⟩
  | tookNone none => exact ⟨rfl, rfl, rfl, Or.inr ⟨rfl, none, rfl⟩⟩

/-! ### The histories of a pipe -/

/-- The items in the pipe, as the writer's calls leave them. -/
def recount (items : List T) : Event T → List T
  | .write value _ => items ++ [value]
  | .unwrite (some _) => items.dropLast
  | _ => items

def written (h : List (Event T)) : List T := h.foldl recount []

/-- The value that the reader got, if this was a read that returned one. -/
def Event.value : Event T → Option T
  | .read result => result
  | _ => none

/-- The values that reads returned, in order. -/
def reads (h : List (Event T)) : List T := h.filterMap Event.value

variable {h : List (Event T)}

theorem written_concat : written (h ++ [e]) = recount (written h) e := by
  rw [written, List.foldl_append]
  rfl

theorem reads_concat : reads (h ++ [e]) = reads h ++ e.value.toList := by
  rw [reads, List.filterMap_append, ← reads]
  congr 1

theorem history_lawful (history : (pipe T).History h p) : Lawful p :=
  history.invariant (P := fun _ => Lawful) ⟨Nat.le_refl _, Nat.le_refl _, Nat.le_refl _, fun _ => rfl⟩
    fun _ _ _ _ _ lawful answers => lawful.step (lawful.step_cases answers)

/-- What was read is a prefix of what was written: no item is lost, repeated or read out of
order, and none that was taken back. -/
theorem history_reads (history : (pipe T).History h p) :
    p.items = written h ∧ reads h = p.items.take p.taken := by
  refine history.invariant (P := fun h p => p.items = written h ∧ reads h = p.items.take p.taken)
    ⟨rfl, rfl⟩ ?_
  rintro h p e p' earlier ⟨items, read⟩ answers
  have lawful := history_lawful earlier
  have inside : p.taken ≤ p.items.length :=
    Nat.le_trans lawful.taken_le (Nat.le_trans lawful.visible_le lawful.completed_le)
  have step := lawful.step_cases answers
  rw [written_concat, reads_concat, ← items, read]
  cases step with
  | write value incomplete =>
    exact ⟨rfl, (List.append_nil _).trans (List.take_append_of_le_length inside).symm⟩
  | tookBack some =>
    have before := Nat.le_trans lawful.taken_le lawful.visible_le
    have kept : p.items.dropLast.take p.taken = p.items.take p.taken := by
      rw [List.dropLast_eq_take, List.take_take, Nat.min_eq_left (by omega)]
    exact ⟨rfl, (List.append_nil _).trans kept.symm⟩
  | complete | nothing | handed | ready | notReady | tookNone => exact ⟨rfl, List.append_nil _⟩
  | took some item =>
    obtain ⟨there, rfl⟩ := List.getElem?_eq_some_iff.mp item
    exact ⟨rfl, (List.take_succ_eq_append_getElem there).symm⟩

/-- A call that told the reader there is nothing to read. -/
def Event.failed : Event T → Bool
  | .read none => true
  | .check false => true
  | _ => false

/-- As long as no flush has answered false after it, there is still nothing to read. -/
theorem history_sleeps (history : (pipe T).History h p) {before after : List (Event T)}
    (split : h = before ++ e :: after) (failed : e.failed = true)
    (silent : ∀ e ∈ after, e ≠ .flush false) : p.asleep = true ∧ p.taken = p.visible := by
  have makes : ∀ h q q', (pipe T).History h q → (pipe T).step q e q' →
      q'.asleep = true ∧ q'.taken = q'.visible := by
    intro h q q' earlier answers
    cases (history_lawful earlier).step_cases answers with
    | write | tookBack | complete | nothing | handed | ready | took => cases failed
    | notReady none | tookNone none => exact ⟨rfl, none⟩
  have keeps : ∀ h q e q', (pipe T).History h q → q.asleep = true ∧ q.taken = q.visible →
      e ≠ .flush false → (pipe T).step q e q' → q'.asleep = true ∧ q'.taken = q'.visible := by
    intro h q e q' earlier sleeps quiet answers
    obtain ⟨asleep, none⟩ := sleeps
    cases (history_lawful earlier).step_cases answers with
    | write | tookBack | complete | nothing => exact ⟨asleep, none⟩
    | handed =>
      rw [asleep] at quiet
      exact absurd rfl quiet
    | ready some | took some => exact absurd none (Nat.ne_of_lt some)
    | notReady none | tookNone none => exact ⟨rfl, none⟩
  exact history.since (fun p => p.asleep = true ∧ p.taken = p.visible) _ makes keeps split silent

end Pipes
