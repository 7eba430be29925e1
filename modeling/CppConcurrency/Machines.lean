import Mathlib.Data.List.Nodup
import Mathlib.Data.Nat.Init

/-!
# Machines stepped by labels

A machine has one start state and a partial `next` function: the label names the
thread that moves and resolves every choice the thread leaves open. Schedules are
lists of labels and are executable. A run is kept with all its states, because
several results speak of an interval of a run rather than of its last state.
Nothing here fixes what the states or the labels are.
-/

namespace Machines

universe u v

/-! Schedules on concrete threads number them, and share these instances. -/

instance neZero_two : @NeZero ℕ Zero.ofOfNat0 2 := ⟨Nat.succ_ne_zero 1⟩

instance neZero_three : @NeZero ℕ Zero.ofOfNat0 3 := ⟨Nat.succ_ne_zero 2⟩

structure Machine (S : Type u) (L : Type v) where
  start : S
  next : S → L → Option S

namespace Machine

variable {S : Type u} {L : Type v} (M : Machine S L)

/-- Execute a schedule; `none` when some label is not enabled where it stands. -/
def exec : S → List L → Option S
  | s, [] => some s
  | s, l :: rest => (M.next s l).bind fun t => exec t rest

/-- States reached from the start by steps that all meet `C`. -/
inductive ReachBy (C : S → L → Prop) : S → Prop where
  | start : ReachBy C M.start
  | next {s t : S} {l : L} (reached : ReachBy C s) (meets : C s l)
      (step : M.next s l = some t) : ReachBy C t

/-- Every state of every run, with no condition on its steps. -/
abbrev Reach : S → Prop := M.ReachBy fun _ _ => True

theorem exec_step {s t : S} {l : L} (h : M.next s l = some t) (rest : List L) :
    M.exec s (l :: rest) = M.exec t rest := by
  simp only [exec, h, Option.bind_some]

theorem exec_append (s : S) (first rest : List L) :
    M.exec s (first ++ rest) = (M.exec s first).bind fun t => M.exec t rest := by
  induction first generalizing s with
  | nil => rfl
  | cons l first ih =>
    simp only [List.cons_append, exec]
    cases M.next s l with
    | none => rfl
    | some t => exact ih t

theorem exec_trans {s t u : S} {first rest : List L} (h : M.exec s first = some t)
    (h' : M.exec t rest = some u) : M.exec s (first ++ rest) = some u := by
  rw [exec_append, h, Option.bind_some, h']

theorem ReachBy.reach {C : S → L → Prop} {s : S} (reached : M.ReachBy C s) : M.Reach s := by
  induction reached with
  | start => exact .start
  | next _ _ step ih => exact ih.next trivial step

/-- The invariant rule: what holds at the start and survives each step that meets
the condition holds wherever such steps lead. -/
theorem ReachBy.invariant {C : S → L → Prop} {P : S → Prop} (start : P M.start)
    (step : ∀ s l t, P s → C s l → M.next s l = some t → P t) {s : S}
    (reached : M.ReachBy C s) : P s := by
  induction reached with
  | start => exact start
  | next _ meets hnext ih => exact step _ _ _ ih meets hnext

/-- What each step keeps, a schedule keeps. -/
theorem exec_invariant {P : S → Prop} (step : ∀ s l t, P s → M.next s l = some t → P t) {s t : S}
    {ls : List L} (now : P s) (h : M.exec s ls = some t) : P t := by
  induction ls generalizing s with
  | nil => exact Option.some.inj h ▸ now
  | cons l rest ih =>
    obtain ⟨r, hr, later⟩ := Option.bind_eq_some_iff.mp h
    exact ih (step s l r now hr) later

/-- A schedule whose labels meet the condition wherever they are taken. -/
theorem reachBy_exec {C : S → L → Prop} {s t : S} {ls : List L} (always : ∀ l ∈ ls, ∀ s, C s l)
    (reached : M.ReachBy C s) (h : M.exec s ls = some t) : M.ReachBy C t := by
  induction ls generalizing s with
  | nil => exact Option.some.inj h ▸ reached
  | cons l rest ih =>
    have later : ∀ l ∈ rest, ∀ s, C s l := fun l hl => always l (List.mem_cons_of_mem _ hl)
    cases hn : M.next s l with
    | none => simp [exec, hn] at h
    | some r =>
      exact ih later (.next reached (always l List.mem_cons_self s) hn) (by simpa [exec, hn] using h)

theorem reach_exec {s t : S} {ls : List L} (reached : M.Reach s) (h : M.exec s ls = some t) : M.Reach t :=
  M.reachBy_exec (fun _ _ _ => trivial) reached h

theorem reach_of_exec {t : S} {ls : List L} (h : M.exec M.start ls = some t) : M.Reach t :=
  M.reachBy_exec (fun _ _ _ => trivial) .start h

/-- A machine that runs as a part of another one: its schedules run there. -/
theorem exec_embed {S' : Type*} {L' : Type*} {N : Machine S' L'} (whole : S → S') (label : L → L')
    (P : L → Prop) (step : ∀ s l, P l → N.next (whole s) (label l) = (M.next s l).map whole) {ls : List L}
    (all : ∀ l ∈ ls, P l) (s : S) :
    N.exec (whole s) (ls.map label) = (M.exec s ls).map whole := by
  induction ls generalizing s with
  | nil => rfl
  | cons l rest ih =>
    have later : ∀ l ∈ rest, P l := fun l hl => all l (List.mem_cons_of_mem _ hl)
    rw [List.map_cons, exec, exec, step s l (all l List.mem_cons_self)]
    cases M.next s l with
    | none => rfl
    | some t => exact ih later t

/-- A schedule that leads from one state to another by steps that all meet `C`. -/
inductive PathBy (C : S → L → Prop) : S → List L → S → Prop where
  | nil {s : S} : PathBy C s [] s
  | cons {s t u : S} {l : L} {rest : List L} (meets : C s l) (step : M.next s l = some t)
      (later : PathBy C t rest u) : PathBy C s (l :: rest) u

namespace PathBy

variable {M} {C : S → L → Prop} {s t u : S} {l : L} {ls rest : List L}

theorem exec (path : M.PathBy C s ls t) : M.exec s ls = some t := by
  induction path with
  | nil => rfl
  | cons _ step _ ih => exact (M.exec_step step _).trans ih

theorem reachBy (path : M.PathBy C s ls t) (reached : M.ReachBy C s) : M.ReachBy C t := by
  induction path with
  | nil => exact reached
  | cons meets step _ ih => exact ih (reached.next meets step)

theorem reach (path : M.PathBy C s ls t) (reached : M.Reach s) : M.Reach t :=
  M.reach_exec reached path.exec

theorem append (path : M.PathBy C s ls t) (later : M.PathBy C t rest u) :
    M.PathBy C s (ls ++ rest) u := by
  induction path with
  | nil => exact later
  | cons meets step _ ih => exact .cons meets step (ih later)

theorem single (meets : C s l) (step : M.next s l = some t) : M.PathBy C s [l] t :=
  .cons meets step .nil

theorem of_exec (always : ∀ l ∈ ls, ∀ s, C s l) (run : M.exec s ls = some t) : M.PathBy C s ls t := by
  induction ls generalizing s with
  | nil => exact Option.some.inj run ▸ .nil
  | cons l rest ih =>
    obtain ⟨r, step, later⟩ := Option.bind_eq_some_iff.mp run
    exact .cons (always l List.mem_cons_self s) step
      (ih (fun l hl => always l (List.mem_cons_of_mem _ hl)) later)

end PathBy

/-- The first `length` steps of a run, with every state and label on the way. -/
structure Run where
  length : ℕ
  state : ℕ → S
  label : ℕ → L
  start : state 0 = M.start
  step : ∀ i, i < length → M.next (state i) (label i) = some (state (i + 1))

namespace Run

variable {M} (run : M.Run)

/-- Each step of the run meets `C` where it is taken. -/
def Meets (C : S → L → Prop) : Prop :=
  ∀ i, i < run.length → C (run.state i) (run.label i)

theorem reachBy {C : S → L → Prop} (meets : run.Meets C) {i : ℕ} (hi : i ≤ run.length) :
    M.ReachBy C (run.state i) := by
  induction i with
  | zero => exact run.start ▸ .start
  | succ i ih => exact .next (ih (by omega)) (meets i hi) (run.step i hi)

theorem reach {i : ℕ} (hi : i ≤ run.length) : M.Reach (run.state i) :=
  run.reachBy (fun _ _ => trivial) hi

/-- What each step can only extend, an interval of the run only extends. -/
theorem monotone {R : S → S → Prop} (refl : ∀ s, R s s)
    (trans : ∀ a b c, R a b → R b c → R a c)
    (step : ∀ s l t, M.next s l = some t → R s t) {i j : ℕ} (hij : i ≤ j)
    (hj : j ≤ run.length) : R (run.state i) (run.state j) := by
  induction j, hij using Nat.le_induction with
  | base => exact refl _
  | succ j hij ih => exact trans _ _ _ (ih (by omega)) (step _ _ _ (run.step j hj))

/-- What holds in a state and did not hold earlier came about in one step, and held since. -/
theorem since {P : S → Prop} {i j : ℕ} (hij : i ≤ j) (before : ¬ P (run.state i))
    (now : P (run.state j)) :
    ∃ m, i ≤ m ∧ m < j ∧ ¬ P (run.state m) ∧ ∀ n, m < n → n ≤ j → P (run.state n) := by
  induction j, hij using Nat.le_induction with
  | base => exact absurd now before
  | succ j hij ih =>
    by_cases already : P (run.state j)
    · obtain ⟨m, him, hmj, fails, holds⟩ := ih already
      refine ⟨m, him, Nat.lt_succ_of_lt hmj, fails, fun n low high => ?_⟩
      rcases Nat.le_succ_iff.mp high with earlier | rfl
      · exact holds n low earlier
      · exact now
    · refine ⟨j, hij, Nat.lt_succ_self j, already, fun n low high => ?_⟩
      obtain rfl : n = j + 1 := by omega
      exact now

/-- What one kind of step brings about for good holds exactly behind a step of this kind. -/
theorem behind_iff {P : S → Prop} {E : S → L → Prop} (start : ¬ P M.start)
    (step : ∀ i, i < run.length →
      (P (run.state (i + 1)) ↔ P (run.state i) ∨ E (run.state i) (run.label i)))
    {j : ℕ} (hj : j ≤ run.length) :
    P (run.state j) ↔ ∃ i, i < j ∧ E (run.state i) (run.label i) := by
  induction j with
  | zero =>
    rw [run.start]
    exact iff_of_false start fun ⟨i, hi, _⟩ => absurd hi (Nat.not_lt_zero i)
  | succ j ih => rw [step j hj, ih (Nat.le_of_succ_le hj), Nat.exists_lt_succ_right]

/-- What the first `i` steps emit, each at most one event. -/
def emitted {E : Type*} (f : S → L → Option E) (i : ℕ) : List E :=
  (List.range i).filterMap fun j => f (run.state j) (run.label j)

theorem emitted_succ {E : Type*} (f : S → L → Option E) (i : ℕ) :
    run.emitted f (i + 1) = run.emitted f i ++ (f (run.state i) (run.label i)).toList := by
  rw [emitted, emitted, List.range_succ, List.filterMap_append]
  congr 1

/-- What a state remembers is what was emitted, each event once, when every step adds
its event and only an event that is new. -/
theorem emitted_once {E : Type*} {f : S → L → Option E} {P : S → E → Prop}
    (start : ∀ e, ¬ P M.start e)
    (step : ∀ i, i < run.length → ∀ e, P (run.state (i + 1)) e ↔
      P (run.state i) e ∨ f (run.state i) (run.label i) = some e)
    (fresh : ∀ i, i < run.length → ∀ e, f (run.state i) (run.label i) = some e →
      ¬ P (run.state i) e) {i : ℕ} (hi : i ≤ run.length) :
    (run.emitted f i).Nodup ∧ ∀ e, e ∈ run.emitted f i ↔ P (run.state i) e := by
  induction i with
  | zero =>
    refine ⟨List.nodup_nil, fun e => ?_⟩
    rw [run.start]
    exact iff_of_false List.not_mem_nil (start e)
  | succ i ih =>
    obtain ⟨nodup, mem⟩ := ih (by omega)
    rw [run.emitted_succ]
    constructor
    · refine List.nodup_append.mpr ⟨nodup, ?_, ?_⟩
      · cases f (run.state i) (run.label i) <;> simp
      · rintro e old _ now rfl
        exact fresh i hi e (Option.mem_toList.mp now) ((mem e).mp old)
    · intro e
      rw [List.mem_append, mem e, Option.mem_toList, step i hi e]

end Run

theorem exec_take_succ {ls : List L} {i : ℕ} (hi : i < ls.length) :
    M.exec M.start (ls.take (i + 1)) =
      (M.exec M.start (ls.take i)).bind fun s => M.next s ls[i] := by
  rw [List.take_succ_eq_append_getElem hi, exec_append]
  congr 1
  funext s
  cases h : M.next s ls[i] <;> simp [exec, h]

theorem exec_take_isSome {ls : List L} (enabled : (M.exec M.start ls).isSome) (i : ℕ) :
    (M.exec M.start (ls.take i)).isSome := by
  rw [← List.take_append_drop i ls, exec_append] at enabled
  cases h : M.exec M.start (ls.take i) with
  | none => simp [h] at enabled
  | some s => rfl

theorem exec_take_append {first : List L} {s : S} (h : M.exec M.start first = some s)
    (rest : List L) (i : ℕ) :
    M.exec M.start ((first ++ rest).take (first.length + i)) = M.exec s (rest.take i) := by
  rw [List.take_length_add_append, exec_append, h, Option.bind_some]

/-- A schedule that executes is a run of its own length. -/
def Run.ofSchedule (fill : L) (ls : List L) (enabled : (M.exec M.start ls).isSome) :
    M.Run where
  length := ls.length
  state i := (M.exec M.start (ls.take i)).getD M.start
  label i := ls.getD i fill
  start := rfl
  step i hi := by
    have now := M.exec_take_isSome enabled i
    have later := M.exec_take_isSome enabled (i + 1)
    rw [M.exec_take_succ hi] at later ⊢
    obtain ⟨s, hs⟩ := Option.isSome_iff_exists.mp now
    simp only [hs, Option.bind_some, Option.getD_some] at later ⊢
    obtain ⟨t, ht⟩ := Option.isSome_iff_exists.mp later
    have label : ls.getD i fill = ls[i] := by simp [List.getD, hi]
    rw [label, ht, Option.getD_some]

end Machine

/-! A history only grows at its end, and its entries are numbered from zero. -/

section Histories

variable {A : Type*} {past : List A} {a x : A} {j : ℕ}

theorem concat_old (a : A) (j : ℕ) (x : A) (found : past[j]? = some x) :
    (past ++ [a])[j]? = some x := by
  obtain ⟨inside, -⟩ := List.getElem?_eq_some_iff.mp found
  rw [List.getElem?_append_left inside]
  exact found

theorem concat_cases (found : (past ++ [a])[j]? = some x) :
    (past[j]? = some x ∧ j < past.length) ∨ (j = past.length ∧ x = a) := by
  by_cases old : j < past.length
  · rw [List.getElem?_append_left old] at found
    exact Or.inl ⟨found, old⟩
  · right
    have inside := (List.getElem?_eq_some_iff.mp found).1
    rw [List.length_append, List.length_singleton] at inside
    obtain rfl : j = past.length := by omega
    rw [List.getElem?_concat_length] at found
    exact ⟨rfl, (Option.some.inj found).symm⟩

/-- What holds of every numbered entry, and of the next one, holds of every entry. -/
theorem concat_forall {P : ℕ → A → Prop} (old : ∀ (j : ℕ) x, past[j]? = some x → P j x)
    (new : P past.length a) (j : ℕ) (x : A) (found : (past ++ [a])[j]? = some x) : P j x := by
  rcases concat_cases found with ⟨before, -⟩ | ⟨rfl, rfl⟩
  · exact old j x before
  · exact new

end Histories

end Machines
