import CppConcurrency.YpipeSafety

/-!
# The calls of `ypipe_t` from their first step to their return

What a program that uses the pipe has to know: until a call returns, its steps leave the
pipe of the specification alone, and the return is answered by that pipe. The steps of one
side leave the call of the other side alone.
-/

namespace Ypipe

open Pipes SequentialObjects

universe u

variable {T : Type u} {N : ℕ} {s s' : State T} {p p' : Pipe T} {e : Event T}

/-- Inside `flush`. -/
def Writer.inFlush : Writer T → Bool
  | .exchanges | .sets => true
  | _ => false

/-- Inside `read`. -/
def Reader.inRead : Reader T → Bool
  | .exchanges reading => reading
  | .takes | .pops _ => true
  | .rests => false

/-- The call has not returned. -/
def GoesOn (N : ℕ) (s s' : State T) (p : Pipe T) : Prop :=
  s'.history = s.history ∧ Inv N s' p

/-- The call has returned with this answer, and the pipe goes on as `p'`. -/
def Returns (N : ℕ) (s s' : State T) (p : Pipe T) (e : Event T) (p' : Pipe T) : Prop :=
  s'.history = s.history ++ [e] ∧ p.Answers e p' ∧ Inv N s' p'

theorem Simulates.goesOn (simulates : Simulates N s s' p) (same : s'.history = s.history) :
    GoesOn N s s' p := by
  rcases simulates with silent | ⟨e, p', grown, -⟩
  · exact silent
  · exact absurd (same.symm.trans grown) (by simp)

theorem Simulates.returns (simulates : Simulates N s s' p) (grown : s'.history = s.history ++ [e]) :
    ∃ p', Returns N s s' p e p' := by
  rcases simulates with ⟨same, -⟩ | ⟨e', p', grown', answered, h⟩
  · exact absurd (same.symm.trans grown) (by simp)
  · obtain rfl : e' = e := by simpa using grown'.symm.trans grown
    exact ⟨p', grown, answered, h⟩

/-- A step that a thread can take, by the rule of the machine. -/
theorem Inv.moves (positive : 1 ≤ N) (h : Inv N s p) {l : Label T} (called : enabled s l = true) :
    ∃ s', next N s l = some s' ∧ Ypipe.perform N s l = some s' ∧ Simulates N s s' p := by
  obtain ⟨s', step, simulates⟩ := h.perform positive called
  exact ⟨s', (if_pos called).trans step, step, simulates⟩

/-! ### Calls of the writer -/

theorem write_begins (positive : 1 ≤ N) (h : Inv N s p) (rests : s.writer = .rests) (value : T)
    (incomplete : Bool) : ∃ s', next N s (.write value incomplete) = some s' ∧
      s'.reader = s.reader ∧ s'.writer = .pushes value incomplete ∧ GoesOn N s s' p := by
  obtain ⟨s', moved, step, simulates⟩ := h.moves (l := .write value incomplete) positive
    (by rw [enabled, rests]; rfl)
  obtain ⟨q, -, rfl⟩ := Option.map_eq_some_iff.mp step
  exact ⟨_, moved, rfl, rfl, simulates.goesOn rfl⟩

theorem write_goesOn (positive : 1 ≤ N) (h : Inv N s p) {value : T} {incomplete : Bool}
    (now : s.writer = .pushes value incomplete) : ∃ s', next N s .writerStep = some s' ∧
      s'.reader = s.reader ∧ (s'.writer = .pushes value incomplete ∧ GoesOn N s s' p ∨
        s'.writer = .rests ∧ ∃ p', Returns N s s' p (.write value incomplete) p') := by
  obtain ⟨s', moved, step, simulates⟩ := h.moves (l := .writerStep) positive
    (by rw [enabled, now]; rfl)
  simp only [perform, advanceWriter, now] at step
  obtain ⟨q, -, made⟩ := Option.map_eq_some_iff.mp step
  refine ⟨s', moved, ?_⟩
  by_cases ended : q.threads.writer = .rests
  · obtain rfl := (if_pos ended).symm.trans made
    exact ⟨rfl, Or.inr ⟨rfl, simulates.returns rfl⟩⟩
  · obtain rfl := (if_neg ended).symm.trans made
    exact ⟨rfl, Or.inl ⟨rfl, simulates.goesOn rfl⟩⟩

theorem flush_begins (positive : 1 ≤ N) (h : Inv N s p) (rests : s.writer = .rests) :
    ∃ s', next N s .flush = some s' ∧ s'.reader = s.reader ∧
      (s'.writer.inFlush = true ∧ GoesOn N s s' p ∨
        s'.writer = .rests ∧ ∃ ok p', Returns N s s' p (.flush ok) p') := by
  obtain ⟨s', moved, step, simulates⟩ := h.moves (l := .flush) positive (by rw [enabled, rests]; rfl)
  have made : flush s = s' := Option.some.inj step
  refine ⟨s', moved, ?_⟩
  by_cases nothing : s.w = s.f
  · obtain rfl := (if_pos nothing).symm.trans made
    exact ⟨rfl, Or.inr ⟨rfl, _, simulates.returns rfl⟩⟩
  · obtain rfl := (if_neg nothing).symm.trans made
    exact ⟨rfl, Or.inl ⟨rfl, simulates.goesOn rfl⟩⟩

theorem flush_goesOn (positive : 1 ≤ N) (h : Inv N s p) (now : s.writer.inFlush = true) :
    ∃ s', next N s .writerStep = some s' ∧ s'.reader = s.reader ∧
      (s'.writer.inFlush = true ∧ GoesOn N s s' p ∨
        s'.writer = .rests ∧ ∃ ok p', Returns N s s' p (.flush ok) p') := by
  obtain ⟨s', moved, step, simulates⟩ := h.moves (l := .writerStep) positive (by
    cases stage : s.writer with
    | exchanges | sets => simp only [enabled, stage, Writer.atRest, Bool.not_false]
    | rests | pushes | unpushes | takesBack => simp [stage, Writer.inFlush] at now)
  refine ⟨s', moved, ?_⟩
  cases stage : s.writer with
  | rests | pushes | unpushes | takesBack => simp [stage, Writer.inFlush] at now
  | exchanges =>
    simp only [perform, advanceWriter, stage, Option.some.injEq] at step
    by_cases awake : s.c = some s.w
    · obtain rfl := (if_pos awake).symm.trans step
      exact ⟨rfl, Or.inr ⟨rfl, _, simulates.returns rfl⟩⟩
    · obtain rfl := (if_neg awake).symm.trans step
      exact ⟨rfl, Or.inl ⟨rfl, simulates.goesOn rfl⟩⟩
  | sets =>
    simp only [perform, advanceWriter, stage, Option.some.injEq] at step
    obtain rfl := step
    exact ⟨rfl, Or.inr ⟨rfl, _, simulates.returns rfl⟩⟩

/-! ### Calls of the reader -/

theorem read_begins (positive : 1 ≤ N) (h : Inv N s p) (rests : s.reader = .rests) :
    ∃ s', next N s .read = some s' ∧ s'.writer = s.writer ∧ s'.reader.inRead = true ∧
      GoesOn N s s' p := by
  obtain ⟨s', moved, step, simulates⟩ := h.moves (l := .read) positive (by rw [enabled, rests]; rfl)
  have made : checkRead s true = s' := Option.some.inj step
  refine ⟨s', moved, ?_⟩
  by_cases fetched : some s.front ≠ s.r ∧ s.r ≠ none
  · obtain rfl := (if_pos fetched).symm.trans made
    exact ⟨rfl, rfl, simulates.goesOn rfl⟩
  · obtain rfl := (if_neg fetched).symm.trans made
    exact ⟨rfl, rfl, simulates.goesOn rfl⟩

theorem read_goesOn (positive : 1 ≤ N) (h : Inv N s p) (now : s.reader.inRead = true) :
    ∃ s', next N s .readerStep = some s' ∧ s'.writer = s.writer ∧
      (s'.reader.inRead = true ∧ GoesOn N s s' p ∨
        s'.reader = .rests ∧ ∃ result p', Returns N s s' p (.read result) p') := by
  obtain ⟨s', moved, step, simulates⟩ := h.moves (l := .readerStep) positive (by
    cases stage : s.reader with
    | exchanges | takes | pops => simp only [enabled, stage, Reader.atRest, Bool.not_false]
    | rests => simp [stage, Reader.inRead] at now)
  refine ⟨s', moved, ?_⟩
  cases stage : s.reader with
  | rests => simp [stage, Reader.inRead] at now
  | exchanges reading =>
    obtain rfl : reading = true := by simpa only [stage, Reader.inRead] using now
    simp only [perform, advanceReader, stage, Option.some.injEq] at step
    by_cases nothing : some s.front = s.c ∨ s.c = none
    · obtain rfl := (if_pos nothing).symm.trans step
      exact ⟨rfl, Or.inr ⟨rfl, _, simulates.returns rfl⟩⟩
    · obtain rfl := (if_neg nothing).symm.trans step
      exact ⟨rfl, Or.inl ⟨rfl, simulates.goesOn rfl⟩⟩
  | takes =>
    simp only [perform, advanceReader, stage] at step
    obtain ⟨value, -, rfl⟩ := Option.map_eq_some_iff.mp step
    exact ⟨rfl, Or.inl ⟨rfl, simulates.goesOn rfl⟩⟩
  | pops value =>
    simp only [perform, advanceReader, stage] at step
    obtain ⟨q, -, made⟩ := Option.map_eq_some_iff.mp step
    by_cases ended : q.threads.reader = .rests
    · obtain rfl := (if_pos ended).symm.trans made
      exact ⟨rfl, Or.inr ⟨rfl, _, simulates.returns rfl⟩⟩
    · obtain rfl := (if_neg ended).symm.trans made
      exact ⟨rfl, Or.inl ⟨rfl, simulates.goesOn rfl⟩⟩

end Ypipe
