import CppConcurrency.Machines

/-!
# Sequential objects and the machines that answer like them

A sequential object answers one call at a time: an event is a call with its answer, and
the histories of the object are the event lists it can give. A machine that remembers what
its calls returned is linearizable to the object when what it remembers is always one of
the object's histories. The rule for this is a forward simulation: a step either leaves
the object alone or adds one event.
-/

namespace SequentialObjects

open Machines

universe u v w x

structure Object (A : Type u) (E : Type v) where
  start : A
  step : A → E → A → Prop

/-- The events that lead from the start to `a`, in order. -/
inductive Object.History {A : Type u} {E : Type v} (O : Object A E) : List E → A → Prop where
  | nil : History O [] O.start
  | concat {h : List E} {a b : A} {e : E} (before : History O h a) (step : O.step a e b) :
      History O (h ++ [e]) b

variable {A : Type u} {E : Type v} {O : Object A E} {h : List E} {a : A}

/-- What holds at the start and survives each event holds after every history. -/
theorem Object.History.invariant {P : List E → A → Prop} (start : P [] O.start)
    (step : ∀ h a e b, O.History h a → P h a → O.step a e b → P (h ++ [e]) b)
    (history : O.History h a) : P h a := by
  induction history with
  | nil => exact start
  | concat before now ih => exact step _ _ _ _ before ih now

/-- What an event makes true and the events after it keep true is true after them. -/
theorem Object.History.since (P : A → Prop) (kept : E → Prop) {now : E}
    (makes : ∀ h a b, O.History h a → O.step a now b → P b)
    (keeps : ∀ h a e b, O.History h a → P a → kept e → O.step a e b → P b)
    (history : O.History h a) {before after : List E} (split : h = before ++ now :: after)
    (later : ∀ e ∈ after, kept e) : P a := by
  induction history generalizing after with
  | nil => exact absurd (congrArg List.length split) (by simp)
  | @concat h a b e earlier step ih =>
    rcases List.eq_nil_or_concat after with rfl | ⟨after, e', rfl⟩
    · obtain ⟨-, same⟩ := List.append_inj' split rfl
      obtain rfl := List.singleton_inj.mp same
      exact makes h a b earlier step
    · have joined : h ++ [e] = before ++ now :: after ++ [e'] := by simpa using split
      obtain ⟨inner, same⟩ := List.append_inj' joined rfl
      obtain rfl := List.singleton_inj.mp same
      have old : ∀ e ∈ after, kept e := fun e he => later e (by simp [he])
      exact keeps h a e b earlier (ih inner old) (later e (by simp)) step

variable {S : Type w} {L : Type x} {M : Machine S L}

/-- The simulation rule. -/
theorem linearizes (events : S → List E) {R : S → A → Prop} (start : events M.start = [])
    (related : R M.start O.start)
    (step : ∀ s l t a, R s a → M.next s l = some t →
      (events t = events s ∧ R t a) ∨ ∃ e b, events t = events s ++ [e] ∧ O.step a e b ∧ R t b)
    {s : S} (reached : M.Reach s) : ∃ a, O.History (events s) a ∧ R s a := by
  refine reached.invariant (P := fun s => ∃ a, O.History (events s) a ∧ R s a) _
    ⟨O.start, start ▸ .nil, related⟩ ?_
  rintro s l t ⟨a, history, h⟩ - hs
  rcases step s l t a h hs with ⟨same, h'⟩ | ⟨e, b, grown, answered, h'⟩
  · exact ⟨a, same ▸ history, h'⟩
  · exact ⟨b, grown ▸ history.concat answered, h'⟩

end SequentialObjects
