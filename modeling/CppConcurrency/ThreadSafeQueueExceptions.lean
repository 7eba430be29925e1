import CppConcurrency.ThreadSafeQueueFifo

/-!
# Exceptions in the calls of `ThreadSafeQueue`

`push` can throw while it makes the element's copy and its node, before it takes a lock, and
`try_pop(T&)` and `wait_and_pop(T&)` while they assign to the caller's variable, under
`head_mutex`, which unwinding releases. Move operations that throw leave their source
unchanged, and those that succeed leave it as `moved` says. An exception is a step between
the steps of the other calls, and ends its own call.
-/

namespace ThreadSafeQueue

open Machines Threads LinkedChains

universe u v

/-- Where a call can throw: in `std::make_shared` before or while the element is moved, at
`new node`, and while `*head->data` is moved to the caller's variable. -/
inductive Point where
  | makeShared
  | moveConstruct
  | newNode
  | moveAssign
  deriving DecidableEq

/-- What an exception leaves behind. `argument` is what the caller's argument of a push
holds afterwards. -/
structure Thrown (Tid : Type v) (T : Type u) where
  state : State Tid T
  argument : Option T

inductive Event (Tid : Type v) (T : Type u) where
  | run (l : Label Tid T)
  | throw (t : Tid) (point : Point)

section

variable {Tid : Type v} [DecidableEq Tid] {T : Type u} (moved : T → T)

/-- `t` throws at the given point, when it stands there. An exception at `new node`
destroys `new_data`, and with it the element that was moved there. -/
def throwAt (s : State Tid T) (t : Tid) (point : Point) : Option (Thrown Tid T) :=
  match point, s.call t with
  | .makeShared, .pushAlloc data => some ⟨s.setCall t .rest, some data⟩
  | .moveConstruct, .pushAlloc data => some ⟨s.setCall t .rest, some data⟩
  | .newNode, .pushAlloc data => some ⟨s.setCall t .rest, some (moved data)⟩
  | .moveAssign, .copy _ => some ⟨{ s with headMutex := none }.setCall t .rest, none⟩
  | _, _ => none

/-- The queue whose calls may throw. -/
def throwing (Tid : Type v) [DecidableEq Tid] [Fintype Tid] {T : Type u} (moved : T → T) :
    Machine (State Tid T) (Event Tid T) where
  start := (machine Tid T).start
  next
    | s, .run l => next s l
    | s, .throw t point => (throwAt moved s t point).map Thrown.state

/-- The element in the node at the head. -/
def State.first (s : State Tid T) : Option T := (s.head.bind s.heap).bind Node.data

/-- If `t` throws at the given point, the list is the one it was, `t` holds no mutex, and
the element in transit is still in the caller's argument, or at the head of the queue. -/
structure Survives (s : State Tid T) (t : Tid) (point : Point) (thrown : Thrown Tid T) : Prop where
  heap : thrown.state.heap = s.heap
  head : thrown.state.head = s.head
  tail : thrown.state.tail = s.tail
  nodes : ∀ front nodes, Inv front nodes s → Inv front nodes thrown.state
  headMutex : thrown.state.headMutex ≠ some t
  tailMutex : thrown.state.tailMutex ≠ some t
  argument : ∀ data, s.call t = .pushAlloc data → thrown.argument = some data
  first : ∀ pop, s.call t = .copy pop → ∃ value, s.first = some value ∧
    thrown.state.first = some value

variable {moved} {front : Addr} {nodes : List (Addr × T)} {s : State Tid T} {t : Tid}
  {point : Point} {thrown : Thrown Tid T}

/-- What an exception can be: one of a push, which leaves the queue alone, or one of a pop,
which gives its lock back. -/
theorem throwAt_cases (h : throwAt moved s t point = some thrown) :
    (∃ data, s.call t = .pushAlloc data ∧ thrown.state = s.setCall t .rest ∧
        thrown.argument = some (if point = .newNode then moved data else data)) ∨
      ∃ pop, s.call t = .copy pop ∧
        thrown.state = { s with headMutex := none }.setCall t .rest := by
  cases hc : s.call t with
  | pushAlloc data =>
    left
    cases point with
    | makeShared | moveConstruct | newNode =>
      simp only [throwAt, hc] at h
      obtain rfl := Option.some.inj h
      exact ⟨data, rfl, rfl, rfl⟩
    | moveAssign =>
      simp only [throwAt, hc] at h
      cases h
  | copy pop =>
    right
    cases point with
    | moveAssign =>
      simp only [throwAt, hc] at h
      obtain rfl := Option.some.inj h
      exact ⟨pop, rfl, rfl⟩
    | makeShared | moveConstruct | newNode =>
      simp only [throwAt, hc] at h
      cases h
  | _ => cases point <;> simp only [throwAt, hc] at h <;> cases h

/-- An exception ends the call. -/
theorem throwAt_rest (h : throwAt moved s t point = some thrown) :
    thrown.state.call t = .rest := by
  rcases throwAt_cases h with ⟨data, -, state, -⟩ | ⟨pop, -, state⟩
  · rw [state]
    exact Function.update_self ..
  · rw [state]
    exact Function.update_self ..

/-- A thread whose call has ended holds no mutex. -/
theorem Inv.unlocked (h : Inv front nodes s) (rest : s.call t = .rest) :
    s.headMutex ≠ some t ∧ s.tailMutex ≠ some t := by
  constructor
  · intro mine
    have holds := (h.headLock t).mp mine
    rw [rest] at holds
    cases holds
  · intro mine
    have holds := (h.tailLock t).mp mine
    rw [rest] at holds
    cases holds

/-- An exception keeps the invariant, with the same nodes. -/
theorem Inv.throw (h : Inv front nodes s) (thrown_at : throwAt moved s t point = some thrown) :
    Inv front nodes thrown.state := by
  rcases throwAt_cases thrown_at with ⟨data, hc, state, -⟩ | ⟨pop, hc, state⟩
  · rw [state]
    exact h.setCall (by rw [hc]; rfl) (by rw [hc]; rfl) (Or.inl rfl) trivial
  · rw [state]
    have fact := h.facts t
    rw [hc] at fact
    have headLock := h.headLock.release (t := t) (c := .rest) (by rw [hc]; rfl) rfl
    have tailLock := h.tailLock.keep (t := t) (c := .rest) (by rw [hc]; rfl)
    exact h.move headLock tailLock (fun _ _ => rfl) (fun _ => fact.1) h.tail (Or.inl rfl) trivial

/-- The element at the head is the first of the chain. -/
theorem Inv.head_element (h : Inv front nodes s) (head : s.head = some front) {e : Addr × T}
    (he : nodes.head? = some e) : s.first = some e.2 := by
  obtain ⟨c, rest, -, node, -⟩ := h.first he
  rw [State.first, head, Option.bind_some, node]
  rfl

variable [Fintype Tid]

theorem throwing_inv (reached : (throwing Tid moved).Reach s) : ∃ front nodes, Inv front nodes s := by
  refine Machine.ReachBy.invariant (throwing Tid moved)
    (P := fun s => ∃ front nodes, Inv front nodes s) ⟨_, _, start_inv Tid T⟩ ?_ reached
  rintro s e s' ⟨front, nodes, h⟩ - hs
  cases e with
  | run l => exact h.next hs
  | throw t point =>
    obtain ⟨thrown, at_point, rfl⟩ := Option.map_eq_some_iff.mp hs
    exact ⟨front, nodes, h.throw at_point⟩

/-- In every reachable state, also after earlier exceptions, and at every point: nothing is
lost exactly if the exception is not thrown at `new node`, or moving the argument out had
left it as it was. -/
theorem survives_iff (reached : (throwing Tid moved).Reach s)
    (thrown_at : throwAt moved s t point = some thrown) :
    Survives s t point thrown ↔
      (point = .newNode → ∀ data, s.call t = .pushAlloc data → moved data = data) := by
  obtain ⟨front, nodes, h⟩ := throwing_inv reached
  have kept := fun front nodes (h : Inv front nodes s) => h.throw thrown_at
  obtain ⟨headMutex, tailMutex⟩ := (kept front nodes h).unlocked (throwAt_rest thrown_at)
  rcases throwAt_cases thrown_at with ⟨data, hc, state, argument⟩ | ⟨pop, hc, state⟩
  · constructor
    · intro survives atNode data' hc'
      have same := survives.argument data' hc'
      rw [hc] at hc'
      cases hc'
      rw [argument, if_pos atNode] at same
      exact Option.some.inj same
    · intro harmless
      refine ⟨by rw [state]; rfl, by rw [state]; rfl, by rw [state]; rfl, kept, headMutex,
        tailMutex, ?_, ?_⟩
      · intro data' hc'
        rw [argument]
        split
        · rename_i atNode
          rw [harmless atNode data hc]
          rw [hc] at hc'
          cases hc'
          rfl
        · rw [hc] at hc'
          cases hc'
          rfl
      · intro pop hc'
        rw [hc] at hc'
        cases hc'
  · constructor
    · intro _ _ data hc'
      rw [hc] at hc'
      cases hc'
    · intro _
      refine ⟨by rw [state]; rfl, by rw [state]; rfl, by rw [state]; rfl, kept, headMutex,
        tailMutex, ?_, ?_⟩
      · intro data hc'
        rw [hc] at hc'
        cases hc'
      · intro pop' hc'
        have fact := h.facts t
        rw [hc] at fact
        obtain ⟨head, e, he⟩ := fact
        refine ⟨e.2, h.head_element head he, ?_⟩
        rw [state]
        exact h.head_element head he

end

/-- A pop that is about to move the element 5 to its caller's variable. -/
def popsFive : List (Event (Fin 2) ℕ) :=
  [.run (.invoke 0 (.push 5)), .run (.alloc 0 1), .run (.step 0), .run (.step 0), .run (.step 0),
    .run (.step 0), .run (.invoke 1 (.pop .tryPopInto)), .run (.step 1), .run (.step 1),
    .run (.step 1)]

theorem survives_iff_assign :
    ∃ s thrown, (throwing (Fin 2) fun _ => 0).exec (throwing (Fin 2) fun _ => 0).start popsFive =
        some s ∧
      throwAt (fun _ => 0) s 1 .moveAssign = some thrown ∧
      Survives s 1 .moveAssign thrown := by
  let M := throwing (Fin 2) (fun _ : ℕ => 0)
  obtain ⟨s, run⟩ := Option.isSome_iff_exists.mp
    (show (M.exec M.start popsFive).isSome = true by decide)
  have stands : (M.exec M.start popsFive).map (fun s => s.call 1) = some (.copy .tryPopInto) := rfl
  rw [run, Option.map_some, Option.some.injEq] at stands
  have thrown_at : throwAt (fun _ => 0) s 1 .moveAssign =
      some ⟨{ s with headMutex := none }.setCall 1 .rest, none⟩ := by
    simp only [throwAt, stands]
  refine ⟨s, _, run, thrown_at, (survives_iff (M.reach_of_exec run) thrown_at).mpr ?_⟩
  intro wrong
  cases wrong

/-- `new node` throws when the element 5 has been moved out of the caller's argument. -/
theorem push_loses_argument :
    ∃ s thrown, (throwing (Fin 2) fun _ => 0).Reach s ∧
      throwAt (fun _ => 0) s 0 .newNode = some thrown ∧ s.call 0 = .pushAlloc 5 ∧
      thrown.argument = some 0 ∧ ¬ Survives s 0 .newNode thrown := by
  let M := throwing (Fin 2) (fun _ : ℕ => 0)
  let s := M.start.setCall 0 (.pushAlloc 5)
  have run : M.exec M.start [.run (.invoke 0 (.push 5))] = some s := rfl
  refine ⟨s, ⟨s.setCall 0 .rest, some 0⟩, M.reach_of_exec run, rfl, rfl, rfl, ?_⟩
  intro survives
  have same := survives.argument 5 rfl
  cases same

end ThreadSafeQueue
