import CppConcurrency.LockFreeArrayQueue
import CppConcurrency.Machines

/-!
# `LockFreeArrayQueue` in CAS mode

`Push_CAS` and `Pop_CAS` are cut at their accesses to shared memory: the loads of the two
indices, the compare-exchange, each look at the marker of the slot, the access to the
element and the store of the marker. A pop's `std::move` out of the slot is a read and a
write. `compare_exchange_strong` fails only if the index is another one, and the loop
then loads both indices again. Steps interleave sequentially.
-/

namespace LockFreeArray

open Machines

universe u v

/-- Where a call stands, with its local variables: each state is named after the
access it is about to make. The next index has been computed before the claim. -/
inductive Call (E : Type u) where
  | rest
  | pushLoadWrite (e : E)
  | pushLoadRead (e : E) (write : ℕ)
  | pushClaim (e : E) (write : ℕ)
  | pushWait (e : E) (write : ℕ)
  | pushStore (e : E) (write : ℕ)
  | pushMark (write : ℕ)
  | pushReturn (ok : Bool)
  | popLoadWrite
  | popLoadRead (write : ℕ)
  | popClaim (read : ℕ)
  | popWait (read : ℕ)
  | popTake (read : ℕ)
  | popLeave (read : ℕ) (e : E)
  | popMark (read : ℕ) (e : E)
  | popReturn (e : Option E)
  | undefined

variable {E : Type u}

def Call.atRest : Call E → Bool
  | .rest | .pushReturn _ | .popReturn _ => true
  | _ => false

def Op.invoke : Op E → Call E
  | .push e => .pushLoadWrite e
  | .pop => .popLoadWrite

/-- The marker that the push of an index waits for. -/
def pushMarker (size write : ℕ) : ℤ := if size ≤ write then -((write : ℤ) - size + 1) else 0

/-- The marker that the pop of an index waits for. -/
def popMarker (read : ℕ) : ℤ := read + 1

/-- One step of a running call. -/
def advance (q : LockFreeArrayQueue E) (moved : E → E) : Call E → LockFreeArrayQueue E × Call E
  | .pushLoadWrite e => (q, .pushLoadRead e q.writeIndex)
  | .pushLoadRead e write =>
    if q.isFull write q.readIndex then (q, .pushReturn false)
    else if (increment write).isSome then (q, .pushClaim e write) else (q, .undefined)
  | .pushClaim e write =>
    if q.writeIndex = write then ({ q with writeIndex := write + 1 }, .pushWait e write)
    else (q, .pushLoadWrite e)
  | .pushWait e write =>
    if q.activeQueue (q.transIndex write) ≠ pushMarker q.maxQueueSize write then
      (q, .pushWait e write)
    else (q, .pushStore e write)
  | .pushStore e write => (q.setElement (q.transIndex write) e, .pushMark write)
  | .pushMark write => (q.setActive (q.transIndex write) (write + 1), .pushReturn true)
  | .popLoadWrite => (q, .popLoadRead q.writeIndex)
  | .popLoadRead write =>
    if LockFreeArrayQueue.isEmpty write q.readIndex then (q, .popReturn none)
    else if (increment q.readIndex).isSome then (q, .popClaim q.readIndex) else (q, .undefined)
  | .popClaim read =>
    if q.readIndex = read then ({ q with readIndex := read + 1 }, .popWait read)
    else (q, .popLoadWrite)
  | .popWait read =>
    if q.activeQueue (q.transIndex read) ≠ popMarker read then (q, .popWait read)
    else (q, .popTake read)
  | .popTake read => (q, .popLeave read (q.elementQueue (q.transIndex read)))
  | .popLeave read e => (q.setElement (q.transIndex read) (moved e), .popMark read e)
  | .popMark read e => (q.setActive (q.transIndex read) (-popMarker read), .popReturn (some e))
  | call => (q, call)

/-- Shared memory, the call of each thread, and what happened so far. The history is read
by no step: `pushes` and `pops` list the claims with the index each of them took, `stored`
the indices whose element was written, and `taken` those whose element was read. -/
structure State (Tid : Type v) (E : Type u) where
  q : LockFreeArrayQueue E
  call : Tid → Call E
  pushes : List (ℕ × Tid × E)
  pops : List (ℕ × Tid)
  stored : List ℕ
  taken : List (ℕ × Tid × E)

inductive Label (Tid : Type v) (E : Type u) where
  | invoke (t : Tid) (op : Op E)
  | step (t : Tid)

variable {Tid : Type v} [DecidableEq Tid]

def State.setCall (s : State Tid E) (t : Tid) (call : Call E) : State Tid E :=
  { s with call := Function.update s.call t call }

/-- The history entry of the step that takes `t`'s call to `after`. -/
def record (s : State Tid E) (t : Tid) (after : Call E) : State Tid E :=
  match s.call t, after with
  | .pushClaim e write, .pushWait _ _ => { s with pushes := s.pushes ++ [(write, t, e)] }
  | .pushStore _ write, _ => { s with stored := s.stored ++ [write] }
  | .popClaim read, .popWait _ => { s with pops := s.pops ++ [(read, t)] }
  | .popTake read, .popLeave _ e => { s with taken := s.taken ++ [(read, t, e)] }
  | _, _ => s

def next (moved : E → E) (s : State Tid E) : Label Tid E → Option (State Tid E)
  | .invoke t op => if (s.call t).atRest then some (s.setCall t op.invoke) else none
  | .step t =>
    if (s.call t).atRest then none
    else
      let r := advance s.q moved (s.call t)
      some { (record s t r.2).setCall t r.2 with q := r.1 }

/-- Any number of threads, each making any sequence of calls on one queue. -/
def machine (Tid : Type v) [DecidableEq Tid] (moved : E → E) (q : LockFreeArrayQueue E) :
    Machine (State Tid E) (Label Tid E) where
  start := ⟨q, fun _ => .rest, [], [], [], []⟩
  next := next moved

/-! ### What a step can be -/

/-- The steps that move the call and nothing else. -/
inductive Moves (q : LockFreeArrayQueue E) : Call E → Call E → Prop where
  | pushLoadWrite (e : E) : Moves q (.pushLoadWrite e) (.pushLoadRead e q.writeIndex)
  | pushFull {e : E} {write : ℕ} (full : q.isFull write q.readIndex = true) :
      Moves q (.pushLoadRead e write) (.pushReturn false)
  | pushRoom {e : E} {write : ℕ} (room : q.isFull write q.readIndex = false) :
      Moves q (.pushLoadRead e write) (.pushClaim e write)
  | pushOverflow {e : E} {write : ℕ} : Moves q (.pushLoadRead e write) .undefined
  | pushLost {e : E} {write : ℕ} (other : q.writeIndex ≠ write) :
      Moves q (.pushClaim e write) (.pushLoadWrite e)
  | pushSpin (e : E) (write : ℕ) : Moves q (.pushWait e write) (.pushWait e write)
  | pushReady {e : E} {write : ℕ}
      (marked : q.activeQueue (q.transIndex write) = pushMarker q.maxQueueSize write) :
      Moves q (.pushWait e write) (.pushStore e write)
  | popLoadWrite : Moves q .popLoadWrite (.popLoadRead q.writeIndex)
  | popEmpty {write : ℕ} (empty : LockFreeArrayQueue.isEmpty write q.readIndex = true) :
      Moves q (.popLoadRead write) (.popReturn none)
  | popMore {write : ℕ} (more : LockFreeArrayQueue.isEmpty write q.readIndex = false) :
      Moves q (.popLoadRead write) (.popClaim q.readIndex)
  | popOverflow {write : ℕ} : Moves q (.popLoadRead write) .undefined
  | popLost {read : ℕ} (other : q.readIndex ≠ read) : Moves q (.popClaim read) .popLoadWrite
  | popSpin (read : ℕ) : Moves q (.popWait read) (.popWait read)
  | popReady {read : ℕ} (marked : q.activeQueue (q.transIndex read) = popMarker read) :
      Moves q (.popWait read) (.popTake read)
  | undefined : Moves q .undefined .undefined

inductive Step (moved : E → E) (s : State Tid E) : Label Tid E → State Tid E → Prop where
  | invoke {t : Tid} (rest : (s.call t).atRest = true) (op : Op E) :
      Step moved s (.invoke t op) (s.setCall t op.invoke)
  | move {t : Tid} {call : Call E} (moves : Moves s.q (s.call t) call) :
      Step moved s (.step t) (s.setCall t call)
  | pushClaim {t : Tid} {e : E} {write : ℕ} (hc : s.call t = .pushClaim e write)
      (same : s.q.writeIndex = write) :
      Step moved s (.step t) { s with
        q := { s.q with writeIndex := write + 1 }
        pushes := s.pushes ++ [(write, t, e)]
        call := Function.update s.call t (.pushWait e write) }
  | pushStore {t : Tid} {e : E} {write : ℕ} (hc : s.call t = .pushStore e write) :
      Step moved s (.step t) { s with
        q := s.q.setElement (s.q.transIndex write) e
        stored := s.stored ++ [write]
        call := Function.update s.call t (.pushMark write) }
  | pushMark {t : Tid} {write : ℕ} (hc : s.call t = .pushMark write) :
      Step moved s (.step t) { s with
        q := s.q.setActive (s.q.transIndex write) (write + 1)
        call := Function.update s.call t (.pushReturn true) }
  | popClaim {t : Tid} {read : ℕ} (hc : s.call t = .popClaim read) (same : s.q.readIndex = read) :
      Step moved s (.step t) { s with
        q := { s.q with readIndex := read + 1 }
        pops := s.pops ++ [(read, t)]
        call := Function.update s.call t (.popWait read) }
  | popTake {t : Tid} {read : ℕ} (hc : s.call t = .popTake read) :
      Step moved s (.step t) { s with
        taken := s.taken ++ [(read, t, s.q.elementQueue (s.q.transIndex read))]
        call := Function.update s.call t
          (.popLeave read (s.q.elementQueue (s.q.transIndex read))) }
  | popLeave {t : Tid} {read : ℕ} {e : E} (hc : s.call t = .popLeave read e) :
      Step moved s (.step t) { s with
        q := s.q.setElement (s.q.transIndex read) (moved e)
        call := Function.update s.call t (.popMark read e) }
  | popMark {t : Tid} {read : ℕ} {e : E} (hc : s.call t = .popMark read e) :
      Step moved s (.step t) { s with
        q := s.q.setActive (s.q.transIndex read) (-popMarker read)
        call := Function.update s.call t (.popReturn (some e)) }

theorem next_step {moved : E → E} {s s' : State Tid E} {l : Label Tid E}
    (hs : next moved s l = some s') : Step moved s l s' := by
  cases l with
  | invoke t op =>
    obtain ⟨rest, ⟨⟩⟩ := Option.ite_none_right_eq_some.mp hs
    exact .invoke rest op
  | step t =>
    obtain ⟨running, ⟨⟩⟩ := Option.ite_none_left_eq_some.mp hs
    cases hc : s.call t with
    | rest | pushReturn | popReturn => simp [hc, Call.atRest] at running
    | pushLoadWrite e =>
      simp only [record, advance, hc]
      exact .move (hc ▸ .pushLoadWrite e)
    | pushLoadRead e write =>
      cases full : s.q.isFull write s.q.readIndex with
      | true =>
        simp only [record, advance, hc, full, if_true]
        exact .move (hc ▸ .pushFull full)
      | false =>
        cases fits : (increment write).isSome with
        | true =>
          simp only [record, advance, hc, full, fits, if_true, Bool.false_eq_true, if_false]
          exact .move (hc ▸ .pushRoom full)
        | false =>
          simp only [record, advance, hc, full, fits, Bool.false_eq_true, if_false]
          exact .move (hc ▸ .pushOverflow)
    | pushClaim e write =>
      by_cases same : s.q.writeIndex = write
      · simp only [record, advance, hc, if_pos same]
        exact .pushClaim hc same
      · simp only [record, advance, hc, if_neg same]
        exact .move (hc ▸ .pushLost same)
    | pushWait e write =>
      by_cases marked : s.q.activeQueue (s.q.transIndex write) = pushMarker s.q.maxQueueSize write
      · simp only [record, advance, hc, if_neg (not_not.mpr marked)]
        exact .move (hc ▸ .pushReady marked)
      · simp only [record, advance, hc, if_pos marked]
        exact .move (by rw [hc]; exact .pushSpin e write)
    | pushStore e write =>
      simp only [record, advance, hc]
      exact .pushStore hc
    | pushMark write =>
      simp only [record, advance, hc]
      exact .pushMark hc
    | popLoadWrite =>
      simp only [record, advance, hc]
      exact .move (hc ▸ .popLoadWrite)
    | popLoadRead write =>
      cases empty : LockFreeArrayQueue.isEmpty write s.q.readIndex with
      | true =>
        simp only [record, advance, hc, empty, if_true]
        exact .move (hc ▸ .popEmpty empty)
      | false =>
        cases fits : (increment s.q.readIndex).isSome with
        | true =>
          simp only [record, advance, hc, empty, fits, if_true, Bool.false_eq_true, if_false]
          exact .move (hc ▸ .popMore empty)
        | false =>
          simp only [record, advance, hc, empty, fits, Bool.false_eq_true, if_false]
          exact .move (hc ▸ .popOverflow)
    | popClaim read =>
      by_cases same : s.q.readIndex = read
      · simp only [record, advance, hc, if_pos same]
        exact .popClaim hc same
      · simp only [record, advance, hc, if_neg same]
        exact .move (hc ▸ .popLost same)
    | popWait read =>
      by_cases marked : s.q.activeQueue (s.q.transIndex read) = popMarker read
      · simp only [record, advance, hc, if_neg (not_not.mpr marked)]
        exact .move (hc ▸ .popReady marked)
      · simp only [record, advance, hc, if_pos marked]
        exact .move (by rw [hc]; exact .popSpin read)
    | popTake read =>
      simp only [record, advance, hc]
      exact .popTake hc
    | popLeave read e =>
      simp only [record, advance, hc]
      exact .popLeave hc
    | popMark read e =>
      simp only [record, advance, hc]
      exact .popMark hc
    | undefined =>
      simp only [record, advance, hc]
      exact .move (by rw [hc]; exact .undefined)

end LockFreeArray
