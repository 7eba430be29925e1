import CppConcurrency.LockFreeQueueRefusals
import CppConcurrency.LockFreeQueueDestructor

/-!
# Exceptions of the element type in `LockFreeQueueCpp11`

The copy constructor in `push` and the copy assignment in `pop` run between the
compare-exchange and the store to the slot's sequence number, and nothing catches what they
throw. The ticket is used up then. A push leaves a hole, which no pop passes, and a pop
leaves a slot that never becomes ready for the next lap. What the queue still does after
any number of exceptions is what a damaged list does: it has holes among its elements, and
the room that is left for pushes shrinks for good.
-/

namespace LockFreeQueue

open Machines WordCounters TicketRings LockFreeQueueCpp11

universe u v

variable {Tid : Type v} {T : Type u} {k : ℕ}

/-- The call stands in front of the copy constructor or the copy assignment of `T`. -/
def Call.mayThrow : Call T → Bool
  | .pushConstruct _ _ | .popCopy _ => true
  | _ => false

/-- `drive` for a call in which the element type throws when it is asked to copy. The call
ends there, with no result. -/
def driveThrowing (throws : Bool) (q : LockFreeQueueCpp11 T) :
    Call T → List Bool → Option (LockFreeQueueCpp11 T × Option (Call T))
  | call, [] =>
    if call.atRest then some (q, some call)
    else if throws && call.mayThrow then some (q, none)
    else none
  | call, spurious :: rest =>
    if call.atRest then some (q, some call)
    else if throws && call.mayThrow then some (q, none)
    else driveThrowing throws (advance q spurious call).1 (advance q spurious call).2 rest

/-- Calls made one after the other, any of which may throw. -/
def runThrowing (q : LockFreeQueueCpp11 T) :
    List (Op T × Bool × List Bool) → Option (List (Option (Call T)) × LockFreeQueueCpp11 T)
  | [] => some ([], q)
  | (op, throws, flags) :: rest =>
    (driveThrowing throws q op.invoke flags).bind fun (q', outcome) =>
      (runThrowing q' rest).map fun (later, q'') => (outcome :: later, q'')

/-- A call on the damaged list, with the state it returns in, or `none` if it throws. -/
def damaged (d : Damaged T) (throws : Bool) : Op T → Damaged T × Option (Call T)
  | .push data =>
    if d.room = 0 then (d, some (.pushReturn false))
    else if throws then ({ d with items := d.items ++ [none], room := d.room - 1 }, none)
    else
      ({ d with items := d.items ++ [some data], room := d.room - 1 }, some (.pushReturn true))
  | .pop =>
    match d.items with
    | some value :: rest =>
      if throws then ({ d with items := rest, stuck := true }, none)
      else
        ({ d with items := rest, room := if d.stuck then d.room else d.room + 1 },
          some (.popReturn true (some value)))
    | _ => (d, some (.popReturn false none))

def damagedRun : Damaged T → List (Op T × Bool) → List (Option (Call T)) × Damaged T
  | d, [] => ([], d)
  | d, (op, throws) :: rest =>
    let later := damagedRun (damaged d throws op).1 rest
    ((damaged d throws op).2 :: later.1, later.2)

/-! ### Calls that may throw -/

section Drive

variable {q q' : LockFreeQueueCpp11 T} {outcome : Option (Call T)}

theorem driveThrowing_atRest {call : Call T} (h : call.atRest = true) (throws : Bool)
    (flags : List Bool) : driveThrowing throws q call flags = some (q, some call) := by
  cases flags <;> simp [driveThrowing, h]

theorem driveThrowing_calm (q : LockFreeQueueCpp11 T) (call : Call T) (flags : List Bool) :
    driveThrowing false q call flags = (drive q call flags).map fun r => (r.1, some r.2) := by
  induction flags generalizing q call with
  | nil => cases rest : call.atRest <;> simp [driveThrowing, drive, rest]
  | cons spurious flags ih =>
    cases rest : call.atRest with
    | true => simp [driveThrowing, drive, rest]
    | false => simpa [driveThrowing, drive, rest] using ih _ _

theorem drive_of_calm {call : Call T} {flags : List Bool}
    (h : driveThrowing false q call flags = some (q', outcome)) :
    ∃ call', drive q call flags = some (q', call') ∧ outcome = some call' := by
  rw [driveThrowing_calm] at h
  obtain ⟨⟨_, call'⟩, calm, ⟨⟩⟩ := Option.map_eq_some_iff.mp h
  exact ⟨call', calm, rfl⟩

/-- An exception only cuts a call short: with flags that take the call to its return, the
call that may throw comes to an end too. -/
theorem driveThrowing_ends {call : Call T} {flags : List Bool}
    (returns : (drive q call flags).isSome = true) (throws : Bool) :
    (driveThrowing throws q call flags).isSome = true := by
  induction flags generalizing q call with
  | nil =>
    cases rest : call.atRest with
    | true => simp [driveThrowing, rest]
    | false => simp [drive, rest] at returns
  | cons spurious flags ih =>
    cases rest : call.atRest with
    | true => simp [driveThrowing, rest]
    | false =>
      have later : (drive (advance q spurious call).1 (advance q spurious call).2 flags).isSome =
          true := by simpa [drive, rest] using returns
      cases thrown : throws && call.mayThrow with
      | true => simp [driveThrowing, rest, thrown]
      | false => simpa [driveThrowing, rest, thrown] using ih later

/-- A push that is refused copies nothing. -/
theorem driveThrowing_push_full {data : T} {throws : Bool} (full : (q.node q.tail).tail ≠ q.tail)
    (flags : List Bool)
    (h : driveThrowing throws q (.pushTest data q.tail) flags = some (q', outcome)) :
    q' = q ∧ outcome = some (.pushReturn false) := by
  cases flags with
  | nil => simp [driveThrowing, Call.atRest, Call.mayThrow] at h
  | cons spurious rest =>
    simp only [driveThrowing, Call.atRest, Call.mayThrow, advance, if_pos full, Bool.and_false,
      Bool.false_eq_true, if_false] at h
    rw [driveThrowing_atRest rfl] at h
    simpa [eq_comm] using h

theorem driveThrowing_pop_empty {throws : Bool} (empty : (q.node q.head).head ≠ q.head)
    (flags : List Bool) (h : driveThrowing throws q (.popTest q.head) flags = some (q', outcome)) :
    q' = q ∧ outcome = some (.popReturn false none) := by
  cases flags with
  | nil => simp [driveThrowing, Call.atRest, Call.mayThrow] at h
  | cons spurious rest =>
    simp only [driveThrowing, Call.atRest, Call.mayThrow, advance, if_pos empty, Bool.and_false,
      Bool.false_eq_true, if_false] at h
    rw [driveThrowing_atRest rfl] at h
    simpa [eq_comm] using h

/-- A push that throws has claimed its ticket and done nothing else. -/
theorem driveThrowing_push_ready {data : T} (ready : (q.node q.tail).tail = q.tail)
    (flags : List Bool) :
    (driveThrowing true q (.pushTest data q.tail) flags = some (q', outcome) →
      q' = { q with tail := q.tail + 1 } ∧ outcome = none) ∧
    (driveThrowing true q (.pushClaim data q.tail) flags = some (q', outcome) →
      q' = { q with tail := q.tail + 1 } ∧ outcome = none) := by
  induction flags with
  | nil =>
    constructor
    · intro h
      simp [driveThrowing, Call.atRest, Call.mayThrow] at h
    · intro h
      simp [driveThrowing, Call.atRest, Call.mayThrow] at h
  | cons spurious rest ih =>
    constructor
    · intro h
      apply ih.2
      simpa [driveThrowing, Call.atRest, Call.mayThrow, advance, ready] using h
    · intro h
      cases spurious with
      | true =>
        apply ih.1
        simpa [driveThrowing, Call.atRest, Call.mayThrow, advance] using h
      | false =>
        cases rest with
        | nil => simpa [driveThrowing, Call.atRest, Call.mayThrow, advance, eq_comm] using h
        | cons => simpa [driveThrowing, Call.atRest, Call.mayThrow, advance, eq_comm] using h

theorem driveThrowing_pop_ready (ready : (q.node q.head).head = q.head) (flags : List Bool) :
    (driveThrowing true q (.popTest q.head) flags = some (q', outcome) →
      q' = { q with head := q.head + 1 } ∧ outcome = none) ∧
    (driveThrowing true q (.popClaim q.head) flags = some (q', outcome) →
      q' = { q with head := q.head + 1 } ∧ outcome = none) := by
  induction flags with
  | nil =>
    constructor
    · intro h
      simp [driveThrowing, Call.atRest, Call.mayThrow] at h
    · intro h
      simp [driveThrowing, Call.atRest, Call.mayThrow] at h
  | cons spurious rest ih =>
    constructor
    · intro h
      apply ih.2
      simpa [driveThrowing, Call.atRest, Call.mayThrow, advance, ready] using h
    · intro h
      cases spurious with
      | true =>
        apply ih.1
        simpa [driveThrowing, Call.atRest, Call.mayThrow, advance] using h
      | false =>
        cases rest with
        | nil => simpa [driveThrowing, Call.atRest, Call.mayThrow, advance, eq_comm] using h
        | cons => simpa [driveThrowing, Call.atRest, Call.mayThrow, advance, eq_comm] using h

end Drive

section Simulation

variable {q q' : LockFreeQueueCpp11 T} {d : Damaged T} {throws : Bool} {flags : List Bool}
  {outcome : Option (Call T)}

/-- One call does to the queue and returns what it does to the damaged list. -/
theorem driveThrowing_damaged (h : Damages k q d) (op : Op T)
    (hd : driveThrowing throws q op.invoke flags = some (q', outcome)) :
    outcome = (damaged d throws op).2 ∧ Damages k q' (damaged d throws op).1 := by
  cases flags with
  | nil => cases op <;> simp [driveThrowing, Op.invoke, Call.atRest, Call.mayThrow] at hd
  | cons spurious flags =>
    cases op with
    | push data =>
      have hd : driveThrowing throws q (.pushTest data q.tail) flags = some (q', outcome) := by
        simpa [driveThrowing, Op.invoke, Call.atRest, Call.mayThrow, advance] using hd
      by_cases room : d.room = 0
      · have full : (q.node q.tail).tail ≠ q.tail := fun ready => by
          have := h.push_test.mp ready
          omega
        simp only [damaged, if_pos room]
        obtain ⟨rfl, rfl⟩ := driveThrowing_push_full full flags hd
        exact ⟨rfl, h⟩
      · have ready := h.push_test.mpr (Nat.pos_of_ne_zero room)
        obtain ⟨hole, element⟩ := h.push (Nat.pos_of_ne_zero room) data
        simp only [damaged, if_neg room]
        cases throws with
        | true =>
          obtain ⟨rfl, rfl⟩ := (driveThrowing_push_ready ready flags).1 hd
          exact ⟨rfl, hole⟩
        | false =>
          obtain ⟨call, calm, rfl⟩ := drive_of_calm hd
          obtain ⟨rfl, rfl⟩ := (drive_push_ready ready flags).1 calm
          exact ⟨rfl, element⟩
    | pop =>
      have hd : driveThrowing throws q (.popTest q.head) flags = some (q', outcome) := by
        simpa [driveThrowing, Op.invoke, Call.atRest, Call.mayThrow, advance] using hd
      by_cases front : ∃ value rest, d.items = some value :: rest
      · have ready := h.pop_test.mpr front
        obtain ⟨value, rest, front⟩ := front
        obtain ⟨oldest, lost, handed⟩ := h.pop front
        simp only [damaged, front]
        cases throws with
        | true =>
          obtain ⟨rfl, rfl⟩ := (driveThrowing_pop_ready ready flags).1 hd
          exact ⟨rfl, lost⟩
        | false =>
          obtain ⟨call, calm, rfl⟩ := drive_of_calm hd
          obtain ⟨rfl, rfl⟩ := (drive_pop_ready ready flags).1 calm
          exact ⟨by rw [oldest]; rfl, handed⟩
      · have empty : (q.node q.head).head ≠ q.head := fun ready => front (h.pop_test.mp ready)
        have refused : damaged d throws .pop = (d, some (.popReturn false none)) := by
          simp only [damaged]
          split
          · rename_i value rest found
            exact absurd ⟨value, rest, found⟩ front
          · rfl
        rw [refused]
        obtain ⟨rfl, rfl⟩ := driveThrowing_pop_empty empty flags hd
        exact ⟨rfl, h⟩

theorem runThrowing_damaged {ops : List (Op T × Bool × List Bool)} {outcomes : List (Option (Call T))}
    (h : Damages k q d) (ran : runThrowing q ops = some (outcomes, q')) :
    outcomes = (damagedRun d (ops.map fun e => (e.1, e.2.1))).1 ∧
      Damages k q' (damagedRun d (ops.map fun e => (e.1, e.2.1))).2 := by
  induction ops generalizing q d outcomes with
  | nil =>
    obtain ⟨rfl, rfl⟩ := by simpa [runThrowing] using ran
    exact ⟨rfl, h⟩
  | cons first rest ih =>
    obtain ⟨op, throws, flags⟩ := first
    simp only [runThrowing, Option.bind_eq_some_iff, Option.map_eq_some_iff, Prod.exists,
      Prod.mk.injEq] at ran
    obtain ⟨q₁, outcome, hd, later, q₂, hrest, rfl, rfl⟩ := ran
    obtain ⟨rfl, after⟩ := driveThrowing_damaged h op hd
    obtain ⟨rfl, final⟩ := ih after hrest
    exact ⟨rfl, final⟩

end Simulation

/-! ### The destructor -/

/-- The destructor's loop comes to a hole and destroys what was never constructed. -/
theorem destroyLoop_hole {R : TicketRing (2 ^ k)} {q : LockFreeQueueCpp11 T} {n count m : ℕ}
    (ring : OnRing k R q) (last : n + count = R.tail) (near : count ≤ 2 ^ k) (from_n : n ≤ m)
    (below : m < R.tail) (hole : (q.queue (m % 2 ^ k)).data = none) (fuel : ℕ) :
    destroyLoop fuel (BitVec.ofNat 64 n) q = none := by
  induction fuel generalizing n count q with
  | zero =>
    rw [destroyLoop, if_pos (ring.more last near (by omega))]
  | succ fuel ih =>
    rw [destroyLoop, if_pos (ring.more last near (by omega)), ring.node_ofNat]
    cases here : (q.queue (n % 2 ^ k)).data with
    | none => rfl
    | some value =>
      have later : n ≠ m := by
        rintro rfl
        rw [hole] at here
        cases here
      have next : BitVec.ofNat 64 n + 1 = BitVec.ofNat 64 (n + 1) := (BitVec.ofNat_add n 1).symm
      have other : m % 2 ^ k ≠ n % 2 ^ k := by
        intro same
        rcases eq_or_lap same.symm (by omega) with equal | lap <;> omega
      have kept : ((q.storeData (BitVec.ofNat 64 n) none).queue (m % 2 ^ k)).data = none := by
        rw [storeData_data, ring.slot_ofNat, if_neg other]
        exact hole
      have fewer : n + 1 + (count - 1) = R.tail := by omega
      dsimp only
      rw [next, ih (ring.storeData (BitVec.ofNat 64 n) none) fewer (by omega) (by omega) kept]
      rfl

/-- The destructor meets elements only, exactly if no push threw. -/
theorem Slots.destroy_iff {R : TicketRing (2 ^ k)} {q : LockFreeQueueCpp11 T}
    {items : List (Option T)} (h : Slots k R q items) {fuel : ℕ} (enough : 2 ^ k ≤ fuel) :
    (destroy fuel q).isSome = true ↔ none ∉ items := by
  have length := h.length
  have bound := R.tail_le_head_add (Nat.two_pow_pos k)
  rw [destroy, h.ring.head]
  constructor
  · intro loop hole
    obtain ⟨j, found⟩ := List.mem_iff_getElem?.mp hole
    have inside := (List.getElem?_eq_some_iff.mp found).1
    rw [destroyLoop_hole h.ring length.symm (by omega) (Nat.le_add_right R.head j) (by omega)
      (h.item j none found).2] at loop
    cases loop
  · intro noHole
    have live : ∀ m, R.head ≤ m → m < R.tail → (q.queue (m % 2 ^ k)).data.isSome = true := by
      intro m low high
      obtain ⟨x, found⟩ : ∃ x, items[m - R.head]? = some x :=
        ⟨_, List.getElem?_eq_getElem (by omega)⟩
      have data := (h.item _ x found).2
      rw [show R.head + (m - R.head) = m by omega] at data
      rw [data]
      cases x with
      | none => exact absurd (List.mem_of_getElem? found) noHole
      | some value => rfl
    obtain ⟨q', loop, -⟩ := destroyLoop_eq h.ring length.symm (by omega) live
    obtain ⟨more, rfl⟩ : ∃ more, fuel = more + items.length := ⟨fuel - items.length, by omega⟩
    rw [loop more]
    rfl

/-! ### Quiescent states -/

section Quiescent

variable [DecidableEq Tid] {capacity : SizeT}

/-- The elements that were pushed and not popped, oldest first. -/
def contents (s : State Tid T) : List T := (s.pushes.drop s.pops.length).map fun e => e.2.2

omit [DecidableEq Tid] in
theorem Inv.contents_length {R : TicketRing (2 ^ k)} {s : State Tid T} (h : Inv R s) :
    R.tail = R.head + (contents s).length := by
  have order := R.head_le_tail
  have pushes := h.pushes_length
  have pops := h.pops_length
  rw [contents, List.length_map, List.length_drop]
  omega

omit [DecidableEq Tid] in
/-- With no call running the queue is intact. -/
theorem Inv.intact_damages {R : TicketRing (2 ^ k)} {s : State Tid T} (h : Inv R s)
    (stored : Stored k s) (pending : Pending s) (rest : ∀ t, (s.call t).atRest = true) :
    Damages k s.q (.intact (2 ^ k) (contents s)) := by
  have length := h.contents_length
  have bound := R.tail_le_head_add (Nat.two_pow_pos k)
  have pushes := h.pushes_length
  have pops := h.pops_length
  obtain ⟨filled, released⟩ := pending.at_rest rest
  -- a ticket between the counters has its element in its slot
  have waiting : ∀ n, R.head ≤ n → n < R.tail → R.turn (n % 2 ^ k) = n ∧ R.full (n % 2 ^ k) := by
    intro n low high
    have turn := R.turn_waiting (Nat.two_pow_pos k) low high
    refine ⟨turn, ?_⟩
    rcases (h.filled n).mp (filled n (by omega)) with gone | ⟨-, full⟩
    · omega
    · exact full
  refine ⟨R, ⟨h.ring, ?_, ?_, ?_⟩, ⟨R.head, ?_, ?_, rfl⟩⟩
  · rw [Damaged.intact, List.length_map]
    exact length
  · intro j x found
    rw [Damaged.intact, contents, List.map_map, List.getElem?_map, List.getElem?_drop] at found
    obtain ⟨e, sent, rfl⟩ := Option.map_eq_some_iff.mp found
    rw [pops] at sent
    have inside := (List.getElem?_eq_some_iff.mp sent).1
    obtain ⟨turn, full⟩ := waiting (R.head + j) (by omega) (by omega)
    refine ⟨iff_of_true full rfl, ?_⟩
    rw [h.stored _ (Nat.mod_lt _ (Nat.two_pow_pos k)) full (by omega), turn, State.sent, sent]
    rfl
  · intro i hi empty
    rw [← Option.not_isSome_iff_eq_none, stored i hi]
    rintro ⟨n, rfl, constructed, notDestroyed⟩
    rw [(h.at_rest pending rest n).1] at constructed
    rw [(h.at_rest pending rest n).2] at notDestroyed
    exact empty (waiting n (by omega) (by omega)).2
  · change R.tail + (2 ^ k - (contents s).length) = R.head + 2 ^ k
    omega
  · intro i hi
    by_contra behind
    have gone := (h.released _).mp (released (R.turn i) (by omega))
    rw [R.turn_slot i hi] at gone
    omega

/-- After an exception in a call of `op`, calls that do not throw behave like the bounded
list of the elements held before. -/
def Survives (Tid : Type v) [DecidableEq Tid] (T : Type u) (capacity : SizeT) (op : Op T) : Prop :=
  ∀ s, (machine Tid T capacity).Reach s → (∀ t, (s.call t).atRest = true) →
    ∀ flags q, driveThrowing true s.q op.invoke flags = some (q, none) →
    ∀ ops returned q', runCalls q ops = some (returned, q') →
      returned =
        (fifoRun (new (T := T) capacity).capacity.toNat (contents s) (ops.map Prod.fst)).1

/-- Every run of calls, one after the other or overlapping in time, that leaves no call
running, and after it every sequence of calls any of which may throw: the calls do what they
do to a damaged list that begins with the elements pushed and not popped, a further call ends
once its compare-exchange stops failing, and the destructor meets elements only, exactly if
that list has no hole in the end. -/
theorem exceptions_damage_the_queue (pos : 1 ≤ capacity.toNat) (small : capacity.toNat ≤ 2 ^ 63)
    (run : (machine Tid T capacity).Run) (calls : run.Meets Alone ∨ run.Meets Timely)
    {s : State Tid T} (last : s = run.state run.length) (rest : ∀ t, (s.call t).atRest = true)
    {ops : List (Op T × Bool × List Bool)} {outcomes : List (Option (Call T))}
    {q : LockFreeQueueCpp11 T} (ran : runThrowing s.q ops = some (outcomes, q)) :
    let cap := (new (T := T) capacity).capacity.toNat
    let after := damagedRun (.intact cap (contents s)) (ops.map fun e => (e.1, e.2.1))
    outcomes = after.1 ∧
      (∀ (op : Op T) throws n, (driveThrowing throws q op.invoke (patience n)).isSome = true) ∧
      ∀ fuel, cap ≤ fuel → ((destroy fuel q).isSome = true ↔ none ∉ after.2.items) := by
  subst last
  have timely : run.Meets Timely := calls.elim meets_timely id
  obtain ⟨k, hcap, inv⟩ := run_stored pos small timely
  obtain ⟨R, h, stored⟩ := inv run.length le_rfl
  simp only [hcap]
  obtain ⟨same, R', slots, -⟩ :=
    runThrowing_damaged (h.intact_damages stored (run_pending le_rfl) rest) ran
  refine ⟨same, fun op throws n => ?_, fun fuel enough => slots.destroy_iff enough⟩
  exact driveThrowing_ends (drive_patience q op n) throws

end Quiescent

/-- Thread 0 pushes the element 5. -/
def onePush : List (Label (Fin 2) ℕ) := .invoke 0 (.push 5) :: List.replicate 5 (.step 0 false)

def onePushRun : (machine (Fin 2) ℕ 2).Run :=
  .ofSchedule _ (.step 0 false) onePush (by decide +kernel)

/-- A push that throws behind the element 5, and what is left of the queue. -/
def afterHole : List (Op ℕ × Bool × List Bool) :=
  [(.push 6, true, patience 0), (.pop, false, patience 0), (.pop, false, patience 0),
    (.push 7, false, patience 0), (.push 8, false, patience 0)]

theorem exceptions_damage_the_queue_hole :
    ∃ q, runThrowing (onePushRun.state 6).q afterHole =
        some ([none, some (.popReturn true (some 5)), some (.popReturn false none),
          some (.pushReturn true), some (.pushReturn false)], q) ∧
      (∀ throws, (driveThrowing throws q Op.pop.invoke (patience 3)).isSome = true) ∧
      ((destroy 2 q).isSome = true ↔ none ∉ [none, some 7]) := by
  have alone : ∀ i, i < 6 → Alone (onePushRun.state i) (onePushRun.label i) := by decide +kernel
  have last : 6 = onePushRun.length := by decide +kernel
  have rest : ∀ t, ((onePushRun.state 6).call t).atRest = true := by decide +kernel
  have capacity : (new (T := ℕ) 2).capacity.toNat = 2 := by decide +kernel
  have held : contents (onePushRun.state 6) = [5] := by decide +kernel
  obtain ⟨⟨outcomes, q⟩, ran⟩ := Option.isSome_iff_exists.mp
    (show (runThrowing (onePushRun.state 6).q afterHole).isSome = true by decide +kernel)
  obtain ⟨same, ends, loop⟩ := exceptions_damage_the_queue (by decide) (by decide) onePushRun
    (Or.inl fun i hi => alone i (last ▸ hi)) (congrArg onePushRun.state last) rest ran
  rw [capacity, held] at same loop
  exact ⟨q, by rw [ran, same]; rfl, fun throws => ends .pop throws 3, loop 2 le_rfl⟩

/-- A push that throws hides the element that is pushed after it, and a pop that throws
loses the one it claimed. In a run in which a call slept for `2 ^ 64` tickets, a queue that
nobody uses refuses a pop although elements were pushed and not popped. -/
theorem exceptions_are_not_survived :
    ¬ Survives (Fin 2) ℕ 2 (.push 6) ∧ ¬ Survives (Fin 2) ℕ 2 .pop ∧
      ∃ s, (machine (Fin 2) ℕ 1).Reach s ∧ (∀ t, (s.call t).atRest = true) ∧ contents s ≠ [] ∧
        runCalls s.q [(.pop, patience 0)] = some ([.popReturn false none], s.q) := by
  refine ⟨?_, ?_, ?_⟩
  · intro claim
    have start : driveThrowing true (new 2) (Op.push 6).invoke (patience 0) =
        some ({ new 2 with tail := (new (T := ℕ) 2).tail + 1 }, none) := rfl
    obtain ⟨⟨returned, q⟩, ran⟩ := Option.isSome_iff_exists.mp
      (show (runCalls { new 2 with tail := (new (T := ℕ) 2).tail + 1 }
        [(.push 5, patience 0), (.pop, patience 0)]).isSome = true by decide +kernel)
    have shape : (runCalls { new 2 with tail := (new (T := ℕ) 2).tail + 1 }
        [(.push 5, patience 0), (.pop, patience 0)]).map Prod.fst =
        some [.pushReturn true, .popReturn false none] := by decide +kernel
    rw [ran, Option.map_some, Option.some.injEq] at shape
    have same := claim _ .start (fun _ => rfl) _ _ start _ _ _ ran
    rw [show returned = _ from shape] at same
    exact absurd same (by decide +kernel)
  · intro claim
    have reached : (machine (Fin 2) ℕ 2).Reach (onePushRun.state 6) :=
      onePushRun.reach (by decide +kernel)
    have rest : ∀ t, ((onePushRun.state 6).call t).atRest = true := by decide +kernel
    obtain ⟨⟨q, outcome⟩, thrown⟩ := Option.isSome_iff_exists.mp
      (show (driveThrowing true (onePushRun.state 6).q Op.pop.invoke (patience 0)).isSome = true by
        decide +kernel)
    have later : ((driveThrowing true (onePushRun.state 6).q Op.pop.invoke (patience 0)).bind
        fun r => (runCalls r.1 [(.pop, patience 0)]).map fun r' => (r.2, r'.1)) =
        some (none, [.popReturn false none]) := by decide +kernel
    rw [thrown, Option.bind_some] at later
    obtain ⟨⟨returned, q'⟩, ran, same⟩ := Option.map_eq_some_iff.mp later
    obtain ⟨rfl, rfl⟩ := Prod.mk.inj same
    have fifo := claim _ reached rest _ _ thrown _ _ _ ran
    exact absurd fifo (by decide +kernel)
  · obtain ⟨ls, s, reached, failed, rest, -, -, -, -, more⟩ := exec_overrun
    refine ⟨s, (machine (Fin 2) ℕ 1).reach_of_exec reached, rest, ?_, ?_⟩
    · rw [contents, ne_eq, List.map_eq_nil_iff, List.drop_eq_nil_iff]
      omega
    · simp [runCalls, drive, patience, Op.invoke, Call.atRest, advance, failed]

end LockFreeQueue
