import CppConcurrency.DataChunkQueueBounds
import Mathlib.Data.List.Nodup
import Mathlib.Data.List.Range

/-!
# No chunk of a `zmqQueue` is lost or freed twice

Under any interleaving of a writer and a reader none of whose pushes returns early, no
step is undefined, the positions stay inside the chunks, and each chunk that was ever
allocated is in one place. Where both threads are at rest, the destructor frees what is
left.
-/

namespace DataChunkQueue.Threads

open Machines ZmqQueue

universe u

variable {T : Type u} {N : ℕ} {q : ZmqQueue T} {s s' : State T} {slot : Slot → Pointer}
  {place : ℕ → ℕ} {first last front : ℕ}

/-- A push opens a chunk: it does not return early. -/
def Opens (N : ℕ) (s : State T) : Label → Prop
  | .push => s.queue.endPos + 1 ≠ N
  | _ => True

instance (N : ℕ) (s : State T) : DecidablePred (Opens N s)
  | .push => inferInstanceAs (Decidable (s.queue.endPos + 1 ≠ N))
  | .unpush | .pop | .write | .read => .isTrue trivial

/-- `chunks` are the chunks from `begin_chunk` to `end_chunk`, each linked to the next. -/
structure ListOf (q : ZmqQueue T) (chunks : List ℕ) : Prop where
  begins : chunks.head?.map Pointer.to = some q.beginChunk
  ends : chunks.getLast?.map Pointer.to = some q.endChunk
  links : chunks.IsChain fun c d => ∃ k, q.heap c = some k ∧ k.next = .to d
  nodup : chunks.Nodup

/-- Where a chunk can be: in the list, behind a pointer outside it, or freed. -/
inductive Place where
  | list
  | slot (x : Slot)
  | freed

def IsAt (s : State T) (chunks : List ℕ) (c : ℕ) : Place → Prop
  | .list => c ∈ chunks
  | .slot x => s.slot x = .to c
  | .freed => s.queue.heap c = none

/-- What is expected of every state. The last part is about the destructor, which runs
when both threads are at rest. -/
structure Kept (N : ℕ) (s : State T) : Prop where
  front : s.reader = .rests → s.queue.beginPos < N
  ending : s.writer = .rests → s.queue.endPos < N
  back : s.writer = .rests → 0 < s.held → s.queue.backPos < N
  defined : ∀ l, enabled s l = true → (perform N s l).isSome = true
  places : ∃ chunks, ListOf s.queue chunks ∧
    (s.writer = .rests → 0 < s.held → ∃ c ∈ chunks, s.queue.backChunk = .to c) ∧
    ∀ c, c < s.queue.fresh → ∃! p, IsAt s chunks c p
  destroyed : s.writer = .rests → s.reader = .rests → ∃ fuel freed q',
    s.queue.destroy fuel = some (freed, q') ∧ freed.Nodup ∧
      (∀ c, .to c ∈ freed ↔ (s.queue.heap c).isSome = true) ∧ ∀ c, q'.heap c = none

/-! ### The list -/

def listed (place : ℕ → ℕ) (first last : ℕ) : List ℕ := (List.range' first (last + 1 - first)).map place

theorem mem_listed {c : ℕ} : c ∈ listed place first last ↔ ∃ i, first ≤ i ∧ i ≤ last ∧ place i = c := by
  simp only [listed, List.mem_map, List.mem_range'_1]
  constructor
  · rintro ⟨i, ⟨low, high⟩, rfl⟩
    exact ⟨i, low, by omega, rfl⟩
  · rintro ⟨i, low, high, rfl⟩
    exact ⟨i, ⟨low, by omega⟩, rfl⟩

theorem Chunks.nodup (h : Chunks q slot place first last) : (listed place first last).Nodup := by
  refine List.Nodup.map_on ?_ List.nodup_range'
  intro i hi j hj same
  rw [List.mem_range'_1] at hi hj
  exact h.inj i j hi.1 (by omega) hj.1 (by omega) same

theorem Chunks.listOf (h : Chunks q slot place first last) : ListOf q (listed place first last) where
  begins := by
    obtain ⟨n, hn⟩ : ∃ n, last + 1 - first = n + 1 := ⟨last - first, by have := h.order; omega⟩
    rw [listed, hn, List.range'_succ, List.map_cons, List.head?_cons, Option.map_some, h.begins]
  ends := by
    have order := h.order
    obtain ⟨n, hn⟩ : ∃ n, last + 1 - first = n + 1 := ⟨last - first, by omega⟩
    have top : first + 1 * n = last := by omega
    rw [listed, hn, List.range'_concat, List.map_append, List.map_singleton, List.getLast?_concat,
      Option.map_some, h.ends, top]
  links := by
    refine (List.isChain_map place).mpr ((List.isChain_range' first _ 1).imp_of_mem_imp ?_)
    rintro i j hi hj rfl
    rw [List.mem_range'_1] at hi hj
    exact h.links i hi.1 (by omega)
  nodup := h.nodup

/-- Each chunk that was ever allocated is in one place. -/
theorem Chunks.isAt (h : Chunks s.queue s.slot place first last) (c : ℕ) :
    ∃! p, IsAt s (listed place first last) c p := by
  have inList : ∀ {c}, c ∈ listed place first last → (s.queue.heap c).isSome = true :=
    fun hc => (h.owned _).mpr (Or.inl (mem_listed.mp hc))
  have inSlot : ∀ {c x}, s.slot x = .to c → (s.queue.heap c).isSome = true :=
    fun hx => (h.owned _).mpr (Or.inr ⟨_, hx⟩)
  have apart : ∀ {c x}, c ∈ listed place first last → s.slot x ≠ .to c := by
    intro c x hc
    obtain ⟨i, low, high, rfl⟩ := mem_listed.mp hc
    exact h.off x i low high
  by_cases used : (s.queue.heap c).isSome = true
  · have live : s.queue.heap c ≠ none := fun wrong => by simp [wrong] at used
    rcases (h.owned c).mp used with here | ⟨x, hx⟩
    · have here := mem_listed.mpr here
      refine ⟨.list, here, ?_⟩
      rintro (_ | y | _) hy
      · rfl
      · exact absurd hy (apart here)
      · exact absurd hy live
    · refine ⟨.slot x, hx, ?_⟩
      rintro (_ | y | _) hy
      · exact absurd hx (apart hy)
      · exact congrArg Place.slot (h.apart y x c hy hx)
      · exact absurd hy live
  · refine ⟨.freed, Option.not_isSome_iff_eq_none.mp used, ?_⟩
    rintro (_ | y | _) hy
    · exact absurd (inList hy) used
    · exact absurd (inSlot hy) used
    · rfl

/-! ### The destructor -/

/-- The loop frees all chunks but the last one. -/
theorem Chunks.destroyLoop (h : Chunks q slot place first last) (empty : slot .reader = .null)
    {fuel : ℕ} (enough : last - first ≤ fuel) :
    ∃ q', q.destroyLoop fuel =
        some ((List.range' first (last - first)).map (fun i => .to (place i)), q') ∧
      Chunks q' slot place last last ∧ q'.spareChunk = q.spareChunk := by
  induction fuel generalizing q first with
  | zero =>
    have order := h.order
    obtain rfl : first = last := by omega
    refine ⟨q, ?_, h, rfl⟩
    rw [ZmqQueue.destroyLoop, if_pos (h.begins.trans h.ends.symm), Nat.sub_self]
    rfl
  | succ fuel ih =>
    by_cases only : first = last
    · subst only
      refine ⟨q, ?_, h, rfl⟩
      rw [ZmqQueue.destroyLoop, if_pos (h.begins.trans h.ends.symm), Nat.sub_self]
      rfl
    · have order := h.order
      have room : first < last := Nat.lt_of_le_of_ne order only
      obtain ⟨k, hk, next⟩ := h.links first (Nat.le_refl _) room
      have freed := (h.shrinkFront room empty).free (x := .reader) (Function.update_self ..)
      have restored : Function.update (Function.update slot .reader (.to (place first))) .reader .null =
          slot := by
        rw [Function.update_idem, ← empty, Function.update_eq_self]
      rw [restored] at freed
      obtain ⟨q', looped, h', spare⟩ := ih freed (by omega)
      refine ⟨q', ?_, h', spare⟩
      have more : q.beginChunk ≠ q.endChunk := by
        rw [h.begins, h.ends]
        intro same
        exact only (h.inj first last (Nat.le_refl _) order order (Nat.le_refl _) (Pointer.to.inj same))
      have turns : last - first = last - (first + 1) + 1 := by omega
      rw [ZmqQueue.destroyLoop, if_neg more, turns, List.range'_succ, List.map_cons]
      simp [h.begins, ZmqQueue.chunk, hk, next, ZmqQueue.free, looped]

/-- With empty hands, the destructor frees the chunks of the list and the spare one. -/
theorem Chunks.destroy (h : Chunks q slot place first last) (spare : slot .spare = q.spareChunk)
    (writer : slot .writer = .null) (reader : slot .reader = .null) :
    ∃ q', q.destroy (last - first) =
        some ((listed place first last).map .to ++ [q.spareChunk], q') ∧ ∀ c, q'.heap c = none := by
  obtain ⟨q₁, looped, h₁, same⟩ := h.destroyLoop reader (Nat.le_refl _)
  obtain ⟨k, hk⟩ := h₁.inList (Nat.le_refl last) (Nat.le_refl last)
  have freed : (List.range' first (last - first)).map (fun i => Pointer.to (place i)) ++
      [.to (place last), q.spareChunk] = (listed place first last).map .to ++ [q.spareChunk] := by
    have order := h.order
    have length : last + 1 - first = last - first + 1 := by omega
    have top : first + 1 * (last - first) = last := by omega
    rw [listed, length, List.range'_concat, top]
    simp
  -- what is allocated after the loop is the last chunk and the spare one
  have left : ∀ c, c ≠ place last → q.spareChunk ≠ .to c → q₁.heap c = none := by
    intro c notLast notSpare
    apply Option.not_isSome_iff_eq_none.mp
    intro used
    rcases (h₁.owned c).mp used with ⟨i, low, high, rfl⟩ | ⟨x, hx⟩
    · obtain rfl := Nat.le_antisymm high low
      exact notLast rfl
    · cases x with
      | spare => exact notSpare (spare.symm.trans hx)
      | writer => cases writer.symm.trans hx
      | reader => cases reader.symm.trans hx
  have others : ∀ c, q.spareChunk ≠ .to c → Function.update q₁.heap (place last) none c = none := by
    intro c notSpare
    by_cases here : c = place last
    · rw [here, Function.update_self]
    · rw [Function.update_of_ne here]
      exact left c here notSpare
  rw [← freed]
  cases old : q.spareChunk with
  | wild => exact absurd (spare.trans old) (h.tame .spare)
  | null =>
    refine ⟨{ q₁ with heap := Function.update q₁.heap (place last) none, spareChunk := .null }, ?_,
      fun c => others c (by rw [old]; exact fun wrong => by cases wrong)⟩
    simp [ZmqQueue.destroy, looped, h₁.begins, ZmqQueue.free, hk, same, old]
  | «to» d =>
    obtain ⟨kd, hd⟩ := h₁.inSlot (spare.trans old)
    have apart : d ≠ place last := fun wrong =>
      h₁.off .spare last (Nat.le_refl _) (Nat.le_refl _) ((spare.trans old).trans (wrong ▸ rfl))
    refine ⟨{ q₁ with
      heap := Function.update (Function.update q₁.heap (place last) none) d none
      spareChunk := .null }, ?_, fun c => ?_⟩
    · simp [ZmqQueue.destroy, looped, h₁.begins, ZmqQueue.free, hk, same, old,
        Function.update_of_ne apart, hd]
    · by_cases here : c = d
      · exact here ▸ Function.update_self ..
      · refine (Function.update_of_ne here _ _).trans (others c fun wrong => here ?_)
        exact (Pointer.to.inj (old.symm.trans wrong)).symm

/-! ### Runs -/

theorem Inv.perform (h : Inv N s place first last front) {l : Label} (called : enabled s l = true)
    (opens : Opens N s l) : ∃ s', perform N s l = some s' ∧
      ∃ place first last front, Inv N s' place first last front := by
  cases l with
  | push =>
    exact ⟨_, rfl, place, first, last, front, h.beginPush (of_decide_eq_true called) opens⟩
  | unpush =>
    obtain ⟨rests, held⟩ := Bool.and_eq_true_iff.mp called
    obtain ⟨s', step, h'⟩ := h.beginUnpush (of_decide_eq_true rests) (of_decide_eq_true held)
    exact ⟨s', step, place, first, last, front, h'⟩
  | pop =>
    obtain ⟨rests, held⟩ := Bool.and_eq_true_iff.mp called
    exact ⟨_, rfl, place, first, last, front + 1,
      h.beginPop (of_decide_eq_true rests) (of_decide_eq_true held)⟩
  | write =>
    obtain ⟨s', place', last', step, h'⟩ := h.advanceWriter (of_decide_eq_true called)
    exact ⟨s', step, place', first, last', front, h'⟩
  | read =>
    obtain ⟨s', first', step, h'⟩ := h.advanceReader (of_decide_eq_true called)
    exact ⟨s', step, place, first', last, front, h'⟩

theorem reachBy_inv (positive : 1 ≤ N) (reached : (machine T N).ReachBy (Opens N) s) :
    ∃ place first last front, Inv N s place first last front := by
  refine reached.invariant (P := fun s => ∃ place first last front, Inv N s place first last front) _
    ⟨_, _, _, _, start_inv positive⟩ ?_
  rintro s l s' ⟨place, first, last, front, h⟩ opens hs
  obtain ⟨called, step⟩ := Option.ite_none_right_eq_some.mp hs
  obtain ⟨t, step', h'⟩ := h.perform called opens
  obtain rfl := Option.some.inj (step.symm.trans step')
  exact h'

theorem Inv.kept (h : Inv N s place first last front) : Kept N s := by
  have start := h.reader.le_front
  refine {
    front := fun rests => ?front
    ending := fun rests => ?ending
    back := fun rests some => ?back
    defined := fun l called => ?defined
    places := ⟨listed place first last, h.chunks.listOf, fun rests some => ?places, fun c _ =>
      h.chunks.isAt c⟩
    destroyed := fun atRest atRest' => ?destroyed }
  case front =>
    have now := h.reader
    rw [rests] at now
    cases now with
    | rests inside => exact inside
  case ending =>
    have now := h.writer
    rw [rests] at now
    cases now with
    | rests resting => exact resting.inside
  case back =>
    have now := h.writer
    rw [rests] at now
    cases now with
    | rests resting =>
      obtain ⟨-, -, -, inside, -⟩ := resting.back some
      exact inside
  case defined =>
    by_cases pushes : l = .push
    · rw [pushes]
      exact rfl
    · have opens : Opens N s l := by
        cases l with
        | push => exact absurd rfl pushes
        | unpush | pop | write | read => trivial
      obtain ⟨s', step, -⟩ := h.perform called opens
      rw [step]
      exact rfl
  case places =>
    have now := h.writer
    rw [rests] at now
    cases now with
    | rests resting =>
      obtain ⟨i, hi, back, inside, low, -⟩ := resting.back some
      have low' : first ≤ i := le_of_cell_le (by omega : first * N ≤ i * N + s.queue.backPos) inside
      exact ⟨place i, mem_listed.mpr ⟨i, low', hi, rfl⟩, back⟩
  case destroyed =>
    have writer : s.slot .writer = .null := by simp [State.slot, State.writerSlot, atRest]
    have reader : s.slot .reader = .null := by simp [State.slot, State.readerSlot, atRest']
    obtain ⟨q', destroyed, empty⟩ := h.chunks.destroy rfl writer reader
    refine ⟨_, _, q', destroyed, ?_, fun c => ?_, empty⟩
    · refine List.nodup_append.mpr ⟨h.chunks.nodup.map fun _ _ => Pointer.to.inj,
        List.nodup_singleton _, ?_⟩
      rintro p hp r hr rfl
      obtain ⟨c, hc, rfl⟩ := List.mem_map.mp hp
      obtain ⟨i, low, high, rfl⟩ := mem_listed.mp hc
      exact h.chunks.off .spare i low high (List.mem_singleton.mp hr).symm
    · rw [h.chunks.owned c, ← mem_listed, List.mem_append, List.mem_singleton,
        List.mem_map_of_injective fun _ _ => Pointer.to.inj]
      refine or_congr_right ⟨fun spare => ⟨.spare, spare.symm⟩, ?_⟩
      rintro ⟨x, hx⟩
      cases x with
      | spare => exact hx.symm
      | writer => cases writer.symm.trans hx
      | reader => cases reader.symm.trans hx

theorem Opens.whole {call : Label} (opens : Opens N s call) (ready : enabled s call = true)
    (reached : (machine T N).ReachBy (Opens N) s) (done : whole N s call = some s') :
    (machine T N).ReachBy (Opens N) s' := by
  obtain ⟨r, first, rest⟩ := Option.bind_eq_some_iff.mp (exec_whole ready done)
  refine Machine.reachBy_exec _ (fun l there t => ?_) (.next reached opens first) rest
  rcases stepsOf_inside there with rfl | rfl
  · exact trivial
  · exact trivial

/-- Where no push returns early, no chunk is lost, freed twice or left by a position, whether
the calls overlap or one of them runs as a whole. -/
theorem chunks_are_kept (positive : 1 ≤ N) (reached : (machine T N).ReachBy (Opens N) s) :
    Kept N s ∧ ∀ call s', enabled s call = true → Opens N s call → whole N s call = some s' →
      Kept N s' := by
  have kept {t : State T} (reached : (machine T N).ReachBy (Opens N) t) : Kept N t := by
    obtain ⟨place, first, last, front, h⟩ := reachBy_inv positive reached
    exact h.kept
  exact ⟨kept reached, fun call s' ready opens done => kept (opens.whole ready reached done)⟩

/-- Three pushes and a pop through the first chunk, and an unpush that frees the last one. -/
def opening : List Label :=
  [.push, .write, .write, .write, .push, .write, .write, .write, .push, .write, .pop, .write, .write,
    .pop, .read, .read, .unpush, .write, .read, .write, .read, .write]

def openingRun : (machine Unit 2).Run := .ofSchedule _ .push opening (by decide +kernel)

theorem chunks_are_kept_opening :
    (Kept 2 (openingRun.state 22) ∧ (openingRun.state 22).writer = .rests ∧
      (openingRun.state 22).reader = .rests) ∧
    ∃ s, whole 2 (openingRun.state 8) .push = some s ∧ Kept 2 s := by
  have opens : openingRun.Meets (Opens 2) := by
    change ∀ i, i < 22 → Opens 2 (openingRun.state i) (openingRun.label i)
    decide +kernel
  obtain ⟨kept, -⟩ := chunks_are_kept (by decide) (openingRun.reachBy opens (i := 22) (by decide))
  obtain ⟨-, calls⟩ := chunks_are_kept (by decide) (openingRun.reachBy opens (i := 8) (by decide))
  refine ⟨⟨kept, by decide +kernel, by decide +kernel⟩, ?_⟩
  obtain ⟨s, done⟩ := Option.isSome_iff_exists.mp
    (show (whole 2 (openingRun.state 8) .push).isSome = true by decide +kernel)
  exact ⟨s, done, calls .push s (by decide +kernel) (by decide +kernel) done⟩

/-- After an unpush a push returns early, and the next one designates no cell. -/
def overrun : List Label :=
  [.push, .write, .write, .write, .unpush, .write, .write, .write, .push, .push, .write, .write,
    .write]

def overrunRun : (machine Unit 2).Run := .ofSchedule _ .push overrun (by decide +kernel)

theorem back_leaves_chunk : ¬ ∀ N, 1 ≤ N → ∀ s, (machine Unit N).Reach s → Kept N s := by
  intro always
  have kept := always 2 (by decide) _ (overrunRun.reach (i := 13) (Nat.le_refl 13))
  have rests : (overrunRun.state 13).writer = .rests := by decide +kernel
  have held : 0 < (overrunRun.state 13).held := by decide +kernel
  have outside : (overrunRun.state 13).queue.backPos = 2 := by decide +kernel
  have inside := kept.back rests held
  omega

end DataChunkQueue.Threads
