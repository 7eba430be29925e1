import CppConcurrency.LockFreeArrayQueue
import CppConcurrency.WordCounters
import Mathlib.Logic.Nontrivial.Defs

/-!
# The sizes for which the locked `LockFreeArrayQueue` is a bounded FIFO

The lock makes calls run one after the other. Masking an index with the size minus one
keeps as many indices apart as the size says only if the size is a power of two.
Otherwise the mask has a hole below its top bit, and two indices closer together than
the size share a slot. Elements that are all alike hide this.
-/

namespace LockFreeArray

open WordCounters

universe u

variable {E : Type u}

/-- What a call returns: a pop that returns false yields nothing. -/
inductive Result (E : Type u) where
  | pushed (ok : Bool)
  | popped (e : Option E)
  deriving DecidableEq

def Result.refuses : Result E → Bool
  | .pushed ok => !ok
  | .popped e => e.isNone

def Result.stores : Result E → Bool
  | .pushed ok => ok
  | .popped _ => false

/-- The specification: a list of at most `size` elements. -/
def fifo (size : ℕ) (held : List E) : Op E → Result E × List E
  | .push e => if held.length < size then (.pushed true, held ++ [e]) else (.pushed false, held)
  | .pop =>
    match held with
    | [] => (.popped none, [])
    | e :: rest => (.popped (some e), rest)

def fifoCalls (size : ℕ) : List E → List (Op E) → List (Result E) × List E
  | held, [] => ([], held)
  | held, op :: rest =>
    let later := fifoCalls size (fifo size held op).2 rest
    ((fifo size held op).1 :: later.1, later.2)

namespace LockFreeArrayQueue

def call (moved : E → E) (q : LockFreeArrayQueue E) : Op E → Option (Result E × LockFreeArrayQueue E)
  | .push e => (q.pushLock e).map fun (ok, q) => (.pushed ok, q)
  | .pop => (q.popLock moved).map fun (e, q) => (.popped e, q)

def calls (moved : E → E) :
    LockFreeArrayQueue E → List (Op E) → Option (List (Result E) × LockFreeArrayQueue E)
  | q, [] => some ([], q)
  | q, op :: rest =>
    (q.call moved op).bind fun (result, q) =>
      (calls moved q rest).map fun (results, q) => (result :: results, q)

end LockFreeArrayQueue

/-- After any calls the queue has answered as the specification does, `Size()` is the number
of elements held, and a call that returns false changes nothing. Fewer than `2 ^ 63`
accepted pushes keep the write index in its type. -/
def IsFifo (moved : E → E) (blank : E) (lock : ℤ) (size : ℕ) : Prop :=
  ∀ q, LockFreeArrayQueue.init lock blank size = .ok q →
    ∀ ops : List (Op E), (fifoCalls size [] ops).1.countP Result.stores < 2 ^ 63 →
      ∃ q', q.calls moved ops = some ((fifoCalls size [] ops).1, q') ∧
        q'.size = (fifoCalls size [] ops).2.length ∧
        ∀ op result q'', q'.call moved op = some (result, q'') → result.refuses = true → q'' = q'

/-! ### Sizes that keep the indices apart -/

/-- No two indices closer than `size` share a slot. -/
def Separates (size : ℕ) : Prop :=
  ∀ i j, i < j → j < i + size → i &&& (size - 1) ≠ j &&& (size - 1)

theorem separates_two_pow (k : ℕ) : Separates (2 ^ k) := by
  intro i j below near same
  rw [Nat.and_two_pow_sub_one_eq_mod, Nat.and_two_pow_sub_one_eq_mod] at same
  rcases eq_or_lap same below.le with equal | lap <;> omega

section Keeps

variable {moved : E → E} {size : ℕ} {q q' : LockFreeArrayQueue E} {held : List E}

/-- `q` holds the elements `held`, oldest first. -/
structure Holds (size : ℕ) (q : LockFreeArrayQueue E) (held : List E) : Prop where
  capacity : q.maxQueueSize = size
  length : q.writeIndex = q.readIndex + held.length
  bound : held.length ≤ size
  elements : ∀ i (hi : i < held.length), q.elementQueue (q.transIndex (q.readIndex + i)) = held[i]

theorem Holds.isFull (h : Holds size q held) :
    q.isFull q.writeIndex q.readIndex = true ↔ ¬ held.length < size := by
  have length := h.length
  have same := h.capacity
  rw [LockFreeArrayQueue.isFull, decide_eq_true_iff]
  omega

theorem Holds.isEmpty (h : Holds size q held) :
    LockFreeArrayQueue.isEmpty q.writeIndex q.readIndex = true ↔ held = [] := by
  have length := h.length
  rw [LockFreeArrayQueue.isEmpty, decide_eq_true_iff, ← List.length_eq_zero_iff]
  omega

theorem Holds.size_eq (h : Holds size q held) : q.size = held.length := by
  have length := h.length
  rw [LockFreeArrayQueue.size, if_pos (by omega)]
  omega

theorem Holds.slots_ne (h : Holds size q held) (apart : Separates size) {i j : ℕ} (below : i < j)
    (near : j < i + size) : q.transIndex i ≠ q.transIndex j := by
  rw [LockFreeArrayQueue.transIndex, LockFreeArrayQueue.transIndex, h.capacity]
  exact apart i j below near

/-- An accepted push: its index is less than a lap away from all that are held. -/
theorem Holds.push (h : Holds size q held) (apart : Separates size ∨ Subsingleton E)
    (room : held.length < size) (e : E) :
    Holds size { q.setElement (q.transIndex q.writeIndex) e with writeIndex := q.writeIndex + 1 }
      (held ++ [e]) := by
  have length := h.length
  refine ⟨h.capacity, ?_, ?_, fun i hi => ?_⟩
  · rw [List.length_append, List.length_singleton]
    change q.writeIndex + 1 = q.readIndex + (held.length + 1)
    omega
  · rw [List.length_append, List.length_singleton]
    exact room
  rcases apart with apart | alike
  · rw [List.length_append, List.length_singleton] at hi
    change Function.update q.elementQueue (q.transIndex q.writeIndex) e
      (q.transIndex (q.readIndex + i)) = _
    by_cases last : i = held.length
    · subst last
      rw [← length, Function.update_self, List.getElem_concat_length rfl]
    · have other := h.slots_ne apart (i := q.readIndex + i) (j := q.writeIndex) (by omega) (by omega)
      rw [Function.update_of_ne other, h.elements i (by omega), List.getElem_append_left]
  · exact Subsingleton.elim _ _

/-- An accepted pop yields the oldest element, whatever moving it leaves in its slot. -/
theorem Holds.pop {e : E} {rest : List E} (h : Holds size q (e :: rest))
    (apart : Separates size ∨ Subsingleton E) (left : E) :
    q.elementQueue (q.transIndex q.readIndex) = e ∧
      Holds size { q.setElement (q.transIndex q.readIndex) left with readIndex := q.readIndex + 1 }
        rest := by
  have length := h.length
  have bound := h.bound
  rw [List.length_cons] at length bound
  refine ⟨h.elements 0 (Nat.zero_lt_succ _), h.capacity, ?_, by omega, fun i hi => ?_⟩
  · change q.writeIndex = q.readIndex + 1 + rest.length
    omega
  rcases apart with apart | alike
  · change Function.update q.elementQueue (q.transIndex q.readIndex) left
      (q.transIndex (q.readIndex + 1 + i)) = _
    have other := h.slots_ne apart (i := q.readIndex) (j := q.readIndex + 1 + i)
      (by omega) (by omega)
    have stored := h.elements (i + 1) (by rw [List.length_cons]; omega)
    rw [Function.update_of_ne other.symm, Nat.add_assoc, Nat.add_comm 1 i]
    exact stored
  · exact Subsingleton.elim _ _

/-- One call, where a push that is accepted leaves the write index in its type. -/
theorem Holds.call (h : Holds size q held) (apart : Separates size ∨ Subsingleton E)
    (moved : E → E) (op : Op E)
    (room : q.writeIndex + (fifo size held op).1.stores.toNat < 2 ^ 63) :
    ∃ q', q.call moved op = some ((fifo size held op).1, q') ∧
      Holds size q' (fifo size held op).2 ∧
      q'.writeIndex = q.writeIndex + (fifo size held op).1.stores.toNat := by
  have length := h.length
  cases op with
  | push e =>
    by_cases free : held.length < size
    · have notFull : ¬ q.isFull q.writeIndex q.readIndex = true := fun full => h.isFull.mp full free
      rw [fifo, if_pos free] at room ⊢
      have fits : increment q.writeIndex = some (q.writeIndex + 1) := if_pos room
      refine ⟨_, ?_, h.push apart free e, rfl⟩
      simp [LockFreeArrayQueue.call, LockFreeArrayQueue.pushLock, notFull, fits]
    · rw [fifo, if_neg free]
      refine ⟨q, ?_, h, rfl⟩
      simp [LockFreeArrayQueue.call, LockFreeArrayQueue.pushLock, h.isFull.mpr free]
  | pop =>
    cases held with
    | nil =>
      refine ⟨q, ?_, h, rfl⟩
      simp [LockFreeArrayQueue.call, LockFreeArrayQueue.popLock, h.isEmpty.mpr rfl, fifo]
    | cons e rest =>
      have nonempty : ¬ LockFreeArrayQueue.isEmpty q.writeIndex q.readIndex = true :=
        fun empty => by cases h.isEmpty.mp empty
      obtain ⟨first, h'⟩ := h.pop apart (moved e)
      have inside : q.writeIndex + 0 < 2 ^ 63 := room
      rw [List.length_cons] at length
      have fits : increment q.readIndex = some (q.readIndex + 1) := if_pos (by omega)
      refine ⟨_, ?_, h', rfl⟩
      simp [LockFreeArrayQueue.call, LockFreeArrayQueue.popLock, nonempty, fits, fifo, first]

theorem Holds.calls (h : Holds size q held) (apart : Separates size ∨ Subsingleton E)
    (moved : E → E) (ops : List (Op E))
    (few : q.writeIndex + (fifoCalls size held ops).1.countP Result.stores < 2 ^ 63) :
    ∃ q', q.calls moved ops = some ((fifoCalls size held ops).1, q') ∧
      Holds size q' (fifoCalls size held ops).2 := by
  induction ops generalizing q held with
  | nil => exact ⟨q, rfl, h⟩
  | cons op rest ih =>
    have count : (fifoCalls size held (op :: rest)).1.countP Result.stores =
        (fifoCalls size (fifo size held op).2 rest).1.countP Result.stores +
          (fifo size held op).1.stores.toNat := by
      rw [fifoCalls, List.countP_cons]
      cases (fifo size held op).1.stores <;> rfl
    obtain ⟨q₁, first, h₁, writeIndex⟩ := h.call apart moved op (by omega)
    obtain ⟨q₂, later, h₂⟩ := ih h₁ (by omega)
    refine ⟨q₂, ?_, h₂⟩
    rw [LockFreeArrayQueue.calls, first]
    dsimp only [Option.bind_some]
    rw [later]
    rfl

theorem holds_init {blank : E} {lock : ℤ} (accepted : LockFreeArrayQueue.init lock blank size = .ok q) :
    Holds size q [] ∧ q.writeIndex = 0 := by
  rw [LockFreeArrayQueue.init] at accepted
  split_ifs at accepted
  cases accepted
  exact ⟨⟨rfl, rfl, Nat.zero_le _, fun i hi => absurd hi (Nat.not_lt_zero i)⟩, rfl⟩

/-- What a refused call leaves is the queue it found. -/
theorem call_refused {op : Op E} {result : Result E} (h : q.call moved op = some (result, q'))
    (refused : result.refuses = true) : q' = q := by
  cases op with
  | push e =>
    rw [LockFreeArrayQueue.call, LockFreeArrayQueue.pushLock] at h
    split_ifs at h with full
    · cases h
      rfl
    · cases fits : increment q.writeIndex with
      | none => simp [fits] at h
      | some index =>
        rw [fits] at h
        cases h
        cases refused
  | pop =>
    rw [LockFreeArrayQueue.call, LockFreeArrayQueue.popLock] at h
    split_ifs at h with empty
    · cases h
      rfl
    · cases fits : increment q.readIndex with
      | none => simp [fits] at h
      | some index =>
        simp only [fits] at h
        cases h
        cases refused

theorem isFifo_of_apart (apart : Separates size ∨ Subsingleton E) (moved : E → E) (blank : E)
    (lock : ℤ) : IsFifo moved blank lock size := by
  intro q accepted ops few
  obtain ⟨empty, writeIndex⟩ := holds_init accepted
  obtain ⟨q', answers, h⟩ := empty.calls apart moved ops (by omega)
  exact ⟨q', answers, h.size_eq, fun op result q'' => call_refused⟩

end Keeps

/-! ### Sizes that do not -/

section Overwrites

variable {size n : ℕ} {q : LockFreeArrayQueue E}

theorem fifoCalls_pushes (held : List E) (e : E) (rest : List (Op E))
    (room : held.length + n ≤ size) :
    fifoCalls size held (List.replicate n (.push e) ++ rest) =
      (List.replicate n (.pushed true) ++ (fifoCalls size (held ++ List.replicate n e) rest).1,
        (fifoCalls size (held ++ List.replicate n e) rest).2) := by
  induction n generalizing held with
  | zero => simp
  | succ n ih =>
    have free : held.length < size := by omega
    have later := ih (held ++ [e]) (by rw [List.length_append, List.length_singleton]; omega)
    rw [List.append_assoc, List.singleton_append, ← List.replicate_succ] at later
    rw [List.replicate_succ, List.cons_append, fifoCalls, fifo, if_pos free]
    dsimp only
    rw [later]
    rfl

theorem calls_push (moved : E → E) (e : E) (rest : List (Op E)) (room : q.writeIndex < q.readIndex + q.maxQueueSize)
    (fits : q.writeIndex + 1 < 2 ^ 63) :
    q.calls moved (.push e :: rest) =
      (LockFreeArrayQueue.calls moved
        { q.setElement (q.transIndex q.writeIndex) e with writeIndex := q.writeIndex + 1 } rest).map
        fun (results, q') => (.pushed true :: results, q') := by
  have notFull : ¬ q.isFull q.writeIndex q.readIndex = true := by
    rw [LockFreeArrayQueue.isFull, decide_eq_true_iff]
    omega
  have next : increment q.writeIndex = some (q.writeIndex + 1) := if_pos fits
  simp [LockFreeArrayQueue.calls, LockFreeArrayQueue.call, LockFreeArrayQueue.pushLock, notFull, next]

theorem calls_pop (moved : E → E) (nonempty : q.readIndex < q.writeIndex) (fits : q.readIndex + 1 < 2 ^ 63) :
    ∃ q', q.calls moved [.pop] =
      some ([.popped (some (q.elementQueue (q.transIndex q.readIndex)))], q') := by
  have more : ¬ LockFreeArrayQueue.isEmpty q.writeIndex q.readIndex = true := by
    rw [LockFreeArrayQueue.isEmpty, decide_eq_true_iff]
    omega
  have next : increment q.readIndex = some (q.readIndex + 1) := if_pos fits
  let left := moved (q.elementQueue (q.transIndex q.readIndex))
  exists { q.setElement (q.transIndex q.readIndex) left with readIndex := q.readIndex + 1 }
  rw [LockFreeArrayQueue.calls, LockFreeArrayQueue.call, LockFreeArrayQueue.popLock, if_neg more, next]
  rfl

theorem calls_pushes (moved : E → E) (e : E) (rest : List (Op E))
    (room : q.writeIndex + n ≤ q.readIndex + q.maxQueueSize) (fits : q.writeIndex + n < 2 ^ 63) :
    ∃ q' : LockFreeArrayQueue E, q'.maxQueueSize = q.maxQueueSize ∧
      q'.writeIndex = q.writeIndex + n ∧ q'.readIndex = q.readIndex ∧
      q.calls moved (List.replicate n (.push e) ++ rest) =
        (q'.calls moved rest).map fun (results, q') =>
          (List.replicate n (.pushed true) ++ results, q') := by
  induction n generalizing q with
  | zero => exact ⟨q, rfl, rfl, rfl, by simp⟩
  | succ n ih =>
    obtain ⟨q', size, write, read, later⟩ :=
      ih (q := { q.setElement (q.transIndex q.writeIndex) e with writeIndex := q.writeIndex + 1 })
        (by dsimp only [LockFreeArrayQueue.setElement]; omega) (by dsimp only; omega)
    refine ⟨q', size, ?_, read, ?_⟩
    · dsimp only at write
      omega
    · rw [List.replicate_succ, List.cons_append, calls_push moved e _ (by omega) (by omega), later,
        Option.map_map]
      rfl

/-- What the specification answers to `n + 1` pushes of `a`, one of `c` and a pop. -/
theorem fifoCalls_overwrite (a c : E) (below : n + 1 < size) :
    (fifoCalls size [] (List.replicate (n + 1) (.push a) ++ [.push c, .pop])).1 =
      List.replicate (n + 1) (.pushed true) ++ [.pushed true, .popped (some a)] := by
  have room : (a :: List.replicate n a).length < size := by
    rwa [List.length_cons, List.length_replicate]
  have oldest : List.replicate (n + 1) a = a :: List.replicate n a := List.replicate_succ
  rw [fifoCalls_pushes [] a _ (by rw [List.length_nil]; omega), List.nil_append, oldest]
  simp only [fifoCalls, fifo, if_pos room, List.cons_append]

/-- What the code answers when index `n + 1` and index 0 share a slot. -/
theorem calls_overwrite (moved : E → E) (a c : E) (below : n + 1 < q.maxQueueSize) (small : q.maxQueueSize < 2 ^ 31)
    (write : q.writeIndex = 0) (read : q.readIndex = 0)
    (clear : n + 1 &&& (q.maxQueueSize - 1) = 0) :
    ∃ q', q.calls moved (List.replicate (n + 1) (.push a) ++ [.push c, .pop]) =
      some (List.replicate (n + 1) (.pushed true) ++ [.pushed true, .popped (some c)], q') := by
  obtain ⟨q₁, size₁, write₁, read₁, pushes⟩ :=
    calls_pushes moved a [.push c, .pop] (q := q) (n := n + 1) (by omega) (by omega)
  rw [pushes, calls_push moved c _ (by omega) (by omega)]
  have slot : q₁.transIndex q₁.writeIndex = q₁.transIndex q₁.readIndex := by
    rw [LockFreeArrayQueue.transIndex, LockFreeArrayQueue.transIndex, write₁, read₁, size₁, write,
      read, Nat.zero_add, clear, Nat.zero_and]
  have front : (q₁.setElement (q₁.transIndex q₁.writeIndex) c).elementQueue
      (q₁.transIndex q₁.readIndex) = c := by
    rw [slot]
    exact Function.update_self ..
  obtain ⟨q', pop⟩ := calls_pop moved
    (q := { q₁.setElement (q₁.transIndex q₁.writeIndex) c with writeIndex := q₁.writeIndex + 1 })
    (by dsimp only [LockFreeArrayQueue.setElement]; omega)
    (by dsimp only [LockFreeArrayQueue.setElement]; omega)
  change (_ : Option (List (Result E) × LockFreeArrayQueue E)) = some ([.popped (some
    ((q₁.setElement (q₁.transIndex q₁.writeIndex) c).elementQueue (q₁.transIndex q₁.readIndex)))],
      q') at pop
  rw [front] at pop
  exact ⟨q', by rw [pop]; rfl⟩

/-- A push on an index that the mask maps to slot 0 lands on the oldest element. -/
theorem not_isFifo {moved : E → E} {blank : E} {lock : ℤ} {a c : E} (different : a ≠ c)
    (accepted : LockFreeArrayQueue.init lock blank size = .ok q)
    (below : n + 1 < size) (small : size < 2 ^ 31) (clear : n + 1 &&& (size - 1) = 0) :
    ¬ IsFifo moved blank lock size := by
  intro holds
  obtain ⟨empty, write⟩ := holds_init accepted
  have capacity := empty.capacity
  have read : q.readIndex = 0 := by
    have length := empty.length
    omega
  subst capacity
  have spec := fifoCalls_overwrite a c below
  have few : (fifoCalls q.maxQueueSize [] (List.replicate (n + 1) (.push a) ++
      [.push c, .pop])).1.countP Result.stores < 2 ^ 63 := by
    refine Nat.lt_of_le_of_lt List.countP_le_length ?_
    rw [spec, List.length_append, List.length_replicate]
    change n + 1 + 2 < 2 ^ 63
    omega
  obtain ⟨q', answers, -⟩ := holds q accepted _ few
  obtain ⟨q'', code⟩ := calls_overwrite moved a c below small write read clear
  rw [code, spec] at answers
  have last := congrArg Prod.fst (Option.some.inj answers)
  have same := List.append_cancel_left last
  simp only [List.cons.injEq, Result.popped.injEq, Option.some.injEq, true_and, and_true] at same
  exact different same.symm

end Overwrites

/-- In lock mode an accepted size gives a bounded FIFO exactly when it is a power of two,
or when the elements cannot be told apart. -/
theorem locked_fifo_iff (moved : E → E) (blank : E) (lock : ℤ) (size : ℕ) (inInt : size < 2 ^ 31)
    (accepted : ∃ q, LockFreeArrayQueue.init lock blank size = .ok q) :
    IsFifo moved blank lock size ↔ (∃ k, size = 2 ^ k) ∨ Subsingleton E := by
  obtain ⟨q, accepted⟩ := accepted
  constructor
  · intro holds
    by_contra neither
    obtain ⟨noPower, many⟩ := not_or.mp neither
    obtain ⟨a, c, different⟩ := not_subsingleton_iff_nontrivial.mp many
    have several : 1 < size := by
      rw [LockFreeArrayQueue.init] at accepted
      split_ifs at accepted
      omega
    obtain ⟨b, below, clear⟩ := exists_clear_bit (fun k power => noPower ⟨k, power⟩) several
    obtain ⟨n, index⟩ : ∃ n, 2 ^ b = n + 1 := ⟨2 ^ b - 1, by have := Nat.two_pow_pos b; omega⟩
    rw [index] at below clear
    exact not_isFifo different accepted below inInt clear holds
  · rintro (⟨k, rfl⟩ | alike)
    · exact isFifo_of_apart (.inl (separates_two_pow k)) moved blank lock
    · exact isFifo_of_apart (.inr alike) moved blank lock

theorem locked_fifo_iff_four :
    IsFifo (fun _ => 0) 0 0 4 ↔ (∃ k, 4 = 2 ^ k) ∨ Subsingleton ℕ :=
  locked_fifo_iff (fun _ => 0) 0 0 4 (by decide) ⟨_, rfl⟩

/-- The default size is odd, so the first two indices share slot 0. -/
theorem default_size_overwrites :
    (LockFreeArrayQueue.init 0 0 LockFreeArrayQueue.defaultSize).toOption.bind (fun q =>
        (q.calls id [.push 1, .push 2, .pop]).map Prod.fst) =
      some [.pushed true, .pushed true, .popped (some 2)] ∧
    ¬ IsFifo id 0 0 LockFreeArrayQueue.defaultSize := by
  refine ⟨by decide, ?_⟩
  exact not_isFifo (n := 0) (a := 1) (c := 2) (by decide) rfl (by decide) (by decide) (by decide)

end LockFreeArray
