import CppConcurrency.DataChunkQueueChunks
import Mathlib.Data.List.GetD
import Mathlib.Data.List.Nodup

/-!
# For which schedules `zmqQueue` is a queue of cells

`push` links a new chunk whenever the current one is not full, and none when it is. With
two or more cells to a chunk each push therefore opens a chunk of its own, while `pop`
walks through all cells of a chunk: the two ends agree until the first pop that is not
the last. With one cell to a chunk the second push already leaves the chunk.
-/

namespace DataChunkQueue

open ZmqQueue LinkedChains

universe u

variable {T : Type u}

/-- `push()` followed by `*back() = value`, or `pop()`. -/
inductive Op (T : Type u) where
  | push (value : T)
  | pop
  deriving DecidableEq

/-- The values pushed by a schedule, in order. -/
def pushedValues : List (Op T) → List T
  | [] => []
  | .push value :: rest => value :: pushedValues rest
  | .pop :: rest => pushedValues rest

def popCount : List (Op T) → ℕ
  | [] => 0
  | .push _ :: rest => popCount rest
  | .pop :: rest => popCount rest + 1

/-- Pops never outnumber pushes. -/
def Fed (ops : List (Op T)) : Prop :=
  ∀ i, popCount (ops.take i) ≤ (pushedValues (ops.take i)).length

/-- Run a schedule, listing the cell `back()` designates right after each push. -/
def run (N : ℕ) (q : ZmqQueue T) : List (Op T) → Option (ZmqQueue T × List Cell)
  | [] => some (q, [])
  | .push value :: rest =>
    (q.push N).bind fun q =>
      (q.store N q.back value).bind fun q' =>
        (run N q' rest).map fun (last, cells) => (last, q.back :: cells)
  | .pop :: rest => (q.pop N).bind fun q => run N q rest

/-- After this schedule `front()` is the cell of the oldest element, the cells of the
elements are distinct and inside allocated chunks, and `*front()` is the oldest value. -/
def CellsMatch (N : ℕ) (ops : List (Op T)) : Prop :=
  ∃ q cells, run N new ops = some (q, cells) ∧
    (popCount ops < cells.length → cells[popCount ops]? = some q.front ∧
      q.load N q.front = some (pushedValues ops)[popCount ops]?) ∧
    (cells.drop (popCount ops)).Nodup ∧
    ∀ cell ∈ cells.drop (popCount ops), cell.pos < N ∧ (q.chunk cell.chunk).isSome = true

/-- At every point of the schedule. -/
def FifoOfCells (N : ℕ) (ops : List (Op T)) : Prop :=
  ∀ i, CellsMatch N (ops.take i)

/-! ### Runs of pushes -/

theorem run_append (N : ℕ) (q : ZmqQueue T) (first rest : List (Op T)) :
    run N q (first ++ rest) = (run N q first).bind fun r =>
      (run N r.1 rest).map fun r' => (r'.1, r.2 ++ r'.2) := by
  induction first generalizing q with
  | nil => simp [run]
  | cons op first ih =>
    cases op with
    | push value =>
      simp only [List.cons_append, run]
      cases q.push N with
      | none => rfl
      | some q =>
        simp only [Option.bind_some]
        cases q.store N q.back value with
        | none => rfl
        | some q' =>
          simp only [Option.bind_some, ih]
          cases run N q' first with
          | none => rfl
          | some r => cases h : run N r.1 rest <;> simp [h]
    | pop =>
      simp only [List.cons_append, run]
      cases q.pop N with
      | none => rfl
      | some q => simp only [Option.bind_some, ih]

/-- A cell that a push designates when its chunk is new. -/
def firstCell (c : ℕ) : Cell := ⟨.to c, 0⟩

/-- Each element in the first cell of a chunk of its own. -/
structure Stacked (q : ZmqQueue T) (b : ℕ) (ids : List ℕ) (e : ℕ) (values : List T) : Prop where
  linked : Linked q b ids e
  endPos : q.endPos = 0
  stored : ids.map (fun c => content q c 0) = values.map some

theorem new_stacked : Stacked (new : ZmqQueue T) 0 [] 0 [] := ⟨new_linked, rfl, rfl⟩

theorem Stacked.push {N : ℕ} (hN : 2 ≤ N) {q : ZmqQueue T} {b e : ℕ} {ids : List ℕ}
    {values : List T} (h : Stacked q b ids e values) (value : T) :
    ∃ q₁ q₂ d, q.push N = some q₁ ∧ q₁.back = firstCell e ∧ q₁.store N q₁.back value = some q₂ ∧
      q₂.beginPos = q.beginPos ∧ Stacked q₂ b (ids ++ [e]) d (values ++ [value]) := by
  have partly : q.endPos + 1 ≠ N := by
    have := h.endPos
    omega
  obtain ⟨q₁, d, pushed, linked, back, endPos, beginPos, same⟩ := h.linked.push partly
  have back : q₁.back = firstCell e := by rw [back, h.endPos, firstCell]
  have used : (q₁.heap e).isSome = true :=
    Option.isSome_iff_exists.mpr (linked.allocated (by simp))
  obtain ⟨q₂, stored, linked', back', front', endPos', values', -⟩ :=
    linked.store (by omega : 0 < N) used value
  have notIn : e ∉ ids := by
    intro inside
    obtain ⟨-, -, apart⟩ := List.nodup_append.mp h.linked.nodup
    exact apart e inside e (List.mem_singleton_self e) rfl
  refine ⟨q₁, q₂, d, pushed, back, by rw [back]; exact stored, ?_, linked', endPos'.trans endPos, ?_⟩
  · exact (congrArg Cell.pos front').trans beginPos
  · rw [List.map_append, List.map_append, ← h.stored]
    congr 1
    · apply List.map_congr_left
      intro c hc
      have other : c ≠ e := fun e' => notIn (e' ▸ hc)
      rw [values', if_neg (fun both => other both.1), same c (List.mem_append_left _ hc)]
    · simp [values']

theorem Stacked.run {N : ℕ} (hN : 2 ≤ N) (more : List T) {q : ZmqQueue T} {b e : ℕ}
    {ids : List ℕ} {values : List T} (h : Stacked q b ids e values) :
    ∃ q' ids' e', DataChunkQueue.run N q (more.map .push) = some (q', ids'.map firstCell) ∧
      ids'.length = more.length ∧ q'.beginPos = q.beginPos ∧
      Stacked q' b (ids ++ ids') e' (values ++ more) := by
  induction more generalizing q e ids values with
  | nil => exact ⟨q, [], e, rfl, rfl, rfl, by simpa using h⟩
  | cons value more ih =>
    obtain ⟨q₁, q₂, d, pushed, back, stored, beginPos, after⟩ := h.push hN value
    obtain ⟨q', ids', e', ran, length, beginPos', final⟩ := ih after
    rw [back] at stored
    refine ⟨q', e :: ids', e', ?_, by simp [length], beginPos'.trans beginPos, by simpa using final⟩
    simp only [List.map_cons, DataChunkQueue.run, pushed, stored, ran, back, Option.bind_some,
      Option.map_some]

/-! ### Schedules that keep the cells in order -/

@[simp] theorem pushedValues_append (first rest : List (Op T)) :
    pushedValues (first ++ rest) = pushedValues first ++ pushedValues rest := by
  induction first with
  | nil => rfl
  | cons op first ih => cases op <;> simp [pushedValues, ih]

@[simp] theorem popCount_append (first rest : List (Op T)) :
    popCount (first ++ rest) = popCount first + popCount rest := by
  induction first with
  | nil => simp [popCount]
  | cons op first ih => cases op <;> simp [popCount, ih]; omega

@[simp] theorem pushedValues_pushes (values : List T) : pushedValues (values.map .push) = values := by
  induction values with
  | nil => rfl
  | cons value values ih => simp [pushedValues, ih]

@[simp] theorem popCount_pushes (values : List T) : popCount (values.map Op.push) = 0 := by
  induction values with
  | nil => rfl
  | cons value values ih => simp [popCount, ih]

/-- Either all operations are pushes, or there is a first pop. -/
theorem pushes_or_first_pop (ops : List (Op T)) :
    ops = (pushedValues ops).map .push ∨
      ∃ (values : List T) (rest : List (Op T)), ops = values.map .push ++ .pop :: rest := by
  induction ops with
  | nil => exact Or.inl rfl
  | cons op ops ih =>
    cases op with
    | pop => exact Or.inr ⟨[], ops, rfl⟩
    | push value =>
      rcases ih with all | ⟨values, rest, same⟩
      · exact Or.inl (by rw [pushedValues, List.map_cons, ← all])
      · exact Or.inr ⟨value :: values, rest, by rw [same]; rfl⟩

/-- Pushes alone keep the cells apart and in order, if a chunk holds two of them. -/
theorem cellsMatch_pushes {N : ℕ} (hN : 2 ≤ N) (values : List T) :
    CellsMatch N (values.map .push) := by
  obtain ⟨q, ids, e, ran, length, beginPos, stacked⟩ := new_stacked.run hN values
  simp only [List.nil_append] at stacked
  have linked := stacked.linked
  have injective : Function.Injective firstCell := fun a b h => by simpa [firstCell] using h
  refine ⟨q, ids.map firstCell, ran, ?_, ?_, ?_⟩
  · intro some
    simp only [popCount_pushes, pushedValues_pushes, List.length_map] at some ⊢
    obtain ⟨c, rest, rfl⟩ := List.exists_cons_of_ne_nil (List.ne_nil_of_length_pos some)
    obtain ⟨rfl, -⟩ := linked.chain
    have front : q.front = firstCell 0 := by
      rw [ZmqQueue.front, linked.beginChunk, beginPos]
      rfl
    have used : (q.heap 0).isSome = true :=
      Option.isSome_iff_exists.mpr (linked.allocated List.mem_cons_self)
    refine ⟨by rw [front]; rfl, ?_⟩
    rw [front, firstCell, load_eq (by omega) used]
    have stored := congrArg (fun l => l[0]?) stacked.stored
    cases values with
    | nil => cases length
    | cons value values => simpa using stored
  · rw [popCount_pushes, List.drop_zero]
    exact (List.nodup_append.mp linked.nodup).1.map injective
  · intro cell hc
    rw [popCount_pushes, List.drop_zero] at hc
    obtain ⟨c, inside, rfl⟩ := List.mem_map.mp hc
    refine ⟨by change 0 < N; omega, ?_⟩
    exact Option.isSome_iff_exists.mpr (linked.allocated (List.mem_append_left _ inside))

/-- A single element may be popped. -/
theorem cellsMatch_push_pop {N : ℕ} (hN : 2 ≤ N) (value : T) :
    CellsMatch N [.push value, .pop] := by
  obtain ⟨q, ids, e, ran, length, beginPos, stacked⟩ := new_stacked.run hN [value]
  have within : q.beginPos + 1 ≠ N := by
    rw [beginPos]
    change 0 + 1 ≠ N
    omega
  have none : (ids.map firstCell).drop (popCount [Op.push value, .pop]) = [] :=
    List.drop_eq_nil_of_le (by simp [popCount, length])
  refine ⟨{ q with beginPos := q.beginPos + 1 }, ids.map firstCell, ?_, ?_, ?_, ?_⟩
  · change run N new ([value].map .push ++ [.pop]) = _
    rw [run_append, ran, Option.bind_some]
    simp only [run, pop_within within, Option.bind_some, Option.map_some, List.append_nil]
  · intro some
    simp [popCount, length] at some
  · rw [none]
    exact List.nodup_nil
  · rw [none]
    exact fun cell hc => absurd hc List.not_mem_nil

theorem cellsMatch_single {N : ℕ} (hN : 1 ≤ N) (value : T) : CellsMatch N [.push value] := by
  by_cases one : N = 1
  · subst one
    refine ⟨_, _, rfl, ?_, List.nodup_singleton _, ?_⟩
    · exact fun _ => ⟨rfl, rfl⟩
    · intro cell hc
      obtain rfl := List.mem_singleton.mp hc
      exact ⟨Nat.zero_lt_one, rfl⟩
  · exact cellsMatch_pushes (by omega) [value]

theorem cellsMatch_nil (N : ℕ) : CellsMatch N ([] : List (Op T)) :=
  ⟨new, [], rfl, fun some => absurd some (Nat.lt_irrefl 0), List.nodup_nil, by simp [popCount]⟩

/-! ### Schedules that do not -/

/-- After the first pop `front()` is the second cell of a chunk, and no push designates
such a cell. -/
theorem not_cellsMatch_of_pop {N : ℕ} (hN : 2 ≤ N) (values more : List T)
    (two : 2 ≤ values.length + more.length) :
    ¬ CellsMatch N (values.map .push ++ .pop :: more.map .push) := by
  obtain ⟨q₁, ids, e, ran, length, beginPos, stacked⟩ := new_stacked.run hN values
  have within : q₁.beginPos + 1 ≠ N := by
    rw [beginPos]
    change 0 + 1 ≠ N
    omega
  obtain ⟨q₂, popped, linked, beginPos₂, -, endPos₂, heap⟩ := stacked.linked.pop_within within
  have stacked₂ : Stacked q₂ 0 ([] ++ ids) e ([] ++ values) := by
    refine ⟨linked, endPos₂.trans stacked.endPos, ?_⟩
    simp only [content, heap]
    exact stacked.stored
  obtain ⟨q₃, ids', e', ran', length', beginPos₃, -⟩ := stacked₂.run hN more
  have whole : run N new (values.map .push ++ .pop :: more.map .push) =
      some (q₃, (ids ++ ids').map firstCell) := by
    rw [run_append, ran, Option.bind_some]
    simp only [run, popped, ran', Option.bind_some, Option.map_some, List.map_append]
  rintro ⟨q, cells, ran, first, -, -⟩
  rw [whole] at ran
  obtain ⟨rfl, rfl⟩ := Prod.mk.inj (Option.some.inj ran)
  have one : popCount (values.map Op.push ++ .pop :: more.map .push) = 1 := by simp [popCount]
  rw [one] at first
  obtain ⟨same, -⟩ := first (by simp [length, length']; omega)
  obtain ⟨c, -, hc⟩ := List.mem_map.mp (List.mem_of_getElem? same)
  have pos := congrArg Cell.pos hc
  change 0 = q₃.beginPos at pos
  rw [beginPos₃, beginPos₂] at pos
  omega

/-- With one cell to a chunk the second push designates a cell outside its chunk, and
the first pop follows an uninitialised link. -/
theorem not_cellsMatch_one (value : T) (op : Op T) : ¬ CellsMatch 1 [.push value, op] := by
  rintro ⟨q, cells, ran, -⟩
  cases op with
  | push value' =>
    have stuck : run 1 new [.push value, .push value'] = none := rfl
    rw [stuck] at ran
    cases ran
  | pop =>
    have stuck : run 1 new [.push value, Op.pop] = none := rfl
    rw [stuck] at ran
    cases ran

/-! ### Every schedule -/

/-- The first pop of a schedule comes after a push, and right after the only push so far
comes another push, if anything. -/
theorem Fed.first_pop {values : List T} {rest : List (Op T)}
    (fed : Fed (values.map .push ++ .pop :: rest)) :
    ∃ value more, values = value :: more ∧
      (more = [] → rest = [] ∨ ∃ w rest', rest = .push w :: rest') := by
  cases values with
  | nil => exact absurd (fed 1) (by simp [popCount, pushedValues])
  | cons value more =>
    refine ⟨value, more, rfl, ?_⟩
    rintro rfl
    cases rest with
    | nil => exact Or.inl rfl
    | cons op rest =>
      cases op with
      | push w => exact Or.inr ⟨w, rest, rfl⟩
      | pop => exact absurd (fed 3) (by simp [popCount, pushedValues])

theorem fifoOfCells_pushes {N : ℕ} (hN : 2 ≤ N) (values : List T) :
    FifoOfCells N (values.map .push) := by
  intro i
  rw [← List.map_take]
  exact cellsMatch_pushes hN _

theorem fifoOfCells_single {N : ℕ} (hN : 1 ≤ N) (value : T) : FifoOfCells N [.push value] := by
  intro i
  cases i with
  | zero => exact cellsMatch_nil N
  | succ i => simpa using cellsMatch_single hN value

theorem fifoOfCells_push_pop {N : ℕ} (hN : 2 ≤ N) (value : T) :
    FifoOfCells N [.push value, .pop] := by
  intro i
  match i with
  | 0 => exact cellsMatch_nil N
  | 1 => exact cellsMatch_single (by omega) value
  | i + 2 => simpa using cellsMatch_push_pop hN value

theorem fifoOfCells_pushes_iff {N : ℕ} (hN : 1 ≤ N) (values : List T) :
    FifoOfCells N (values.map Op.push) ↔ 2 ≤ N ∨ values.length ≤ 1 := by
  by_cases two : 2 ≤ N
  · exact iff_of_true (fifoOfCells_pushes two values) (Or.inl two)
  · obtain rfl : N = 1 := by omega
    constructor
    · intro fifo
      apply Or.inr
      match values, fifo with
      | [], _ => exact Nat.zero_le 1
      | [_], _ => exact Nat.le_refl 1
      | first :: second :: _, fifo => exact absurd (fifo 2) (not_cellsMatch_one first (.push second))
    · rintro (wrong | few)
      · exact absurd wrong two
      · match values, few with
        | [], _ =>
          intro i
          simpa using cellsMatch_nil 1
        | [value], _ => exact fifoOfCells_single hN value

/-- With a pop in the schedule, one element is all that goes through. -/
theorem fifoOfCells_first_pop_iff {N : ℕ} (hN : 1 ≤ N) {values : List T} {rest : List (Op T)}
    (fed : Fed (values.map Op.push ++ Op.pop :: rest)) :
    FifoOfCells N (values.map Op.push ++ Op.pop :: rest) ↔
      2 ≤ N ∧ (pushedValues (values.map Op.push ++ Op.pop :: rest)).length ≤ 1 := by
  obtain ⟨value, more, rfl, next⟩ := fed.first_pop
  constructor
  · intro fifo
    by_cases two : 2 ≤ N
    · refine ⟨two, ?_⟩
      cases more with
      | nil =>
        rcases next rfl with rfl | ⟨w, rest', rfl⟩
        · exact Nat.le_refl 1
        · exact absurd (fifo 3) (not_cellsMatch_of_pop two [value] [w] (by simp))
      | cons second more =>
        have here := fifo ((value :: second :: more).map Op.push ++ [Op.pop]).length
        have split := List.append_cons ((value :: second :: more).map Op.push) Op.pop rest
        rw [split, List.take_left] at here
        exact absurd here (not_cellsMatch_of_pop two (value :: second :: more) [] (by simp))
    · obtain rfl : N = 1 := by omega
      cases more with
      | nil => exact absurd (fifo 2) (not_cellsMatch_one value .pop)
      | cons second more => exact absurd (fifo 2) (not_cellsMatch_one value (.push second))
  · rintro ⟨two, few⟩
    simp only [pushedValues_append, pushedValues_pushes, pushedValues, List.length_append,
      List.length_cons] at few
    obtain rfl : more = [] := List.length_eq_zero_iff.mp (by omega)
    rcases next rfl with rfl | ⟨w, rest', rfl⟩
    · exact fifoOfCells_push_pop two value
    · simp only [pushedValues, List.length_cons] at few
      omega

/-- For which chunk sizes and schedules the queue is a FIFO of cells at every point. -/
theorem fifoOfCells_iff {N : ℕ} (hN : 1 ≤ N) (ops : List (Op T)) (fed : Fed ops) :
    FifoOfCells N ops ↔
      2 ≤ N ∧ (popCount ops = 0 ∨ (pushedValues ops).length ≤ 1) ∨
        N = 1 ∧ popCount ops = 0 ∧ (pushedValues ops).length ≤ 1 := by
  rcases pushes_or_first_pop ops with all | ⟨values, rest, rfl⟩
  · have none : popCount ops = 0 := by
      rw [all]
      exact popCount_pushes _
    have pushes := fifoOfCells_pushes_iff hN (pushedValues ops)
    rw [← all] at pushes
    rw [pushes]
    omega
  · have some : popCount (values.map Op.push ++ Op.pop :: rest) ≠ 0 := by simp [popCount]
    rw [fifoOfCells_first_pop_iff hN fed]
    omega

/-- Two elements and the first pop: `back()` was the first cell of the second chunk,
`front()` is the second cell of the first. -/
theorem not_fifoOfCells_two : Fed [.push 5, .push 6, (.pop : Op ℕ)] ∧
    ¬ FifoOfCells 2 [.push 5, .push 6, (.pop : Op ℕ)] := by
  refine ⟨?_, fun fifo => not_cellsMatch_of_pop (Nat.le_refl 2) [5, 6] [] (by simp) (fifo 3)⟩
  intro i
  match i with
  | 0 | 1 | 2 => decide
  | i + 3 => simp [popCount, pushedValues]

theorem fifoOfCells_iff_two : FifoOfCells 2 [.push 5, (.pop : Op ℕ)] := by
  refine (fifoOfCells_iff (by decide) _ ?_).mpr (Or.inl ⟨by decide, Or.inr (by decide)⟩)
  intro i
  match i with
  | 0 | 1 => decide
  | i + 2 => simp [popCount, pushedValues]

end DataChunkQueue
