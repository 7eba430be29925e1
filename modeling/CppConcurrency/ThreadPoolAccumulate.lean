import CppConcurrency.ThreadPoolTasks
import Mathlib.Algebra.BigOperators.Group.List.Basic
import Mathlib.Data.List.Chain

/-!
# `parallel_accumulate`

The sequence is cut into blocks of 25 elements. All blocks but the last are submitted to
the pool, whose workers run them in some order; the last one is computed by the calling
thread, which then adds up the futures. Iterators are positions in the sequence. A
distance is a `difference_type`, below `2 ^ 63`, so rounding it up does not wrap.
-/

namespace ThreadPool

universe u v

/-! ### The blocks -/

def blockSize : ℕ := 25

def numBlocks (length : ℕ) : ℕ := (length + blockSize - 1) / blockSize

structure Block where
  first : ℕ
  last : ℕ
  deriving DecidableEq

/-- The loop that submits the blocks. It leaves `block_start` behind the last of them. -/
def submitBlocks : ℕ → ℕ → List Block × ℕ
  | 0, blockStart => ([], blockStart)
  | n + 1, blockStart =>
    let blockEnd := blockStart + blockSize
    let rest := submitBlocks n blockEnd
    (⟨blockStart, blockEnd⟩ :: rest.1, rest.2)

/-- The blocks run from `start` to `stop`, each beginning where the one before it ends. -/
def Covers : ℕ → List Block → ℕ → Prop
  | start, [], stop => start = stop
  | start, b :: rest, stop => b.first = start ∧ b.first < b.last ∧ Covers b.last rest stop

theorem numBlocks_pos {length : ℕ} (nonempty : 0 < length) : 0 < numBlocks length :=
  Nat.div_pos (by unfold blockSize; omega) (by decide)

theorem submitBlocks_length (n start : ℕ) : (submitBlocks n start).1.length = n := by
  induction n generalizing start with
  | zero => rfl
  | succ n ih => exact congrArg Nat.succ (ih _)

/-- Once the workers have run everything that was submitted, the pool has run the tasks in
some order, each of them once. -/
theorem ran_perm_range {n : ℕ} {C : Type v} [DecidableEq C] [Fintype C] {s : State n C ℕ}
    (reached : (machine n C ℕ).Reach s) {m : ℕ}
    (submitted : s.queue.pushed.map Prod.snd = List.range m) (all : s.ran.length = m) :
    (s.ran.filterMap Prod.snd).Perm (List.range m) := by
  obtain ⟨queue, -, tasks⟩ := reach_tasks reached
  obtain ⟨front, nodes, inv⟩ := ThreadSafeQueue.reach_inv queue
  have order := inv.order
  have handed := tasks.popped_perm
  have pushed : s.queue.pushed.map (fun e => some e.2) = (List.range m).map some := by
    rw [← submitted, List.map_map]
    rfl
  have lengths := congrArg List.length order
  have few := handed.length_eq
  rw [pushed] at lengths order
  simp only [List.length_append, List.length_map, List.length_range] at lengths few
  have held : (List.finRange n).flatMap (heldBy s) = [] := List.length_eq_zero_iff.mp (by omega)
  have queued : nodes = [] := List.length_eq_zero_iff.mp (by omega)
  rw [held, List.append_nil] at handed
  rw [queued, List.map_nil, List.append_nil] at order
  rw [order] at handed
  have values := (handed.filterMap id).symm
  simpa [List.filterMap_map, Function.comp_def] using values

section Elements

variable {T : Type u}

/-- The elements between the two iterators of a block. -/
def elements (xs : List T) (b : Block) : List T := (xs.drop b.first).take (b.last - b.first)

end Elements

/-! ### The result -/

section Result

variable {T : Type u} [AddMonoid T]

/-- `std::accumulate`. -/
def accumulate (xs : List T) (init : T) : T := xs.foldl (· + ·) init

/-- `accumulate_block`: `res` is not initialised, and what `std::accumulate` returns is
not used. -/
def accumulateBlock (res : T) (xs : List T) (b : Block) : T :=
  let _ := accumulate (elements xs b) res
  res

/-- A worker runs the task submitted for block `i`, which makes `futures[i]` ready. -/
def runTask (garbage : ℕ → T) (xs : List T) (tasks : List Block) (futures : ℕ → Option T)
    (i : ℕ) : ℕ → Option T :=
  Function.update futures i (tasks[i]?.map (accumulateBlock (garbage i) xs))

/-- The loop over `result += futures[i].get()`, which waits for ever on a future that
never becomes ready. -/
def gather (futures : ℕ → Option T) : ℕ → ℕ → T → Option T
  | 0, _, result => some result
  | n + 1, i, result => (futures i).bind fun value => gather futures n (i + 1) (result + value)

/-- The tasks are run in the given order, and `garbage i` is what the variable `res` of
block `i` happens to hold. -/
def parallelAccumulate (order : List ℕ) (garbage : ℕ → T) (xs : List T) (init : T) : Option T :=
  let length := xs.length
  if length = 0 then some init
  else
    let n := numBlocks length - 1
    let submitted := submitBlocks n 0
    let futures := order.foldl (runTask garbage xs submitted.1) fun _ => none
    let lastResult := accumulateBlock (garbage n) xs ⟨submitted.2, length⟩
    (gather futures n 0 init).map (· + lastResult)

/-- Futures are independent: each one holds what its own task left. -/
theorem runTasks_apply (garbage : ℕ → T) (xs : List T) (tasks : List Block) (order : List ℕ)
    (futures : ℕ → Option T) (i : ℕ) :
    order.foldl (runTask garbage xs tasks) futures i =
      if i ∈ order then tasks[i]?.map (accumulateBlock (garbage i) xs) else futures i := by
  induction order generalizing futures with
  | nil => simp
  | cons j order ih =>
    rw [List.foldl_cons, ih, runTask, Function.update_apply]
    by_cases later : i ∈ order
    · simp [later]
    · by_cases now : i = j
      · subst now
        simp
      · simp [later, now]

theorem gather_ready {futures : ℕ → Option T} {value : ℕ → T} (n i : ℕ) (result : T)
    (ready : ∀ j, i ≤ j → j < i + n → futures j = some (value j)) :
    gather futures n i result = some (result + ((List.range' i n).map value).sum) := by
  induction n generalizing i result with
  | zero => simp [gather]
  | succ n ih =>
    have later : ∀ j, i + 1 ≤ j → j < i + 1 + n → futures j = some (value j) :=
      fun j low high => ready j (by omega) (by omega)
    rw [gather, ready i le_rfl (by omega), Option.bind_some, ih _ _ later, List.range'_succ,
      List.map_cons, List.sum_cons, add_assoc]

theorem parallelAccumulate_nil (order : List ℕ) (garbage : ℕ → T) (init : T) :
    parallelAccumulate order garbage [] init = some init := rfl

/-- In every order of the tasks the result is the sum of what the blocks' variables
happened to hold. -/
theorem parallelAccumulate_eq {order : List ℕ} (garbage : ℕ → T) {xs : List T} (init : T)
    (nonempty : xs ≠ []) (all : order.Perm (List.range (numBlocks xs.length - 1))) :
    parallelAccumulate order garbage xs init =
      some (init + ((List.range (numBlocks xs.length)).map garbage).sum) := by
  have pos : 0 < xs.length := List.length_pos_iff.mpr nonempty
  obtain ⟨n, hn⟩ : ∃ n, numBlocks xs.length = n + 1 :=
    ⟨numBlocks xs.length - 1, by have := numBlocks_pos pos; omega⟩
  rw [hn, Nat.add_sub_cancel] at all
  have ready : ∀ j, 0 ≤ j → j < 0 + n →
      order.foldl (runTask garbage xs (submitBlocks n 0).1) (fun _ => none) j =
        some (garbage j) := by
    intro j _ hj
    have run : j ∈ order := all.mem_iff.mpr (List.mem_range.mpr (by omega))
    have submitted : j < (submitBlocks n 0).1.length := by
      rw [submitBlocks_length]
      omega
    rw [runTasks_apply, if_pos run, List.getElem?_eq_getElem submitted]
    rfl
  simp only [parallelAccumulate, if_neg pos.ne', hn, Nat.add_sub_cancel]
  rw [gather_ready n 0 init ready, Option.map_some, ← List.range_eq_range', List.range_succ,
    List.map_append, List.sum_append, ← add_assoc]
  simp [accumulateBlock]

end Result

end ThreadPool
