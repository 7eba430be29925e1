import CppConcurrency.DataChunkQueueChunks

/-!
# Where the operations of a `zmqQueue` leave `back` and `end`

Nothing here asks whether the list of chunks is well formed: an operation that is defined
moves `back` and `end` by the positions alone, and gives no cell a value.
-/

namespace DataChunkQueue

open ZmqQueue

universe u

variable {T : Type u} {N : ℕ} {q q₁ q₂ q' : ZmqQueue T}

/-- Every value in a cell of `q'` was in this cell of `q`. -/
def OldValues (q q' : ZmqQueue T) : Prop :=
  ∀ c i v, content q' c i = some v → content q c i = some v

theorem OldValues.refl (q : ZmqQueue T) : OldValues q q := fun _ _ _ here => here

theorem OldValues.trans (first : OldValues q q₁) (second : OldValues q₁ q') : OldValues q q' :=
  fun c i v here => first c i v (second c i v here)

/-- The heap alone decides. -/
theorem OldValues.of_heap (same : q'.heap = q.heap) : OldValues q q' := by
  intro c i v here
  rw [content, same] at here
  exact here

theorem OldValues.update {c : ℕ} {k : Option (Chunk T)}
    (heap : q'.heap = Function.update q.heap c k)
    (old : ∀ k' ∈ k, ∀ i v, k'.values i = some v → content q c i = some v) : OldValues q q' := by
  intro d i v here
  rw [content, heap] at here
  by_cases this : d = c
  · subst this
    rw [Function.update_self] at here
    obtain ⟨k', hk, value⟩ := Option.bind_eq_some_iff.mp here
    exact old k' hk i v value
  · rw [Function.update_of_ne this] at here
    exact here

theorem modify_some {f : Chunk T → Chunk T} {p : Pointer} (written : q.modify f p = some q') :
    ∃ c k, p = .to c ∧ q.heap c = some k ∧
      q' = { q with heap := Function.update q.heap c (some (f k)) } := by
  rcases p with _ | _ | c
  · cases written
  · cases written
  · obtain ⟨k, hk, rfl⟩ := Option.map_eq_some_iff.mp written
    exact ⟨c, k, rfl, hk, rfl⟩

/-- A write to a link of the chunk that a pointer leads to. -/
theorem modify_link {f : Chunk T → Chunk T} {p : Pointer} (written : q.modify f p = some q')
    (kept : ∀ k, (f k).values = k.values) : q' = { q with heap := q'.heap } ∧ OldValues q q' := by
  obtain ⟨c, k, -, hk, rfl⟩ := modify_some written
  refine ⟨rfl, OldValues.update rfl ?_⟩
  rintro _ ⟨⟩ i v value
  rw [content, hk, Option.bind_some, ← kept k]
  exact value

theorem free_some {p : Pointer} (freed : q.free p = some q') :
    q' = { q with heap := q'.heap } ∧ OldValues q q' := by
  rcases p with _ | _ | c
  · cases freed
  · obtain rfl := Option.some.inj freed
    exact ⟨rfl, OldValues.refl q⟩
  · obtain ⟨k, hk, rfl⟩ := Option.map_eq_some_iff.mp freed
    exact ⟨rfl, OldValues.update rfl fun _ none => by cases none⟩

theorem malloc_old : OldValues q q.malloc.2 :=
  OldValues.update rfl (by rintro _ ⟨⟩ i v none; cases none)

/-- The last lines of `push()`, which link a chunk behind the last one. -/
theorem opened_some {link : Pointer}
    (opened : ((q.modify (fun k => { k with next := link }) q.endChunk).bind fun q =>
      (q.modify (fun k => { k with prev := q.endChunk }) link).bind fun q =>
        (q.chunk q.endChunk).map fun k => { q with endChunk := k.next, endPos := 0 }) = some q') :
    q'.back = q.back ∧ q'.endPos = 0 ∧ OldValues q q' := by
  obtain ⟨q₁, linked, opened⟩ := Option.bind_eq_some_iff.mp opened
  obtain ⟨q₂, joined, opened⟩ := Option.bind_eq_some_iff.mp opened
  obtain ⟨k, -, rfl⟩ := Option.map_eq_some_iff.mp opened
  obtain ⟨eq₁, old₁⟩ := modify_link linked fun _ => rfl
  obtain ⟨eq₂, old₂⟩ := modify_link joined fun _ => rfl
  refine ⟨?_, rfl, old₁.trans (old₂.trans (OldValues.of_heap rfl))⟩
  rw [eq₂, eq₁]
  rfl

/-- A push puts `back` where `end` was. -/
theorem push_some (pushed : q.push N = some q') :
    q'.back = ⟨q.endChunk, q.endPos⟩ ∧ q'.endPos = (if q.endPos + 1 = N then N else 0) ∧
      OldValues q q' := by
  simp only [ZmqQueue.push] at pushed
  split at pushed
  · rename_i full
    obtain rfl := Option.some.inj pushed
    exact ⟨rfl, by rw [if_pos full]; exact full, OldValues.of_heap rfl⟩
  · rename_i partly
    obtain ⟨back, endPos, old⟩ := opened_some pushed
    rw [if_neg partly]
    refine ⟨back.trans ?_, endPos, OldValues.trans ?_ old⟩
    · split <;> rfl
    · split
      · exact (OldValues.of_heap rfl).trans malloc_old
      · exact OldValues.of_heap rfl

/-- An unpush moves `back` and `end` one cell back each, every time it leaves a chunk to
the last cell of the chunk before. -/
theorem unpush_some (unpushed : q.unpush N = some q') :
    q'.backPos = (if q.backPos ≠ 0 then q.backPos - 1 else N - 1) ∧
      q'.endPos = (if q.endPos ≠ 0 then q.endPos - 1 else N - 1) ∧ OldValues q q' := by
  obtain ⟨q₁, moved, unpushed⟩ := Option.bind_eq_some_iff.mp unpushed
  obtain ⟨back, endPos, heap⟩ : q₁.backPos = (if q.backPos ≠ 0 then q.backPos - 1 else N - 1) ∧
      q₁.endPos = q.endPos ∧ q₁.heap = q.heap := by
    split at moved
    · rename_i within
      obtain rfl := Option.some.inj moved
      exact ⟨(if_pos within).symm, rfl, rfl⟩
    · rename_i crosses
      obtain ⟨k, -, rfl⟩ := Option.map_eq_some_iff.mp moved
      exact ⟨(if_neg crosses).symm, rfl, rfl⟩
  rw [← back, ← endPos]
  split at unpushed
  · rename_i within
    obtain rfl := Option.some.inj unpushed
    exact ⟨rfl, (if_pos within).symm, OldValues.of_heap heap⟩
  · rename_i crosses
    obtain ⟨k, -, unpushed⟩ := Option.bind_eq_some_iff.mp unpushed
    obtain ⟨k', -, unpushed⟩ := Option.bind_eq_some_iff.mp unpushed
    obtain ⟨q₂, freed, cut⟩ := Option.bind_eq_some_iff.mp unpushed
    obtain ⟨eq₂, old₂⟩ := free_some freed
    obtain ⟨eq', old'⟩ := modify_link cut fun _ => rfl
    rw [if_neg crosses, eq', eq₂]
    exact ⟨rfl, rfl, (OldValues.of_heap heap).trans ((OldValues.of_heap rfl).trans
      (old₂.trans old'))⟩

/-- A pop is at the other end of the queue. -/
theorem pop_some (popped : q.pop N = some q') :
    q'.back = q.back ∧ q'.endPos = q.endPos ∧ OldValues q q' := by
  simp only [ZmqQueue.pop] at popped
  split at popped
  · obtain ⟨k, -, popped⟩ := Option.bind_eq_some_iff.mp popped
    obtain ⟨q₁, detached, popped⟩ := Option.bind_eq_some_iff.mp popped
    obtain ⟨eq₁, old₁⟩ := modify_link detached fun _ => rfl
    obtain ⟨eq', old'⟩ := free_some popped
    rw [eq', eq₁]
    exact ⟨rfl, rfl, (OldValues.of_heap rfl).trans (old₁.trans ((OldValues.of_heap rfl).trans old'))⟩
  · obtain rfl := Option.some.inj popped
    exact ⟨rfl, rfl, OldValues.of_heap rfl⟩

theorem load_some {x : Cell} {value : Option T} (loaded : q.load N x = some value) :
    x.pos < N ∧ ∃ c, x.chunk = .to c ∧ value = content q c x.pos := by
  obtain ⟨inside, loaded⟩ := Option.ite_none_right_eq_some.mp loaded
  refine ⟨inside, ?_⟩
  rcases x with ⟨_ | _ | c, pos⟩
  · cases loaded
  · cases loaded
  · obtain ⟨k, hk, rfl⟩ := Option.map_eq_some_iff.mp loaded
    refine ⟨c, rfl, ?_⟩
    rw [content, show q.heap c = some k from hk]
    rfl

/-- A store is the only operation that gives a cell a value. -/
theorem store_some {x : Cell} {value : T} (stored : q.store N x value = some q') :
    x.pos < N ∧ q' = { q with heap := q'.heap } ∧
      ∀ c i v, content q' c i = some v → i = x.pos ∨ content q c i = some v := by
  obtain ⟨inside, stored⟩ := Option.ite_none_right_eq_some.mp stored
  obtain ⟨c, k, -, hk, rfl⟩ := modify_some stored
  refine ⟨inside, rfl, fun d i v here => ?_⟩
  rw [or_iff_not_imp_left]
  intro other
  by_cases this : d = c
  · subst this
    simp only [content, Function.update_self, Option.bind_some, Function.update_of_ne other] at here
    rw [content, hk]
    exact here
  · simp only [content, Function.update_of_ne this] at here
    exact here

end DataChunkQueue
