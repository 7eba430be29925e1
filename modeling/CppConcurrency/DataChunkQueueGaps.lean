import CppConcurrency.CellQueues
import CppConcurrency.DataChunkQueueChunks
import Mathlib.Data.List.Range

/-!
# A `zmqQueue` as a queue of cells

Every push opens a chunk, and a pop still walks through all the cells of one. So the
queue has gaps: between the cell that one push designates and the next one lie the other
cells of its chunk. From two cells a chunk on that is all that goes wrong.
-/

namespace DataChunkQueue

open ZmqQueue CellQueues

universe u

/-- The operations as `LockFreePipe` uses them. -/
def zmqQueue (T : Type u) (N : ℕ) : CellQueue (ZmqQueue T) Cell T where
  new := .new
  push q := q.push N
  unpush q := q.unpush N
  pop q := q.pop N
  front q := q.front
  back q := q.back
  load q c := q.load N c
  store q c value := q.store N c value

/-- The cells of one chunk from `pos` on. -/
def chunkCells (N c pos : ℕ) : List Cell := (List.range' pos (N - pos)).map fun i => ⟨.to c, i⟩

/-- The cells of the chunks, in the first one from `pos` on. -/
def cellsFrom (N : ℕ) : List ℕ → ℕ → List Cell
  | [], _ => []
  | c :: ids, pos => chunkCells N c pos ++ cellsFrom N ids 0

/-- The cells pushed and not popped when `last` is the chunk of `back`. -/
def held (N : ℕ) (ids : List ℕ) (pos last : ℕ) : List Cell :=
  cellsFrom N ids pos ++ [⟨.to last, 0⟩]

/-- The queue has been pushed to: `last` is the chunk of `back`, and the chunk behind it
is empty. -/
structure Gapped {T : Type u} (N : ℕ) (q : ZmqQueue T) (b : ℕ) (ids : List ℕ) (last e : ℕ) : Prop where
  linked : Linked q b (ids ++ [last]) e
  endPos : q.endPos = 0
  back : q.back = ⟨.to last, 0⟩
  inside : q.beginPos < N
  first : ids = [] → q.beginPos = 0

def Holds {T : Type u} (N : ℕ) (q : ZmqQueue T) (cells : List Cell) : Prop :=
  ∃ b ids last e, Gapped N q b ids last e ∧ cells = held N ids q.beginPos last

variable {T : Type u} {N : ℕ} {q : ZmqQueue T}

theorem mem_chunkCells {c pos : ℕ} {x : Cell} :
    x ∈ chunkCells N c pos ↔ x.chunk = .to c ∧ pos ≤ x.pos ∧ x.pos < N := by
  obtain ⟨p, i⟩ := x
  simp only [chunkCells, List.mem_map, List.mem_range'_1, Cell.mk.injEq]
  constructor
  · rintro ⟨j, ⟨low, high⟩, rfl, rfl⟩
    exact ⟨rfl, low, by omega⟩
  · rintro ⟨rfl, low, high⟩
    exact ⟨i, ⟨low, by omega⟩, rfl, rfl⟩

theorem chunkCells_cons {c pos : ℕ} (inside : pos < N) :
    chunkCells N c pos = ⟨.to c, pos⟩ :: chunkCells N c (pos + 1) := by
  obtain ⟨n, hn⟩ : ∃ n, N - pos = n + 1 := ⟨N - pos - 1, by omega⟩
  have rest : N - (pos + 1) = n := by omega
  rw [chunkCells, chunkCells, hn, rest, List.range'_succ, List.map_cons]

theorem chunkCells_end {c : ℕ} : chunkCells N c N = [] := by simp [chunkCells]

theorem chunkCells_nodup {c pos : ℕ} : (chunkCells N c pos).Nodup := by
  refine List.Nodup.map ?_ List.nodup_range'
  intro i j same
  exact (Cell.mk.inj same).2

theorem mem_cellsFrom {ids : List ℕ} {pos : ℕ} {x : Cell} (hx : x ∈ cellsFrom N ids pos) :
    ∃ c ∈ ids, x.chunk = .to c ∧ x.pos < N := by
  induction ids generalizing pos with
  | nil => cases hx
  | cons c ids ih =>
    rcases List.mem_append.mp hx with here | later
    · obtain ⟨chunk, -, inside⟩ := mem_chunkCells.mp here
      exact ⟨c, List.mem_cons_self, chunk, inside⟩
    · obtain ⟨d, hd, found⟩ := ih later
      exact ⟨d, List.mem_cons_of_mem _ hd, found⟩

theorem cellsFrom_nodup {ids : List ℕ} {pos : ℕ} (nodup : ids.Nodup) :
    (cellsFrom N ids pos).Nodup := by
  induction ids generalizing pos with
  | nil => exact List.nodup_nil
  | cons c ids ih =>
    obtain ⟨off, nodup⟩ := List.nodup_cons.mp nodup
    refine List.nodup_append.mpr ⟨chunkCells_nodup, ih nodup, ?_⟩
    rintro x here y later rfl
    obtain ⟨d, hd, chunk, -⟩ := mem_cellsFrom later
    obtain rfl : c = d := Pointer.to.inj ((mem_chunkCells.mp here).1.symm.trans chunk)
    exact off hd

/-- A chunk that ends the list adds all its cells. -/
theorem cellsFrom_concat {ids : List ℕ} {pos c : ℕ} (first : ids = [] → pos = 0) :
    cellsFrom N (ids ++ [c]) pos = cellsFrom N ids pos ++ chunkCells N c 0 := by
  induction ids generalizing pos with
  | nil =>
    rw [first rfl]
    exact List.append_nil _
  | cons d ids ih =>
    rw [List.cons_append, cellsFrom, cellsFrom, ih fun _ => rfl, List.append_assoc]

section

variable {b last e : ℕ} {ids : List ℕ} {x : Cell}

/-- The cells lie in allocated chunks, all of them different. -/
theorem Gapped.mem (h : Gapped N q b ids last e)
    (hx : x ∈ held N ids q.beginPos last) :
    ∃ c ∈ ids ++ [last], x = ⟨.to c, x.pos⟩ ∧ x.pos < N ∧ (q.heap c).isSome = true := by
  have positive := Nat.lt_of_le_of_lt (Nat.zero_le _) h.inside
  obtain ⟨c, hc, chunk, inside⟩ : ∃ c ∈ ids ++ [last], x.chunk = .to c ∧ x.pos < N := by
    rcases List.mem_append.mp hx with here | here
    · obtain ⟨c, hc, found⟩ := mem_cellsFrom here
      exact ⟨c, List.mem_append_left _ hc, found⟩
    · obtain rfl := List.mem_singleton.mp here
      exact ⟨last, by simp, rfl, positive⟩
  obtain ⟨k, hk⟩ := h.linked.allocated (List.mem_append_left _ hc)
  exact ⟨c, hc, by rw [← chunk], inside, Option.isSome_iff_exists.mpr ⟨k, hk⟩⟩

theorem Gapped.nodup (h : Gapped N q b ids last e) :
    (held N ids q.beginPos last).Nodup := by
  obtain ⟨nodup, -, -⟩ := List.nodup_append.mp h.linked.nodup
  obtain ⟨nodup, -, apart⟩ := List.nodup_append.mp nodup
  refine List.nodup_append.mpr ⟨cellsFrom_nodup nodup, List.nodup_singleton _, ?_⟩
  rintro y before z after rfl
  obtain ⟨c, hc, chunk, -⟩ := mem_cellsFrom before
  obtain rfl := List.mem_singleton.mp after
  exact apart c hc last (List.mem_singleton_self _) (Pointer.to.inj chunk).symm

/-- The list starts with the front. -/
theorem Gapped.front (h : Gapped N q b ids last e) :
    ∃ rest, held N ids q.beginPos last = q.front :: rest := by
  have chain := h.linked.chain
  cases ids with
  | nil =>
    obtain ⟨rfl, -⟩ := chain
    refine ⟨[], ?_⟩
    rw [ZmqQueue.front, h.linked.beginChunk, h.first rfl]
    rfl
  | cons c ids =>
    obtain ⟨rfl, -⟩ := chain
    rw [held, cellsFrom, chunkCells_cons h.inside, ZmqQueue.front, h.linked.beginChunk]
    exact ⟨_, rfl⟩

theorem Gapped.load (h : Gapped N q b ids last e)
    (hx : x ∈ held N ids q.beginPos last) :
    ∃ c ∈ ids ++ [last], x.chunk = .to c ∧ q.load N x = some (content q c x.pos) := by
  obtain ⟨c, hc, eq, inside, allocated⟩ := h.mem hx
  refine ⟨c, hc, by rw [eq], ?_⟩
  rw [eq]
  exact load_eq inside allocated

/-- Where the contents of the chunks stay, the values of the cells stay. -/
theorem Gapped.load_congr (h : Gapped N q b ids last e) {q' : ZmqQueue T} {b' last' e' : ℕ}
    {ids' : List ℕ} (h' : Gapped N q' b' ids' last' e') (hx : x ∈ held N ids q.beginPos last)
    (hx' : x ∈ held N ids' q'.beginPos last')
    (same : ∀ c ∈ ids ++ [last], c ∈ ids' ++ [last'] → x.chunk = .to c →
      content q' c x.pos = content q c x.pos) :
    q'.load N x = q.load N x := by
  obtain ⟨c, hc, chunk, loaded⟩ := h.load hx
  obtain ⟨c', hc', chunk', loaded'⟩ := h'.load hx'
  obtain rfl : c = c' := Pointer.to.inj (chunk.symm.trans chunk')
  rw [loaded, loaded', same c hc hc' chunk]

theorem Gapped.store (h : Gapped N q b ids last e) (hx : x ∈ held N ids q.beginPos last)
    (value : T) :
    ∃ q', q.store N x value = some q' ∧ Gapped N q' b ids last e ∧ q'.beginPos = q.beginPos ∧
      q'.load N x = some (some value) ∧
      ∀ y ∈ held N ids q.beginPos last, y ≠ x → q'.load N y = q.load N y := by
  obtain ⟨c, hc, eq, inside, allocated⟩ := h.mem hx
  obtain ⟨q', stored, linked, back, front, endPos, written, used⟩ :=
    h.linked.store inside allocated value
  have pos : q'.beginPos = q.beginPos := (Cell.mk.inj front).2
  have h' : Gapped N q' b ids last e := ⟨linked, endPos.trans h.endPos, back.trans h.back,
    pos ▸ h.inside, fun none => pos.trans (h.first none)⟩
  refine ⟨q', eq ▸ stored, h', pos, ?_, ?_⟩
  · rw [eq, load_eq inside ((used c).trans allocated), written, if_pos ⟨rfl, rfl⟩]
  · intro y hy other
    refine h.load_congr h' hy (pos.symm ▸ hy) fun d _ _ chunk => ?_
    have elsewhere : ¬ (d = c ∧ y.pos = x.pos) := by
      rintro ⟨rfl, position⟩
      apply other
      rw [eq, ← position, ← chunk]
    rw [written, if_neg elsewhere]

/-- A push leaves the rest of the old back's chunk between it and the new back. -/
theorem Gapped.push (h : Gapped N q b ids last e) (two : 2 ≤ N) :
    ∃ q' d, q.push N = some q' ∧ Gapped N q' b (ids ++ [last]) e d ∧
      held N (ids ++ [last]) q'.beginPos e =
        held N ids q.beginPos last ++ chunkCells N last 1 ++ [⟨.to e, 0⟩] ∧
      ∀ y ∈ held N ids q.beginPos last, q'.load N y = q.load N y := by
  have partly : q.endPos + 1 ≠ N := by
    have := h.endPos
    omega
  obtain ⟨q', d, pushed, linked, back, endPos, beginPos, kept⟩ := h.linked.push partly
  have h' : Gapped N q' b (ids ++ [last]) e d := ⟨linked, endPos, by rw [back, h.endPos],
    beginPos ▸ h.inside, fun none => absurd none (by simp)⟩
  have grown : held N (ids ++ [last]) q'.beginPos e =
      held N ids q.beginPos last ++ chunkCells N last 1 ++ [⟨.to e, 0⟩] := by
    rw [held, held, beginPos, cellsFrom_concat h.first, chunkCells_cons (by omega : 0 < N)]
    simp
  refine ⟨q', d, pushed, h', grown, fun y hy => h.load_congr h' hy ?_ ?_⟩
  · rw [grown, List.append_assoc]
    exact List.mem_append_left _ hy
  · intro c hc _ _
    exact kept c (List.mem_append_left _ hc) y.pos

theorem Gapped.pop (h : Gapped N q b ids last e) {c d : Cell} {cells : List Cell}
    (two : held N ids q.beginPos last = c :: d :: cells) :
    ∃ q' b' ids', q.pop N = some q' ∧ Gapped N q' b' ids' last e ∧
      held N ids' q'.beginPos last = d :: cells ∧
      ∀ y ∈ d :: cells, q'.load N y = q.load N y := by
  cases ids with
  | nil => simp [held, cellsFrom] at two
  | cons a ids =>
    have before : ∀ y ∈ d :: cells, y ∈ held N (a :: ids) q.beginPos last := by
      intro y hy
      rw [two]
      exact List.mem_cons_of_mem _ hy
    rw [held, cellsFrom, chunkCells_cons h.inside, List.cons_append, List.cons_append] at two
    have rest := (List.cons.inj two).2
    by_cases used : q.beginPos + 1 = N
    · rw [used, chunkCells_end, List.nil_append] at rest
      obtain ⟨q', b', popped, linked, -, beginPos, back, endPos, kept⟩ := h.linked.pop_chunk used
      have positive := Nat.lt_of_le_of_lt (Nat.zero_le _) h.inside
      have h' : Gapped N q' b' ids last e := ⟨linked, endPos.trans h.endPos, back.trans h.back,
        beginPos ▸ positive, fun _ => beginPos⟩
      have shrunk : held N ids q'.beginPos last = d :: cells := by rw [held, beginPos, rest]
      refine ⟨q', b', ids, popped, h', shrunk, fun y hy => ?_⟩
      exact h.load_congr h' (before y hy) (shrunk ▸ hy) fun c _ hc _ =>
        kept c (List.mem_append_left _ hc) y.pos
    · obtain ⟨q', popped, linked, beginPos, back, endPos, heap⟩ := h.linked.pop_within used
      have inside := h.inside
      have h' : Gapped N q' b (a :: ids) last e := ⟨linked, endPos.trans h.endPos,
        back.trans h.back, by omega, fun none => absurd none (List.cons_ne_nil _ _)⟩
      have shrunk : held N (a :: ids) q'.beginPos last = d :: cells := by
        rw [held, cellsFrom, beginPos, rest]
      refine ⟨q', b, a :: ids, popped, h', shrunk, fun y hy => ?_⟩
      exact h.load_congr h' (before y hy) (shrunk ▸ hy) fun c _ _ _ => by
        rw [content, content, heap]

end

/-- From two cells a chunk on, the queue keeps the contract except that it has gaps. -/
theorem zmqQueue_contract (T : Type u) {N : ℕ} (two : 2 ≤ N) :
    Contract (zmqQueue T N) False (Holds N) where
  start := by
    have partly : (ZmqQueue.new : ZmqQueue T).endPos + 1 ≠ N := by
      change 0 + 1 ≠ N
      omega
    obtain ⟨q, d, pushed, linked, back, endPos, beginPos, -⟩ := new_linked.push partly
    refine ⟨q, ⟨.to 0, 0⟩, pushed, 0, [], 0, d, ⟨linked, endPos, back, ?_, fun _ => beginPos⟩, rfl⟩
    rw [beginPos]
    exact Nat.lt_of_lt_of_le Nat.two_pos two
  nodup := by
    rintro q cells ⟨b, ids, last, e, h, rfl⟩
    exact h.nodup
  front := by
    rintro q c cells ⟨b, ids, last, e, h, held⟩
    obtain ⟨rest, first⟩ := h.front
    exact (List.cons.inj (held.trans first)).1.symm
  back := by
    rintro q c cells ⟨b, ids, last, e, h, held⟩
    have last := (List.append_inj' held rfl).2
    exact h.back.trans (List.singleton_inj.mp last).symm
  load := by
    rintro q cells c ⟨b, ids, last, e, h, rfl⟩ hc
    obtain ⟨_, -, -, loaded⟩ := h.load hc
    exact Option.isSome_iff_exists.mpr ⟨_, loaded⟩
  store := by
    rintro q cells c ⟨b, ids, last, e, h, rfl⟩ hc value
    obtain ⟨q', stored, h', pos, written, kept⟩ := h.store hc value
    exact ⟨q', stored, ⟨b, ids, last, e, h', by rw [pos]⟩, written, kept⟩
  push := by
    rintro q c cells ⟨b, ids, last, e, h, held⟩
    obtain ⟨q', d, pushed, h', grown, kept⟩ := h.push two
    refine ⟨q', chunkCells N last 1, ⟨.to e, 0⟩, pushed, ⟨b, ids ++ [last], e, d, h', ?_⟩,
      fun wrong => wrong.elim, fun x hx => kept x (held ▸ hx)⟩
    rw [held]
    exact grown.symm
  pop := by
    rintro q c d cells ⟨b, ids, last, e, h, held⟩
    obtain ⟨q', b', ids', popped, h', shrunk, kept⟩ := h.pop held.symm
    exact ⟨q', popped, ⟨b', ids', last, e, h', shrunk.symm⟩, kept⟩
  unpush := fun wrong => wrong.elim

end DataChunkQueue
