import CppConcurrency.DataChunkQueue
import CppConcurrency.LinkedChains
import Mathlib.Data.List.Nodup

/-!
# The list of chunks of a `zmqQueue`

From `begin_chunk` the written `next` links lead through pairwise distinct chunks to
`end_chunk`, and the spare chunk is none of them. A push on a chunk with room appends a
chunk, a pop at the end of a chunk drops one, and no chunk that stays loses a value.
-/

namespace DataChunkQueue

open ZmqQueue LinkedChains

universe u

variable {T : Type u}

/-- The successor a chunk links to. -/
def link (q : ZmqQueue T) (c : ℕ) : Option (Unit × ℕ) :=
  (q.heap c).bind fun k =>
    match k.next with
    | .to d => some ((), d)
    | _ => none

/-- The value in a cell of an allocated chunk. -/
def content (q : ZmqQueue T) (c pos : ℕ) : Option T := (q.heap c).bind fun k => k.values pos

/-- `ids` are the chunks from `b` up to the last chunk `e`, which is left out. -/
structure Linked (q : ZmqQueue T) (b : ℕ) (ids : List ℕ) (e : ℕ) : Prop where
  beginChunk : q.beginChunk = .to b
  endChunk : q.endChunk = .to e
  chain : Chain (link q) b (ids.map fun c => (c, ())) e
  last : (q.heap e).isSome = true
  nodup : (ids ++ [e]).Nodup
  fresh : ∀ c, q.fresh ≤ c → q.heap c = none
  spare : q.spareChunk = .null ∨
    ∃ s, q.spareChunk = .to s ∧ (q.heap s).isSome = true ∧ s ∉ ids ++ [e]

theorem new_linked : Linked (new : ZmqQueue T) 0 [] 0 where
  beginChunk := rfl
  endChunk := rfl
  chain := rfl
  last := rfl
  nodup := List.nodup_singleton 0
  fresh := fun c hc => by
    have : 1 ≤ c := hc
    change Function.update (fun _ => none) 0 (some (Chunk.raw (T := T))) c = none
    exact Function.update_of_ne (by omega) _ _
  spare := Or.inl rfl

variable {q : ZmqQueue T} {b e : ℕ} {ids : List ℕ}

theorem link_some {c d : ℕ} (h : link q c = some ((), d)) :
    ∃ k, q.heap c = some k ∧ k.next = .to d := by
  unfold link at h
  cases hk : q.heap c with
  | none => simp [hk] at h
  | some k =>
    refine ⟨k, rfl, ?_⟩
    rw [hk, Option.bind_some] at h
    split at h
    · rename_i d' hd
      rw [hd, (Prod.mk.inj (Option.some.inj h)).2]
    · cases h

theorem Linked.allocated (h : Linked q b ids e) {c : ℕ} (hc : c ∈ ids ++ [e]) :
    ∃ k, q.heap c = some k := by
  rcases List.mem_append.mp hc with inside | last
  · have chain := h.chain
    clear h hc
    induction ids generalizing b with
    | nil => cases inside
    | cons a ids ih =>
      obtain ⟨rfl, d, hd, tail⟩ := chain
      rcases List.mem_cons.mp inside with rfl | later
      · obtain ⟨k, hk, -⟩ := link_some hd
        exact ⟨k, hk⟩
      · exact ih later tail
  · obtain rfl := List.mem_singleton.mp last
    exact Option.isSome_iff_exists.mp h.last

/-- A chunk in use is not the one `malloc` would return. -/
theorem Linked.lt_fresh (h : Linked q b ids e) {c : ℕ} {k : Chunk T} (hc : q.heap c = some k) :
    c < q.fresh := by
  by_contra above
  rw [h.fresh c (Nat.le_of_not_lt above)] at hc
  cases hc

/-! ### Writing a value -/

theorem store_eq {N c pos : ℕ} {k : Chunk T} (inside : pos < N) (hk : q.heap c = some k)
    (value : T) :
    q.store N ⟨.to c, pos⟩ value = some { q with
      heap := Function.update q.heap c
        (some { k with values := Function.update k.values pos (some value) }) } := by
  simp only [store, if_pos inside, ZmqQueue.modify, hk, Option.map_some]

theorem load_eq {N c pos : ℕ} (inside : pos < N) (hc : (q.heap c).isSome = true) :
    q.load N ⟨.to c, pos⟩ = some (content q c pos) := by
  obtain ⟨k, hk⟩ := Option.isSome_iff_exists.mp hc
  simp only [load, if_pos inside, ZmqQueue.chunk, content, hk, Option.map_some, Option.bind_some]

/-- Storing a value changes one cell and no link. -/
theorem Linked.store (h : Linked q b ids e) {N c pos : ℕ} (inside : pos < N)
    (hc : (q.heap c).isSome = true) (value : T) :
    ∃ q', q.store N ⟨.to c, pos⟩ value = some q' ∧ Linked q' b ids e ∧
      q'.back = q.back ∧ q'.front = q.front ∧ q'.endPos = q.endPos ∧
      (∀ d i, content q' d i = if d = c ∧ i = pos then some value else content q d i) ∧
      ∀ d, (q'.heap d).isSome = (q.heap d).isSome := by
  obtain ⟨k, hk⟩ := Option.isSome_iff_exists.mp hc
  have used : ∀ d, (Function.update q.heap c (some { k with
      values := Function.update k.values pos (some value) }) d).isSome = (q.heap d).isSome := by
    intro d
    by_cases here : d = c
    · subst here
      rw [Function.update_self, hk]
      rfl
    · rw [Function.update_of_ne here]
  refine ⟨_, store_eq inside hk value, ⟨h.beginChunk, h.endChunk, ?_, ?_, h.nodup, ?_, ?_⟩, rfl,
    rfl, rfl, ?_, used⟩
  · apply h.chain.frame
    intro d _
    by_cases here : d = c
    · subst here
      simp only [link, Function.update_self, hk, Option.bind_some]
    · simp only [link, Function.update_of_ne here]
  · exact (used e).trans h.last
  · intro d hd
    have none := (used d).trans (by rw [h.fresh d hd])
    simpa using none
  · rcases h.spare with null | ⟨s, hs, allocated, off⟩
    · exact Or.inl null
    · exact Or.inr ⟨s, hs, (used s).trans allocated, off⟩
  · intro d i
    by_cases here : d = c
    · subst here
      by_cases there : i = pos
      · subst there
        simp [content]
      · simp [content, hk, there]
    · simp [content, here]

/-! ### Growing -/

/-- `push` on a chunk with room: `d` is the new last chunk, out of the spare pointer or
out of `malloc`. -/
theorem push_opens {N d : ℕ} {k : Chunk T} (partly : q.endPos + 1 ≠ N)
    (last : q.endChunk = .to e) (hk : q.heap e = some k) (other : e ≠ d)
    (target : q.spareChunk = .null ∧ d = q.fresh ∨
      q.spareChunk = .to d ∧ (q.heap d).isSome = true ∧ d < q.fresh) :
    ∃ q' kd, q.push N = some q' ∧ q'.beginChunk = q.beginChunk ∧ q'.endChunk = .to d ∧
      q'.back = ⟨.to e, q.endPos⟩ ∧ q'.endPos = 0 ∧ q'.beginPos = q.beginPos ∧
      q'.spareChunk = .null ∧ q.fresh ≤ q'.fresh ∧ d < q'.fresh ∧
      q'.heap = Function.update (Function.update q.heap e (some { k with next := .to d })) d
        (some kd) := by
  rcases target with ⟨null, rfl⟩ | ⟨spare, allocated, used⟩
  · refine ⟨{ q with
      heap := Function.update (Function.update q.heap e (some { k with next := .to q.fresh }))
        q.fresh (some { Chunk.raw with prev := .to e })
      fresh := q.fresh + 1
      backChunk := .to e
      backPos := q.endPos
      endChunk := .to q.fresh
      endPos := 0
      spareChunk := .null }, { Chunk.raw with prev := .to e }, ?_, rfl, rfl, rfl, rfl, rfl, rfl,
      Nat.le_succ _, Nat.lt_succ_self _, rfl⟩
    simp [ZmqQueue.push, partly, null, last, malloc, ZmqQueue.modify, ZmqQueue.chunk, hk, other,
      Function.update_of_ne (Ne.symm other), Function.update_comm other]
  · obtain ⟨kd, hd⟩ := Option.isSome_iff_exists.mp allocated
    refine ⟨{ q with
      heap := Function.update (Function.update q.heap e (some { k with next := .to d })) d
        (some { kd with prev := .to e })
      backChunk := .to e
      backPos := q.endPos
      endChunk := .to d
      endPos := 0
      spareChunk := .null }, { kd with prev := .to e }, ?_, rfl, rfl, rfl, rfl, rfl, rfl,
      Nat.le_refl _, used, rfl⟩
    simp [ZmqQueue.push, partly, spare, last, ZmqQueue.modify, ZmqQueue.chunk, hk, hd, other,
      Function.update_of_ne (Ne.symm other)]

theorem Linked.push {N : ℕ} (h : Linked q b ids e) (partly : q.endPos + 1 ≠ N) :
    ∃ q' d, q.push N = some q' ∧ Linked q' b (ids ++ [e]) d ∧ q'.back = ⟨.to e, q.endPos⟩ ∧
      q'.endPos = 0 ∧ q'.beginPos = q.beginPos ∧
      ∀ c ∈ ids ++ [e], ∀ i, content q' c i = content q c i := by
  obtain ⟨k, hk⟩ := Option.isSome_iff_exists.mp h.last
  obtain ⟨d, off, target⟩ : ∃ d, d ∉ ids ++ [e] ∧ (q.spareChunk = .null ∧ d = q.fresh ∨
      q.spareChunk = .to d ∧ (q.heap d).isSome = true ∧ d < q.fresh) := by
    rcases h.spare with null | ⟨s, hs, allocated, off⟩
    · refine ⟨q.fresh, fun used => ?_, Or.inl ⟨null, rfl⟩⟩
      obtain ⟨k', hk'⟩ := h.allocated used
      exact absurd (h.lt_fresh hk') (Nat.lt_irrefl _)
    · obtain ⟨ks, hks⟩ := Option.isSome_iff_exists.mp allocated
      exact ⟨s, off, Or.inr ⟨hs, allocated, h.lt_fresh hks⟩⟩
  have other : e ≠ d := fun same => off (same ▸ List.mem_append_right _ (List.mem_singleton_self e))
  obtain ⟨q', kd, pushed, hbegin, hend, hback, hpos, hfront, hspare, grown, below, heap⟩ :=
    push_opens partly h.endChunk hk other target
  obtain ⟨nodup, -, apart⟩ := List.nodup_append.mp h.nodup
  have kept : ∀ c, c ≠ e → c ≠ d → q'.heap c = q.heap c := by
    intro c hc hd
    rw [heap, Function.update_of_ne hd, Function.update_of_ne hc]
  have opened : q'.heap e = some { k with next := .to d } := by
    rw [heap, Function.update_of_ne other, Function.update_self]
  refine ⟨q', d, pushed, ⟨hbegin.trans h.beginChunk, hend, ?_, ?_, ?_, ?_, Or.inl hspare⟩, hback,
    hpos, hfront, ?_⟩
  · rw [List.map_append]
    refine Chain.snoc (h.chain.frame ?_) ?_
    · intro c hc
      have inside : c ∈ ids := by simpa using hc
      have notLast : c ≠ e := fun same => apart c inside e (List.mem_singleton_self e) same
      have notNew : c ≠ d := fun same => off (same ▸ List.mem_append_left _ inside)
      simp only [link, kept c notLast notNew]
    · simp only [link, opened, Option.bind_some]
  · rw [heap, Function.update_self]
    rfl
  · refine List.nodup_append.mpr ⟨h.nodup, List.nodup_singleton d, ?_⟩
    intro c hc d' hd' same
    rw [List.mem_singleton.mp hd'] at same
    exact off (same ▸ hc)
  · intro c hc
    have unused := h.fresh c (Nat.le_trans grown hc)
    have notLast : c ≠ e := by
      rintro rfl
      rw [hk] at unused
      cases unused
    rw [kept c notLast (by omega), unused]
  · intro c hc i
    by_cases last : c = e
    · subst last
      simp only [content, opened, hk, Option.bind_some]
    · have notNew : c ≠ d := fun same => off (same ▸ hc)
      simp only [content, kept c last notNew]

/-! ### Shrinking -/

theorem pop_within {N : ℕ} (within : q.beginPos + 1 ≠ N) :
    q.pop N = some { q with beginPos := q.beginPos + 1 } := by
  simp only [ZmqQueue.pop, if_neg within]

theorem Linked.pop_within {N : ℕ} (h : Linked q b ids e) (within : q.beginPos + 1 ≠ N) :
    ∃ q', q.pop N = some q' ∧ Linked q' b ids e ∧ q'.beginPos = q.beginPos + 1 ∧
      q'.back = q.back ∧ q'.endPos = q.endPos ∧ q'.heap = q.heap :=
  ⟨_, DataChunkQueue.pop_within within, ⟨h.beginChunk, h.endChunk, h.chain, h.last, h.nodup,
    h.fresh, h.spare⟩, rfl, rfl, rfl, rfl⟩

/-- The first chunk becomes the spare one; a spare chunk that was there is freed. -/
theorem Linked.pop_chunk {N c : ℕ} (h : Linked q b (c :: ids) e) (used : q.beginPos + 1 = N) :
    ∃ q' d, q.pop N = some q' ∧ Linked q' d ids e ∧ (ids ++ [e]).head? = some d ∧
      q'.beginPos = 0 ∧ q'.back = q.back ∧ q'.endPos = q.endPos ∧
      ∀ x ∈ ids ++ [e], ∀ i, content q' x i = content q x i := by
  obtain ⟨rfl, d, hd, tail⟩ := h.chain
  obtain ⟨kb, hkb, next⟩ := link_some hd
  obtain ⟨offRest, nodup⟩ := List.nodup_cons.mp h.nodup
  have first : (ids ++ [e]).head? = some d := by
    cases ids with
    | nil =>
      obtain rfl : d = e := tail
      rfl
    | cons a rest => rw [tail.1]; rfl
  have inside : d ∈ ids ++ [e] := List.mem_of_head? first
  obtain ⟨kd, hkd⟩ := h.allocated (List.mem_cons_of_mem _ inside)
  -- the chunk freed, if any, is none of the chunks that stay
  obtain ⟨heap, popped, off, frees⟩ : ∃ heap : ℕ → Option (Chunk T),
      q.pop N = some { q with
        heap := heap, beginChunk := .to d, beginPos := 0, spareChunk := .to b } ∧
      (∀ x ∈ b :: (ids ++ [e]), heap x =
        Function.update q.heap d (some { kd with prev := .null }) x) ∧
      ∀ x, heap x = none ∨ heap x = Function.update q.heap d (some { kd with prev := .null }) x := by
    rcases h.spare with null | ⟨s, hs, allocated, offSpare⟩
    · exact ⟨_, by simp [ZmqQueue.pop, used, h.beginChunk, ZmqQueue.chunk, hkb, next,
        ZmqQueue.modify, hkd, null, free], fun _ _ => rfl, fun _ => Or.inr rfl⟩
    · have other : s ≠ d := fun same => offSpare (List.mem_cons_of_mem _ (same ▸ inside))
      obtain ⟨ks, hks⟩ := Option.isSome_iff_exists.mp allocated
      refine ⟨Function.update (Function.update q.heap d (some { kd with prev := .null })) s none,
        ?_, ?_, ?_⟩
      · simp [ZmqQueue.pop, used, h.beginChunk, ZmqQueue.chunk, hkb, next, ZmqQueue.modify, hkd, hs,
          free, Function.update_of_ne other, hks]
      · intro x hx
        have notSpare : x ≠ s := fun same => offSpare (same ▸ hx)
        rw [Function.update_of_ne notSpare]
      · intro x
        by_cases here : x = s
        · subst here
          exact Or.inl (Function.update_self ..)
        · exact Or.inr (Function.update_of_ne here _ _)
  have kept : ∀ x ∈ b :: (ids ++ [e]), x ≠ d → heap x = q.heap x := by
    intro x hx notFirst
    rw [off x hx, Function.update_of_ne notFirst]
  have relinked : heap d = some { kd with prev := .null } := by
    rw [off d (List.mem_cons_of_mem _ inside), Function.update_self]
  have stays : ∀ x ∈ ids ++ [e], ∀ k, q.heap x = some k →
      ∃ k', heap x = some k' ∧ k'.next = k.next ∧ k'.values = k.values := by
    intro x hx k hk
    by_cases here : x = d
    · subst here
      rw [hkd] at hk
      obtain rfl := Option.some.inj hk
      exact ⟨_, relinked, rfl, rfl⟩
    · exact ⟨k, (kept x (List.mem_cons_of_mem _ hx) here).trans hk, rfl, rfl⟩
  refine ⟨_, d, popped, ⟨rfl, h.endChunk, tail.frame ?_, ?_, nodup, ?_, ?_⟩, first, rfl, rfl, rfl, ?_⟩
  · intro x hx
    have hx : x ∈ ids ++ [e] := List.mem_append_left _ (by simpa using hx)
    obtain ⟨k, hk⟩ := h.allocated (List.mem_cons_of_mem _ hx)
    obtain ⟨k', hk', same, -⟩ := stays x hx k hk
    simp only [link, hk, hk', Option.bind_some, same]
  · have hx : e ∈ ids ++ [e] := List.mem_append_right _ (List.mem_singleton_self e)
    obtain ⟨k, hk⟩ := h.allocated (List.mem_cons_of_mem _ hx)
    obtain ⟨k', hk', -⟩ := stays e hx k hk
    exact Option.isSome_iff_exists.mpr ⟨k', hk'⟩
  · intro x hx
    have unused := h.fresh x hx
    have notFirst : x ≠ d := by
      rintro rfl
      rw [hkd] at unused
      cases unused
    rcases frees x with freed | same
    · exact freed
    · exact same.trans ((Function.update_of_ne notFirst _ _).trans unused)
  · have notFirst : b ≠ d := fun same => offRest (same ▸ inside)
    exact Or.inr ⟨b, rfl, Option.isSome_iff_exists.mpr
      ⟨kb, (kept b List.mem_cons_self notFirst).trans hkb⟩, offRest⟩
  · intro x hx i
    obtain ⟨k, hk⟩ := h.allocated (List.mem_cons_of_mem _ hx)
    obtain ⟨k', hk', -, same⟩ := stays x hx k hk
    simp only [content, hk, hk', Option.bind_some, same]

end DataChunkQueue
