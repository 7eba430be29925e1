import Mathlib.Data.List.Nodup
import Mathlib.Data.List.Range
import Mathlib.Logic.Function.Basic

/-!
# Queues of cells

A queue of cells hands out addresses: `back` is where the next element is to be stored,
`front` where the oldest one lies, and elements are read and written through the
addresses. A contract relates the states of an implementation to the list of cells
that were pushed and not popped. In an exact queue a push appends one cell; a queue
with gaps may put cells between the old back and the new one.
-/

namespace CellQueues

universe u v w

/-- The operations of an implementation; `none` is undefined behaviour, and `load` gives
`some none` for a cell that was never written. -/
structure CellQueue (Q : Type v) (Cell : Type w) (T : Type u) where
  new : Q
  push : Q → Option Q
  unpush : Q → Option Q
  pop : Q → Option Q
  front : Q → Cell
  back : Q → Cell
  load : Q → Cell → Option (Option T)
  store : Q → Cell → T → Option Q

variable {Q : Type v} {Cell : Type w} {T : Type u}

/-- `holds q cells`: `cells` are the cells pushed and not popped, oldest first. -/
structure Contract (ops : CellQueue Q Cell T) (exact : Prop) (holds : Q → List Cell → Prop) :
    Prop where
  start : ∃ q c, ops.push ops.new = some q ∧ holds q [c]
  nodup : ∀ {q cells}, holds q cells → cells.Nodup
  front : ∀ {q c cells}, holds q (c :: cells) → ops.front q = c
  back : ∀ {q c cells}, holds q (cells ++ [c]) → ops.back q = c
  load : ∀ {q cells c}, holds q cells → c ∈ cells → (ops.load q c).isSome = true
  store : ∀ {q cells c}, holds q cells → c ∈ cells → ∀ value, ∃ q', ops.store q c value = some q' ∧
    holds q' cells ∧ ops.load q' c = some (some value) ∧
      ∀ d ∈ cells, d ≠ c → ops.load q' d = ops.load q d
  push : ∀ {q c cells}, holds q (cells ++ [c]) → ∃ q' gap d, ops.push q = some q' ∧
    holds q' (cells ++ [c] ++ gap ++ [d]) ∧ (exact → gap = []) ∧
      ∀ x ∈ cells ++ [c], ops.load q' x = ops.load q x
  pop : ∀ {q c d cells}, holds q (c :: d :: cells) → ∃ q', ops.pop q = some q' ∧
    holds q' (d :: cells) ∧ ∀ x ∈ d :: cells, ops.load q' x = ops.load q x
  unpush : exact → ∀ {q c d cells}, holds q (cells ++ [c, d]) → ∃ q', ops.unpush q = some q' ∧
    holds q' (cells ++ [c]) ∧ ∀ x ∈ cells ++ [c], ops.load q' x = ops.load q x

/-! ### Numbered cells

The simplest exact queue numbers its cells as it pushes them. -/

structure Numbered (T : Type u) where
  first : ℕ
  length : ℕ
  value : ℕ → Option T

def numbered (T : Type u) : CellQueue (Numbered T) ℕ T where
  new := ⟨0, 0, fun _ => none⟩
  push q := some { q with length := q.length + 1 }
  unpush q := if q.length = 0 then none else some { q with length := q.length - 1 }
  pop q := if q.length = 0 then none else some { q with first := q.first + 1, length := q.length - 1 }
  front q := q.first
  back q := q.first + q.length - 1
  load q c := if q.first ≤ c ∧ c < q.first + q.length then some (q.value c) else none
  store q c value :=
    if q.first ≤ c ∧ c < q.first + q.length then
      some { q with value := Function.update q.value c (some value) }
    else none

theorem numbered_contract (T : Type u) :
    Contract (numbered T) True fun q cells => cells = List.range' q.first q.length where
  start := ⟨_, 0, rfl, rfl⟩
  nodup := by
    rintro q cells rfl
    exact List.nodup_range'
  front := by
    intro q c cells h
    cases hl : q.length with
    | zero => simp [hl] at h
    | succ n =>
      rw [hl, List.range'_succ] at h
      exact (List.cons.inj h).1.symm
  back := by
    intro q c cells h
    cases hl : q.length with
    | zero => simp [hl] at h
    | succ n =>
      rw [hl, List.range'_concat, Nat.one_mul] at h
      have last := (List.append_inj' h rfl).2
      change q.first + q.length - 1 = c
      rw [hl, List.singleton_inj.mp last]
      rfl
  load := by
    rintro q cells c rfl hc
    rw [List.mem_range'_1] at hc
    simp [numbered, hc]
  store := by
    rintro q cells c rfl hc value
    rw [List.mem_range'_1] at hc
    refine ⟨{ q with value := Function.update q.value c (some value) }, ?_, rfl, ?_, ?_⟩
    · simp [numbered, hc]
    · simp [numbered, hc]
    · intro d _ other
      simp [numbered, other]
  push := by
    intro q c cells h
    refine ⟨{ q with length := q.length + 1 }, [], q.first + q.length, rfl, ?_, fun _ => rfl, ?_⟩
    · rw [List.append_nil, h, List.range'_concat, Nat.one_mul]
    · intro x hx
      rw [h, List.mem_range'_1] at hx
      have : x < q.first + (q.length + 1) := by omega
      simp [numbered, hx, this]
  pop := by
    intro q c d cells h
    obtain ⟨n, hn⟩ : ∃ n, q.length = n + 1 := by
      cases hl : q.length with
      | zero => simp [hl] at h
      | succ n => exact ⟨n, rfl⟩
    rw [hn, List.range'_succ] at h
    have rest := (List.cons.inj h).2
    refine ⟨{ q with first := q.first + 1, length := q.length - 1 }, ?_, ?_, ?_⟩
    · simp [numbered, hn]
    · simpa [hn] using rest
    · intro x hx
      rw [rest, List.mem_range'_1] at hx
      have : q.first ≤ x := by omega
      have : x < q.first + (n + 1) := by omega
      have : x < q.first + 1 + n := by omega
      simp [numbered, *]
  unpush := by
    intro _ q c d cells h
    obtain ⟨n, hn⟩ : ∃ n, q.length = n + 1 := by
      cases hl : q.length with
      | zero => simp [hl] at h
      | succ n => exact ⟨n, rfl⟩
    have split : cells ++ [c, d] = cells ++ [c] ++ [d] := by simp
    rw [hn, List.range'_concat, split] at h
    have init := (List.append_inj' h rfl).1
    refine ⟨{ q with length := q.length - 1 }, ?_, ?_, ?_⟩
    · simp [numbered, hn]
    · simpa [hn] using init
    · intro x hx
      rw [init, List.mem_range'_1] at hx
      have : x < q.first + (n + 1) := by omega
      simp [numbered, *]

end CellQueues
