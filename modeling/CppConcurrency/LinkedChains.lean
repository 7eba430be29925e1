import Mathlib.Data.List.Basic

/-!
# Chains of cells in a heap

A cell that is complete holds a value and the address of its successor. A chain from
`a` to `b` lists the addresses and values on the way, `b` excluded: the end of a list
is a cell that is not complete yet.
-/

namespace LinkedChains

universe u v

variable {A : Type u} {V : Type v}

def Chain (cell : A → Option (V × A)) : A → List (A × V) → A → Prop
  | a, [], b => a = b
  | a, (x, value) :: rest, b => a = x ∧ ∃ c, cell a = some (value, c) ∧ Chain cell c rest b

namespace Chain

variable {cell cell' : A → Option (V × A)} {a b c : A} {value : V} {nodes : List (A × V)}

/-- Completing the end cell appends it. -/
theorem snoc (h : Chain cell a nodes b) (last : cell b = some (value, c)) :
    Chain cell a (nodes ++ [(b, value)]) c := by
  induction nodes generalizing a with
  | nil =>
    obtain rfl : a = b := h
    exact ⟨rfl, c, last, rfl⟩
  | cons node rest ih =>
    obtain ⟨x, v⟩ := node
    obtain ⟨rfl, d, hd, tail⟩ := h
    exact ⟨rfl, d, hd, ih tail⟩

/-- A chain depends on its own cells only. -/
theorem frame (h : Chain cell a nodes b) (same : ∀ x ∈ nodes.map Prod.fst, cell' x = cell x) :
    Chain cell' a nodes b := by
  induction nodes generalizing a with
  | nil => exact h
  | cons node rest ih =>
    obtain ⟨x, v⟩ := node
    obtain ⟨rfl, d, hd, tail⟩ := h
    have here : cell' a = cell a := same a (by simp)
    refine ⟨rfl, d, here ▸ hd, ih tail ?_⟩
    intro y hy
    exact same y (by simp at hy ⊢; exact Or.inr hy)

/-- Where the end is not on the chain, the chain is empty iff it starts at its end. -/
theorem eq_iff (h : Chain cell a nodes b) (off : b ∉ nodes.map Prod.fst) :
    a = b ↔ nodes = [] := by
  cases nodes with
  | nil => exact iff_of_true h rfl
  | cons node rest =>
    obtain ⟨x, v⟩ := node
    obtain ⟨rfl, -⟩ := h
    refine iff_of_false ?_ (List.cons_ne_nil _ _)
    rintro rfl
    exact off (by simp)

end Chain

end LinkedChains
