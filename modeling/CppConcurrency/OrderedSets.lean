import Mathlib.Data.List.Pairwise
import Mathlib.Data.List.Nodup

/-!
# Sets kept in order by a comparator on a key

An element is found by any value that the comparator can be asked about, here its key.
Two elements that are equivalent, neither key before the other, are never both in the
set: the second one is not inserted.
-/

namespace OrderedSets

universe u v

variable {A : Type u} {K : Type v}

/-- A comparator that orders all keys. -/
structure Comparator (lt : K → K → Bool) : Prop where
  irrefl : ∀ a, lt a a = false
  trans : ∀ {a b c}, lt a b = true → lt b c = true → lt a c = true
  total : ∀ {a b}, lt a b = false → lt b a = false → a = b

section

variable (lt : K → K → Bool) (key : A → K)

def Sorted (set : List A) : Prop := set.Pairwise fun a b => lt (key a) (key b) = true

def equivalent (k : K) (a : A) : Bool := !lt (key a) k && !lt k (key a)

def insert (x : A) : List A → List A
  | [] => [x]
  | a :: rest =>
    if lt (key x) (key a) then x :: a :: rest
    else if lt (key a) (key x) then a :: insert x rest
    else a :: rest

def find (k : K) (set : List A) : Option A := set.find? (equivalent lt key k)

def erase (k : K) (set : List A) : List A := set.eraseP (equivalent lt key k)

end

variable {lt : K → K → Bool} {key : A → K}

theorem equivalent_iff (cmp : Comparator lt) {k : K} {a : A} :
    equivalent lt key k a = true ↔ key a = k := by
  simp only [equivalent, Bool.and_eq_true, Bool.not_eq_true']
  constructor
  · rintro ⟨notBefore, notAfter⟩
    exact cmp.total notBefore notAfter
  · rintro rfl
    exact ⟨cmp.irrefl _, cmp.irrefl _⟩

/-! ### Insertion -/

theorem mem_of_mem_insert {x y : A} {set : List A} (h : y ∈ insert lt key x set) :
    y = x ∨ y ∈ set := by
  induction set with
  | nil => exact Or.inl (List.mem_singleton.mp h)
  | cons a rest ih =>
    rw [insert] at h
    split at h
    · exact List.mem_cons.mp h
    · split at h
      · rcases List.mem_cons.mp h with rfl | h
        · exact Or.inr List.mem_cons_self
        · exact (ih h).imp_right (List.mem_cons_of_mem a)
      · exact Or.inr h

/-- An element with a new key is inserted, and nothing is lost. -/
theorem perm_insert (cmp : Comparator lt) {x : A} {set : List A}
    (new : ∀ a ∈ set, key a ≠ key x) : (insert lt key x set).Perm (x :: set) := by
  induction set with
  | nil => exact List.Perm.refl _
  | cons a rest ih =>
    rw [insert]
    split
    · exact List.Perm.refl _
    · rename_i notBefore
      split
      · have rest' := ih fun b hb => new b (List.mem_cons_of_mem a hb)
        exact (rest'.cons a).trans (List.Perm.swap x a rest)
      · rename_i notAfter
        have same := cmp.total (Bool.eq_false_iff.mpr notAfter) (Bool.eq_false_iff.mpr notBefore)
        exact absurd same (new a List.mem_cons_self)

theorem Sorted.insert (cmp : Comparator lt) {x : A} {set : List A} (sorted : Sorted lt key set) :
    Sorted lt key (insert lt key x set) := by
  induction set with
  | nil => exact List.pairwise_singleton ..
  | cons a rest ih =>
    obtain ⟨first, later⟩ := List.pairwise_cons.mp sorted
    rw [OrderedSets.insert]
    split
    · rename_i before
      refine List.pairwise_cons.mpr ⟨?_, sorted⟩
      intro b hb
      rcases List.mem_cons.mp hb with rfl | hb
      · exact before
      · exact cmp.trans before (first b hb)
    · split
      · rename_i after
        refine List.pairwise_cons.mpr ⟨?_, ih later⟩
        intro b hb
        rcases mem_of_mem_insert hb with rfl | hb
        · exact after
        · exact first b hb
      · exact sorted

/-! ### Lookup and removal -/

theorem find_eq_some (cmp : Comparator lt) {k : K} {a : A} {set : List A}
    (h : find lt key k set = some a) : a ∈ set ∧ key a = k :=
  ⟨List.mem_of_find?_eq_some h, (equivalent_iff cmp).mp (List.find?_some h)⟩

theorem find_eq_none (cmp : Comparator lt) {k : K} {set : List A} :
    find lt key k set = none ↔ ∀ a ∈ set, key a ≠ k := by
  rw [find, List.find?_eq_none]
  exact forall₂_congr fun a _ => not_congr (equivalent_iff cmp)

theorem find_isSome (cmp : Comparator lt) {k : K} {set : List A} :
    (find lt key k set).isSome = true ↔ ∃ a ∈ set, key a = k := by
  rw [← not_iff_not, Option.not_isSome_iff_eq_none, find_eq_none cmp]
  simp only [not_exists, not_and, ne_eq]

theorem erase_sublist (k : K) (set : List A) : (erase lt key k set).Sublist set :=
  List.eraseP_sublist

theorem Sorted.erase {set : List A} (sorted : Sorted lt key set) (k : K) :
    Sorted lt key (erase lt key k set) :=
  List.Pairwise.sublist (erase_sublist k set) sorted

/-- Erasing removes the element with that key and no other. -/
theorem mem_erase (cmp : Comparator lt) {k : K} {y : A} {set : List A}
    (sorted : Sorted lt key set) : y ∈ erase lt key k set ↔ y ∈ set ∧ key y ≠ k := by
  induction set with
  | nil => exact iff_of_false List.not_mem_nil fun h => List.not_mem_nil h.1
  | cons a rest ih =>
    obtain ⟨first, later⟩ := List.pairwise_cons.mp sorted
    by_cases here : equivalent lt key k a = true
    · have same := (equivalent_iff cmp).mp here
      rw [OrderedSets.erase, List.eraseP_cons_of_pos here]
      constructor
      · intro hy
        refine ⟨List.mem_cons_of_mem a hy, fun wrong => ?_⟩
        have before := first y hy
        rw [same, wrong, cmp.irrefl] at before
        cases before
      · rintro ⟨hy, other⟩
        rcases List.mem_cons.mp hy with rfl | hy
        · exact absurd same other
        · exact hy
    · have other : key a ≠ k := fun same => here ((equivalent_iff cmp).mpr same)
      have rest' := ih later
      rw [OrderedSets.erase] at rest' ⊢
      rw [List.eraseP_cons_of_neg here, List.mem_cons, List.mem_cons, rest']
      constructor
      · rintro (rfl | ⟨hy, kept⟩)
        · exact ⟨Or.inl rfl, other⟩
        · exact ⟨Or.inr hy, kept⟩
      · rintro ⟨rfl | hy, kept⟩
        · exact Or.inl rfl
        · exact Or.inr ⟨hy, kept⟩

end OrderedSets
