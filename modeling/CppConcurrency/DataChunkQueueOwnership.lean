import CppConcurrency.DataChunkQueueThreads
import Mathlib.Logic.Equiv.Basic

/-!
# Who owns the chunks of a `zmqQueue`

Every chunk that is allocated is in the list from `begin_chunk` to `end_chunk`, or the
spare pointer or the pointer in the hand of one of the threads leads to it, and never two
of these. Counting cells from the first chunk on, the end stays ahead of the front by the
elements that are held. A push returns early where `end_pos` reaches `N`: the results here
are about runs in which none does.
-/

namespace DataChunkQueue.Threads

open Machines ZmqQueue

universe u

variable {T : Type u}

/-- The pointers that own a chunk outside the list. -/
inductive Slot where
  | spare
  | writer
  | reader
  deriving DecidableEq

/-- What is in the hand of the writer. In `frees` the chunk it will free is still linked. -/
def State.writerSlot (s : State T) : Pointer :=
  match s.writer with
  | .links sc => sc
  | .joins link => link
  | .frees => ((s.queue.chunk s.queue.endChunk).map Chunk.next).getD .null
  | _ => .null

def State.readerSlot (s : State T) : Pointer :=
  match s.reader with
  | .detaches t | .spares t => t
  | .drops sc => sc
  | _ => .null

def State.slot (s : State T) : Slot → Pointer
  | .spare => s.queue.spareChunk
  | .writer => s.writerSlot
  | .reader => s.readerSlot

/-! ### The list and the chunks outside it -/

/-- The chunks in the list are `place first` up to `place last`. -/
structure Chunks (q : ZmqQueue T) (slot : Slot → Pointer) (place : ℕ → ℕ) (first last : ℕ) : Prop where
  order : first ≤ last
  begins : q.beginChunk = .to (place first)
  ends : q.endChunk = .to (place last)
  inj : ∀ i j, first ≤ i → i ≤ last → first ≤ j → j ≤ last → place i = place j → i = j
  links : ∀ i, first ≤ i → i < last → ∃ k, q.heap (place i) = some k ∧ k.next = .to (place (i + 1))
  backs : ∀ i, first ≤ i → i < last → ∃ k, q.heap (place (i + 1)) = some k ∧ k.prev = .to (place i)
  owned : ∀ c, (q.heap c).isSome = true ↔
    (∃ i, first ≤ i ∧ i ≤ last ∧ place i = c) ∨ ∃ x, slot x = .to c
  apart : ∀ x y c, slot x = .to c → slot y = .to c → x = y
  off : ∀ x i, first ≤ i → i ≤ last → slot x ≠ .to (place i)
  tame : ∀ x, slot x ≠ .wild
  fresh : ∀ c, (q.heap c).isSome = true → c < q.fresh

variable {q q' : ZmqQueue T} {slot slot' : Slot → Pointer} {place : ℕ → ℕ} {first last : ℕ}

theorem Chunks.inList (h : Chunks q slot place first last) {i : ℕ} (low : first ≤ i) (high : i ≤ last) :
    ∃ k, q.heap (place i) = some k :=
  Option.isSome_iff_exists.mp ((h.owned _).mpr (Or.inl ⟨i, low, high, rfl⟩))

theorem Chunks.inSlot (h : Chunks q slot place first last) {x : Slot} {c : ℕ} (hx : slot x = .to c) :
    ∃ k, q.heap c = some k :=
  Option.isSome_iff_exists.mp ((h.owned c).mpr (Or.inr ⟨x, hx⟩))

theorem Chunks.of_slots (h : Chunks q slot place first last) (same : ∀ x, slot' x = slot x) :
    Chunks q slot' place first last :=
  funext same ▸ h

/-- The pointers change hands. -/
theorem Chunks.swap (h : Chunks q slot place first last) (σ : Equiv.Perm Slot) (spare : Pointer) :
    Chunks { q with spareChunk := spare } (slot ∘ σ) place first last where
  order := h.order
  begins := h.begins
  ends := h.ends
  inj := h.inj
  links := h.links
  backs := h.backs
  owned c := by
    refine (h.owned c).trans (or_congr_right ?_)
    constructor
    · rintro ⟨x, hx⟩
      obtain ⟨y, rfl⟩ := σ.surjective x
      exact ⟨y, hx⟩
    · rintro ⟨y, hy⟩
      exact ⟨σ y, hy⟩
  apart x y c hx hy := σ.injective (h.apart _ _ c hx hy)
  off x := h.off (σ x)
  tame x := h.tame (σ x)
  fresh := h.fresh

/-- A write to one chunk that keeps the links which matter. -/
theorem Chunks.write (h : Chunks q slot place first last) {c : ℕ} {k k' : Chunk T}
    (hk : q.heap c = some k)
    (next : ∀ i, first ≤ i → i < last → place i = c → k'.next = k.next)
    (prev : ∀ i, first ≤ i → i < last → place (i + 1) = c → k'.prev = k.prev) :
    Chunks { q with heap := Function.update q.heap c (some k') } slot place first last where
  order := h.order
  begins := h.begins
  ends := h.ends
  inj := h.inj
  links i low high := by
    obtain ⟨ki, hki, link⟩ := h.links i low high
    by_cases here : place i = c
    · have kept := next i low high here
      subst here
      obtain rfl := Option.some.inj (hk.symm.trans hki)
      exact ⟨k', Function.update_self .., kept.trans link⟩
    · exact ⟨ki, (Function.update_of_ne here _ _).trans hki, link⟩
  backs i low high := by
    obtain ⟨ki, hki, link⟩ := h.backs i low high
    by_cases here : place (i + 1) = c
    · have kept := prev i low high here
      subst here
      obtain rfl := Option.some.inj (hk.symm.trans hki)
      exact ⟨k', Function.update_self .., kept.trans link⟩
    · exact ⟨ki, (Function.update_of_ne here _ _).trans hki, link⟩
  owned d := by
    refine Iff.trans ?_ (h.owned d)
    by_cases here : d = c
    · subst here
      simp [hk]
    · simp [Function.update_of_ne here]
  apart := h.apart
  off := h.off
  tame := h.tame
  fresh d hd := by
    apply h.fresh d
    by_cases here : d = c
    · subst here
      rw [hk]
      exact rfl
    · change (Function.update q.heap c (some k') d).isSome = true at hd
      rw [Function.update_of_ne here] at hd
      exact hd

/-- The `next` link of the last chunk is free to change. -/
theorem Chunks.write_next (h : Chunks q slot place first last) {k : Chunk T}
    (hk : q.heap (place last) = some k) (p : Pointer) :
    Chunks { q with heap := Function.update q.heap (place last) (some { k with next := p }) } slot
      place first last := by
  refine h.write hk (fun i low high same => ?_) fun _ _ _ _ => rfl
  exact absurd (h.inj i last low (Nat.le_of_lt high) h.order (Nat.le_refl _) same)
    (Nat.ne_of_lt high)

/-- The `prev` link of the first chunk, or of a chunk outside the list, is free to change. -/
theorem Chunks.write_prev (h : Chunks q slot place first last) {c : ℕ} {k : Chunk T}
    (hk : q.heap c = some k) (off : ∀ i, first < i → i ≤ last → place i ≠ c) (p : Pointer) :
    Chunks { q with heap := Function.update q.heap c (some { k with prev := p }) } slot place first
      last :=
  h.write hk (fun _ _ _ _ => rfl) fun i low high same =>
    absurd same (off (i + 1) (Nat.lt_succ_of_le low) high)

theorem filled_iff {x : Slot} (empty : slot x = .null) {p : Pointer} {y : Slot} {c : ℕ} :
    Function.update slot x p y = .to c ↔ y = x ∧ p = .to c ∨ slot y = .to c := by
  by_cases here : y = x
  · subst here
    simp [empty]
  · simp [here]

theorem emptied_iff {x y : Slot} {c : ℕ} :
    Function.update slot x .null y = .to c ↔ y ≠ x ∧ slot y = .to c := by
  by_cases here : y = x
  · subst here
    simp
  · simp [here]

theorem Chunks.tame_update (h : Chunks q slot place first last) {x : Slot} {p : Pointer}
    (hp : p ≠ .wild) (y : Slot) : Function.update slot x p y ≠ .wild := by
  by_cases here : y = x
  · subst here
    rw [Function.update_self]
    exact hp
  · rw [Function.update_of_ne here]
    exact h.tame y

theorem Chunks.apart_filled (h : Chunks q slot place first last) {x : Slot} {d : ℕ}
    (empty : slot x = .null) (other : ∀ y, slot y ≠ .to d) (y z : Slot) (c : ℕ)
    (hy : Function.update slot x (.to d) y = .to c) (hz : Function.update slot x (.to d) z = .to c) :
    y = z := by
  rcases (filled_iff empty).mp hy with ⟨here, new⟩ | old <;>
    rcases (filled_iff empty).mp hz with ⟨here', new'⟩ | old'
  · exact here.trans here'.symm
  · exact absurd (old'.trans new.symm) (other z)
  · exact absurd (old.trans new'.symm) (other y)
  · exact h.apart y z c old old'

/-- `malloc` into an empty hand. -/
theorem Chunks.malloc (h : Chunks q slot place first last) {x : Slot} (empty : slot x = .null)
    (k : Chunk T) :
    Chunks { q with heap := Function.update q.heap q.fresh (some k), fresh := q.fresh + 1 }
      (Function.update slot x (.to q.fresh)) place first last := by
  have unused : ∀ c, (q.heap c).isSome = true → c ≠ q.fresh :=
    fun c hc => Nat.ne_of_lt (h.fresh c hc)
  have kept : ∀ c kc, q.heap c = some kc →
      Function.update q.heap q.fresh (some k) c = some kc := by
    intro c kc hc
    rw [Function.update_of_ne (unused c (hc ▸ rfl)), hc]
  have used : ∀ c, (Function.update q.heap q.fresh (some k) c).isSome = true ↔
      c = q.fresh ∨ (q.heap c).isSome = true := by
    intro c
    by_cases here : c = q.fresh
    · subst here
      simp
    · simp [here]
  have old : ∀ y c, slot y = .to c → c ≠ q.fresh :=
    fun y c hy => unused c ((h.owned c).mpr (Or.inr ⟨y, hy⟩))
  refine {
    order := h.order
    begins := h.begins
    ends := h.ends
    inj := h.inj
    links := fun i low high => (h.links i low high).imp fun ki hi => ⟨kept _ _ hi.1, hi.2⟩
    backs := fun i low high => (h.backs i low high).imp fun ki hi => ⟨kept _ _ hi.1, hi.2⟩
    owned := fun c => (used c).trans ?owned
    apart := h.apart_filled empty fun y hy => old y _ hy rfl
    off := fun y i low high hy => ?off
    tame := h.tame_update fun wrong => by cases wrong
    fresh := fun c hc => ?fresh }
  case owned =>
    rw [h.owned c]
    simp only [filled_iff empty, Pointer.to.injEq]
    constructor
    · rintro (rfl | inList | ⟨y, hy⟩)
      · exact Or.inr ⟨x, Or.inl ⟨rfl, rfl⟩⟩
      · exact Or.inl inList
      · exact Or.inr ⟨y, Or.inr hy⟩
    · rintro (inList | ⟨y, ⟨-, rfl⟩ | hy⟩)
      · exact Or.inr (Or.inl inList)
      · exact Or.inl rfl
      · exact Or.inr (Or.inr ⟨y, hy⟩)
  case off =>
    rcases (filled_iff empty).mp hy with ⟨rfl, new⟩ | hy
    · obtain ⟨ki, hi⟩ := h.inList low high
      exact unused (place i) (hi ▸ rfl) (Pointer.to.inj new).symm
    · exact h.off y i low high hy
  case fresh =>
    rcases (used c).mp hc with rfl | hc
    · exact Nat.lt_succ_self _
    · exact Nat.lt_succ_of_lt (h.fresh c hc)

/-- The chunk in a hand is freed. -/
theorem Chunks.free (h : Chunks q slot place first last) {x : Slot} {d : ℕ} (hx : slot x = .to d) :
    Chunks { q with heap := Function.update q.heap d none } (Function.update slot x .null) place
      first last := by
  have inList : ∀ i, first ≤ i → i ≤ last → place i ≠ d :=
    fun i low high same => h.off x i low high (same ▸ hx)
  have kept : ∀ c, c ≠ d → Function.update q.heap d none c = q.heap c :=
    fun c other => Function.update_of_ne other _ _
  have used : ∀ c, (Function.update q.heap d none c).isSome = true ↔
      c ≠ d ∧ (q.heap c).isSome = true := by
    intro c
    by_cases here : c = d
    · subst here
      simp
    · simp [here]
  refine {
    order := h.order
    begins := h.begins
    ends := h.ends
    inj := h.inj
    links := fun i low high => (h.links i low high).imp fun ki hi =>
      ⟨(kept _ (inList i low (Nat.le_of_lt high))).trans hi.1, hi.2⟩
    backs := fun i low high => (h.backs i low high).imp fun ki hi =>
      ⟨(kept _ (inList (i + 1) (by omega) high)).trans hi.1, hi.2⟩
    owned := fun c => (used c).trans ?owned
    apart := fun y z c hy hz => h.apart y z c (emptied_iff.mp hy).2 (emptied_iff.mp hz).2
    off := fun y i low high hy => h.off y i low high (emptied_iff.mp hy).2
    tame := h.tame_update fun wrong => by cases wrong
    fresh := fun c hc => h.fresh c ((used c).mp hc).2 }
  case owned =>
    rw [h.owned c]
    simp only [emptied_iff]
    constructor
    · rintro ⟨other, ⟨i, low, high, rfl⟩ | ⟨y, hy⟩⟩
      · exact Or.inl ⟨i, low, high, rfl⟩
      · refine Or.inr ⟨y, ?_, hy⟩
        rintro rfl
        exact other (Pointer.to.inj (hy.symm.trans hx))
    · rintro (⟨i, low, high, rfl⟩ | ⟨y, other, hy⟩)
      · exact ⟨inList i low high, Or.inl ⟨i, low, high, rfl⟩⟩
      · refine ⟨?_, Or.inr ⟨y, hy⟩⟩
        rintro rfl
        exact other (h.apart y x _ hy hx)

/-- The chunk in a hand, linked both ways, becomes the last one. -/
theorem Chunks.grow (h : Chunks q slot place first last) {x : Slot} {d : ℕ} (hx : slot x = .to d)
    (next : ∃ k, q.heap (place last) = some k ∧ k.next = .to d)
    (prev : ∃ k, q.heap d = some k ∧ k.prev = .to (place last)) :
    Chunks { q with endChunk := .to d } (Function.update slot x .null)
      (Function.update place (last + 1) d) first (last + 1) := by
  have order := h.order
  have here : Function.update place (last + 1) d (last + 1) = d := Function.update_self ..
  have there : ∀ i, i ≤ last → Function.update place (last + 1) d i = place i :=
    fun i hi => Function.update_of_ne (by omega) _ _
  have inList : ∀ i, first ≤ i → i ≤ last → place i ≠ d :=
    fun i low high same => h.off x i low high (same ▸ hx)
  refine {
    order := Nat.le_succ_of_le order
    begins := (there first order).symm ▸ h.begins
    ends := here.symm ▸ rfl
    inj := fun i j low high low' high' same => ?inj
    links := fun i low high => ?links
    backs := fun i low high => ?backs
    owned := fun c => (h.owned c).trans ?owned
    apart := fun y z c hy hz => h.apart y z c (emptied_iff.mp hy).2 (emptied_iff.mp hz).2
    off := fun y i low high hy => ?off
    tame := h.tame_update fun wrong => by cases wrong
    fresh := h.fresh }
  case inj =>
    rcases Nat.le_succ_iff.mp high with old | rfl <;> rcases Nat.le_succ_iff.mp high' with old' | rfl
    · rw [there i old, there j old'] at same
      exact h.inj i j low old low' old' same
    · rw [there i old, here] at same
      exact absurd same (inList i low old)
    · rw [there j old', here] at same
      exact absurd same.symm (inList j low' old')
    · rfl
  case links =>
    rcases Nat.lt_succ_iff_lt_or_eq.mp high with inner | rfl
    · rw [there i (Nat.le_of_lt inner), there (i + 1) inner]
      exact h.links i low inner
    · rw [there i (Nat.le_refl _), here]
      exact next
  case backs =>
    rcases Nat.lt_succ_iff_lt_or_eq.mp high with inner | rfl
    · rw [there i (Nat.le_of_lt inner), there (i + 1) inner]
      exact h.backs i low inner
    · rw [there i (Nat.le_refl _), here]
      exact prev
  case owned =>
    simp only [emptied_iff]
    constructor
    · rintro (⟨i, low, high, rfl⟩ | ⟨y, hy⟩)
      · exact Or.inl ⟨i, low, Nat.le_succ_of_le high, there i high⟩
      · by_cases same : y = x
        · subst same
          obtain rfl := Pointer.to.inj (hx.symm.trans hy)
          exact Or.inl ⟨last + 1, Nat.le_succ_of_le order, Nat.le_refl _, here⟩
        · exact Or.inr ⟨y, same, hy⟩
    · rintro (⟨i, low, high, rfl⟩ | ⟨y, -, hy⟩)
      · rcases Nat.le_succ_iff.mp high with old | rfl
        · exact Or.inl ⟨i, low, old, (there i old).symm⟩
        · exact Or.inr ⟨x, hx.trans (congrArg Pointer.to here.symm)⟩
      · exact Or.inr ⟨y, hy⟩
  case off =>
    obtain ⟨other, hy⟩ := emptied_iff.mp hy
    rcases Nat.le_succ_iff.mp high with old | rfl
    · rw [there i old] at hy
      exact h.off y i low old hy
    · rw [here] at hy
      exact other (h.apart y x d hy hx)

/-- The last chunk leaves the list for an empty hand. -/
theorem Chunks.shrinkBack (h : Chunks q slot place first (last + 1)) (room : first ≤ last) {x : Slot}
    (empty : slot x = .null) :
    Chunks { q with endChunk := .to (place last) }
      (Function.update slot x (.to (place (last + 1)))) place first last := by
  have inner : ∀ i, i ≤ last → i ≤ last + 1 := fun i hi => Nat.le_succ_of_le hi
  refine {
    order := room
    begins := h.begins
    ends := rfl
    inj := fun i j low high low' high' => h.inj i j low (inner i high) low' (inner j high')
    links := fun i low high => h.links i low (Nat.lt_succ_of_lt high)
    backs := fun i low high => h.backs i low (Nat.lt_succ_of_lt high)
    owned := fun c => (h.owned c).trans ?owned
    apart := h.apart_filled empty fun y => h.off y (last + 1) (inner first room) (Nat.le_refl _)
    off := fun y i low high hy => ?off
    tame := h.tame_update fun wrong => by cases wrong
    fresh := h.fresh }
  case owned =>
    simp only [filled_iff empty, Pointer.to.injEq]
    constructor
    · rintro (⟨i, low, high, rfl⟩ | ⟨y, hy⟩)
      · rcases Nat.le_succ_iff.mp high with old | rfl
        · exact Or.inl ⟨i, low, old, rfl⟩
        · exact Or.inr ⟨x, Or.inl ⟨rfl, rfl⟩⟩
      · exact Or.inr ⟨y, Or.inr hy⟩
    · rintro (⟨i, low, high, rfl⟩ | ⟨y, ⟨-, rfl⟩ | hy⟩)
      · exact Or.inl ⟨i, low, inner i high, rfl⟩
      · exact Or.inl ⟨last + 1, inner first room, Nat.le_refl _, rfl⟩
      · exact Or.inr ⟨y, hy⟩
  case off =>
    rcases (filled_iff empty).mp hy with ⟨rfl, new⟩ | hy
    · have := h.inj (last + 1) i (inner first room) (Nat.le_refl _) low (inner i high)
        (Pointer.to.inj new)
      omega
    · exact h.off y i low (inner i high) hy

/-- The first chunk leaves the list for an empty hand. -/
theorem Chunks.shrinkFront (h : Chunks q slot place first last) (room : first < last) {x : Slot}
    (empty : slot x = .null) :
    Chunks { q with beginChunk := .to (place (first + 1)) }
      (Function.update slot x (.to (place first))) place (first + 1) last := by
  have inner : ∀ i, first + 1 ≤ i → first ≤ i := fun i hi => Nat.le_of_succ_le hi
  refine {
    order := room
    begins := rfl
    ends := h.ends
    inj := fun i j low high low' high' => h.inj i j (inner i low) high (inner j low') high'
    links := fun i low high => h.links i (inner i low) high
    backs := fun i low high => h.backs i (inner i low) high
    owned := fun c => (h.owned c).trans ?owned
    apart := h.apart_filled empty fun y => h.off y first (Nat.le_refl _) h.order
    off := fun y i low high hy => ?off
    tame := h.tame_update fun wrong => by cases wrong
    fresh := h.fresh }
  case owned =>
    simp only [filled_iff empty, Pointer.to.injEq]
    constructor
    · rintro (⟨i, low, high, rfl⟩ | ⟨y, hy⟩)
      · rcases Nat.eq_or_lt_of_le low with rfl | later
        · exact Or.inr ⟨x, Or.inl ⟨rfl, rfl⟩⟩
        · exact Or.inl ⟨i, later, high, rfl⟩
      · exact Or.inr ⟨y, Or.inr hy⟩
    · rintro (⟨i, low, high, rfl⟩ | ⟨y, ⟨-, rfl⟩ | hy⟩)
      · exact Or.inl ⟨i, inner i low, high, rfl⟩
      · exact Or.inl ⟨first, Nat.le_refl _, h.order, rfl⟩
      · exact Or.inr ⟨y, hy⟩
  case off =>
    rcases (filled_iff empty).mp hy with ⟨rfl, new⟩ | hy
    · have := h.inj first i (Nat.le_refl _) h.order (inner i low) high (Pointer.to.inj new)
      omega
    · exact h.off y i (inner i low) high hy

end DataChunkQueue.Threads
