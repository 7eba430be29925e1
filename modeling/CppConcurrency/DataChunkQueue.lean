import Mathlib.Data.Nat.Init
import Mathlib.Logic.Function.Basic

/-!
# `zmqQueue<T, N>`: a queue of cells in linked chunks

`malloc` returns chunks with nothing initialised: their links are `wild`. The operations
are partial, and `none` is undefined behaviour: following a null, wild or freed
pointer, freeing twice, or an index outside `values`. The positions are unsigned in
the source and never wrap, since none exceeds the `int` `N` by more than one. `malloc`
always succeeds and hands out a new address.
-/

namespace DataChunkQueue

universe u

inductive Pointer where
  | wild
  | null
  | to (c : ℕ)
  deriving DecidableEq

/-- `chunk_t`; a cell with no value is uninitialised storage. -/
structure Chunk (T : Type u) where
  values : ℕ → Option T
  prev : Pointer
  next : Pointer

def Chunk.raw {T : Type u} : Chunk T := ⟨fun _ => none, .wild, .wild⟩

/-- The address `&chunk->values[pos]`. -/
structure Cell where
  chunk : Pointer
  pos : ℕ
  deriving DecidableEq

/-- The members, and the heap with the address that `malloc` hands out next. -/
structure ZmqQueue (T : Type u) where
  heap : ℕ → Option (Chunk T)
  fresh : ℕ
  beginChunk : Pointer
  backChunk : Pointer
  endChunk : Pointer
  beginPos : ℕ
  backPos : ℕ
  endPos : ℕ
  spareChunk : Pointer

namespace ZmqQueue

variable {T : Type u} (q : ZmqQueue T)

/-- Follow a pointer. -/
def chunk : Pointer → Option (Chunk T)
  | .to c => q.heap c
  | _ => none

/-- Write through a pointer. -/
def modify (f : Chunk T → Chunk T) : Pointer → Option (ZmqQueue T)
  | .to c => (q.heap c).map fun k => { q with heap := Function.update q.heap c (some (f k)) }
  | _ => none

def malloc : Pointer × ZmqQueue T :=
  (.to q.fresh,
    { q with heap := Function.update q.heap q.fresh (some .raw), fresh := q.fresh + 1 })

def free : Pointer → Option (ZmqQueue T)
  | .null => some q
  | .wild => none
  | .to c => (q.heap c).map fun _ => { q with heap := Function.update q.heap c none }

/-- The constructor. -/
def new : ZmqQueue T where
  heap := Function.update (fun _ => none) 0 (some .raw)
  fresh := 1
  beginChunk := .to 0
  backChunk := .null
  endChunk := .to 0
  beginPos := 0
  backPos := 0
  endPos := 0
  spareChunk := .null

def front : Cell := ⟨q.beginChunk, q.beginPos⟩

def back : Cell := ⟨q.backChunk, q.backPos⟩

/-- `*cell`, with no value where the cell is uninitialised. -/
def load (N : ℕ) (cell : Cell) : Option (Option T) :=
  if cell.pos < N then (q.chunk cell.chunk).map fun k => k.values cell.pos else none

/-- `*cell = value`. -/
def store (N : ℕ) (cell : Cell) (value : T) : Option (ZmqQueue T) :=
  if cell.pos < N then
    q.modify (fun k => { k with values := Function.update k.values cell.pos (some value) }) cell.chunk
  else none

/-- `push()`. It returns early when `end_pos` has reached `N`. -/
def push (N : ℕ) : Option (ZmqQueue T) :=
  let q := { q with backChunk := q.endChunk, backPos := q.endPos, endPos := q.endPos + 1 }
  if q.endPos = N then some q
  else
    let sc := q.spareChunk
    let q := { q with spareChunk := .null }
    let (link, q) := if sc = .null then q.malloc else (sc, q)
    (q.modify (fun k => { k with next := link }) q.endChunk).bind fun q =>
      (q.modify (fun k => { k with prev := q.endChunk }) link).bind fun q =>
        (q.chunk q.endChunk).map fun k => { q with endChunk := k.next, endPos := 0 }

/-- `unpush()`. -/
def unpush (N : ℕ) : Option (ZmqQueue T) :=
  let back :=
    if q.backPos ≠ 0 then some { q with backPos := q.backPos - 1 }
    else (q.chunk q.backChunk).map fun k => { q with backPos := N - 1, backChunk := k.prev }
  back.bind fun q =>
    if q.endPos ≠ 0 then some { q with endPos := q.endPos - 1 }
    else
      (q.chunk q.endChunk).bind fun k =>
        let q := { q with endPos := N - 1, endChunk := k.prev }
        (q.chunk q.endChunk).bind fun k =>
          (q.free k.next).bind fun q => q.modify (fun k => { k with next := .null }) q.endChunk

/-- `pop()`. A used-up chunk becomes the spare one, and the old spare is freed. -/
def pop (N : ℕ) : Option (ZmqQueue T) :=
  let q := { q with beginPos := q.beginPos + 1 }
  if q.beginPos = N then
    let t := q.beginChunk
    (q.chunk t).bind fun k =>
      let q := { q with beginChunk := k.next }
      (q.modify (fun k => { k with prev := .null }) q.beginChunk).bind fun q =>
        let sc := q.spareChunk
        let q := { q with beginPos := 0, spareChunk := t }
        q.free sc
  else some q

/-- The loop of the destructor, at most `fuel` turns of it, with the pointers it frees. -/
def destroyLoop : ℕ → ZmqQueue T → Option (List Pointer × ZmqQueue T)
  | fuel, q =>
    if q.beginChunk = q.endChunk then some ([], q)
    else
      match fuel with
      | 0 => none
      | fuel + 1 =>
        let t := q.beginChunk
        (q.chunk t).bind fun k =>
          ((ZmqQueue.free { q with beginChunk := k.next } t).bind (destroyLoop fuel)).map
            fun (freed, q) => (t :: freed, q)

/-- `~zmqQueue()`. -/
def destroy (fuel : ℕ) : Option (List Pointer × ZmqQueue T) :=
  (q.destroyLoop fuel).bind fun (freed, q) =>
    (q.free q.beginChunk).bind fun q' =>
      let t := q'.spareChunk
      (ZmqQueue.free { q' with spareChunk := .null } t).map fun q'' =>
        (freed ++ [q.beginChunk, t], q'')

end ZmqQueue

end DataChunkQueue
