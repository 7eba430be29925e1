import CppConcurrency.ThreadSafeQueue

/-!
# `ThreadSafeQueue` is a FIFO under every interleaving

Each mutex protects a part of the list: while it is free, or its owner has written
nothing yet, the head points at the first node and the tail's node is an empty dummy.
Inside a critical section the owner knows what it has written so far. The two parts
meet in the chain from head to tail, which a push extends at one end while a pop may
be looking at the other.
-/

namespace ThreadSafeQueue

open Machines Threads LinkedChains

universe u v

variable {Tid : Type v} {T : Type u}

/-- A node that has both its element and its successor. -/
def cell (heap : Addr → Option (Node T)) (a : Addr) : Option (T × Addr) :=
  match heap a with
  | some ⟨some value, some c⟩ => some (value, c)
  | _ => none

/-- What `t` took out last. -/
def lastPopped [DecidableEq Tid] (s : State Tid T) (t : Tid) : Option (Option T) :=
  ((s.popped.filter fun e => e.1 = t).getLast?).map Prod.snd

/-- What `t` may rely on while it is at `call`: the chain starts at `front`, and
`nodes` are its nodes. -/
def Fact [DecidableEq Tid] (front : Addr) (nodes : List (Addr × T)) (s : State Tid T) (t : Tid) :
    Call T → Prop
  | .pushLock _ p => s.heap p = some .fresh
  | .pushData _ p => s.heap p = some .fresh ∧ s.heap s.tail = some .fresh
  | .pushNext data p => s.heap p = some .fresh ∧ s.heap s.tail = some ⟨some data, none⟩
  | .pushTail data p => s.heap p = some .fresh ∧ s.heap s.tail = some ⟨some data, some p⟩
  | .lockTail _ | .block _ => s.head = some front
  | .readTail _ => s.head = some front ∧ s.heap s.tail = some .fresh
  | .refuse => s.head = some front ∧ s.sawEmpty t = true
  | .copy _ => s.head = some front ∧ ∃ e, nodes.head? = some e
  | .takeHead pop value =>
    s.head = some front ∧ ∃ e, nodes.head? = some e ∧ (pop.into = true → value = some e.2)
  | .relink pop old value =>
    ∃ v, s.heap old = some ⟨some v, some front⟩ ∧ lastPopped s t = some (some v) ∧
      (pop.into = true → value = some v)
  | .finish pop old value =>
    ∃ v, s.heap old = some ⟨some v, none⟩ ∧ lastPopped s t = some (some v) ∧
      (pop.into = true → value = some v)
  | .popReturn true value => ∃ v, value = some v ∧ lastPopped s t = some (some v)
  | .popReturn false value => value = none ∧ s.sawEmpty t = true
  | .undefined => False
  | _ => True

structure Inv [DecidableEq Tid] (front : Addr) (nodes : List (Addr × T)) (s : State Tid T) :
    Prop where
  headLock : Guards s.headMutex s.call Call.holdsHead
  tailLock : Guards s.tailMutex s.call Call.holdsTail
  chain : Chain (cell s.heap) front nodes s.tail
  nodup : (nodes.map Prod.fst).Nodup
  dummy : s.tail ∉ nodes.map Prod.fst
  head : s.headMutex = none → s.head = some front
  tail : s.tailMutex = none → s.heap s.tail = some .fresh
  order : s.popped.map Prod.snd ++ nodes.map (fun e => some e.2) =
    s.pushed.map fun e => some e.2
  off : ∀ t a, (s.call t).node = some a → a ∉ nodes.map Prod.fst ∧ a ≠ s.tail
  apart : ∀ t u a, t ≠ u → (s.call t).node = some a → (s.call u).node ≠ some a
  facts : ∀ t, Fact front nodes s t (s.call t)

section Frame

variable [DecidableEq Tid] {front front' : Addr} {nodes nodes' : List (Addr × T)}
  {s s' : State Tid T} {t u : Tid} {call c : Call T}

/-- What another thread's step must leave alone: the node only `t` reaches, and the
parts protected by the mutexes `t` holds. -/
theorem Fact.frame (h : Fact front nodes s t call)
    (own : ∀ a, call.node = some a → s'.heap a = s.heap a)
    (head : call.holdsHead = true →
      s'.head = s.head ∧ front' = front ∧ ∀ e, nodes.head? = some e → nodes'.head? = some e)
    (tail : call.holdsTail = true → s'.tail = s.tail ∧ s'.heap s.tail = s.heap s.tail)
    (popped : lastPopped s' t = lastPopped s t) (saw : s'.sawEmpty t = s.sawEmpty t) :
    Fact front' nodes' s' t call := by
  cases call with
  | rest | pushAlloc | pushNotify | pushReturn | lockHead | blocked | woken => trivial
  | pushLock d p => exact (own p rfl).trans h
  | pushData d p | pushNext d p | pushTail d p =>
    obtain ⟨same, kept⟩ := tail rfl
    exact ⟨(own p rfl).trans h.1, by rw [same, kept]; exact h.2⟩
  | lockTail pop | block pop =>
    obtain ⟨same, rfl, -⟩ := head rfl
    exact same.trans h
  | readTail pop =>
    obtain ⟨same, rfl, -⟩ := head rfl
    obtain ⟨same', kept⟩ := tail rfl
    exact ⟨same.trans h.1, by rw [same', kept]; exact h.2⟩
  | refuse =>
    obtain ⟨same, rfl, -⟩ := head rfl
    exact ⟨same.trans h.1, saw.trans h.2⟩
  | copy pop =>
    obtain ⟨same, rfl, first⟩ := head rfl
    obtain ⟨hhead, e, he⟩ := h
    exact ⟨same.trans hhead, e, first e he⟩
  | takeHead pop value =>
    obtain ⟨same, rfl, first⟩ := head rfl
    obtain ⟨hhead, e, he, copied⟩ := h
    exact ⟨same.trans hhead, e, first e he, copied⟩
  | relink pop old value =>
    obtain ⟨-, rfl, -⟩ := head rfl
    obtain ⟨v, hn, last, copied⟩ := h
    exact ⟨v, (own old rfl).trans hn, popped.trans last, copied⟩
  | finish pop old value =>
    obtain ⟨v, hn, last, copied⟩ := h
    exact ⟨v, (own old rfl).trans hn, popped.trans last, copied⟩
  | popReturn ok value =>
    cases ok with
    | true =>
      obtain ⟨v, hv, last⟩ := h
      exact ⟨v, hv, popped.trans last⟩
    | false => exact ⟨h.1, saw.trans h.2⟩
  | undefined => exact h

theorem lastPopped_append_self (s : State Tid T) (t : Tid) (value : Option T) :
    lastPopped { s with popped := s.popped ++ [(t, value)] } t = some value := by
  simp [lastPopped, List.filter_append]

theorem lastPopped_append_other (s : State Tid T) (other : u ≠ t) (value : Option T) :
    lastPopped { s with popped := s.popped ++ [(t, value)] } u = lastPopped s u := by
  simp [lastPopped, List.filter_append, Ne.symm other]

/-- A step that neither moves the tail nor takes the head: what it writes must be out of
the sight of the chain and of the other threads. -/
theorem Inv.change (h : Inv front nodes s) {heap : Addr → Option (Node T)} {head : Option Addr}
    {headMutex tailMutex : Option Tid} {saw : Tid → Bool}
    (headLock : Guards headMutex (Function.update s.call t c) Call.holdsHead)
    (tailLock : Guards tailMutex (Function.update s.call t c) Call.holdsTail)
    (linked : ∀ a ∈ nodes.map Prod.fst, heap a = s.heap a)
    (held : ∀ u, u ≠ t → ∀ a, (s.call u).node = some a → heap a = s.heap a)
    (headKept : ∀ u, u ≠ t → (s.call u).holdsHead = true → head = s.head)
    (tailKept : ∀ u, u ≠ t → (s.call u).holdsTail = true → heap s.tail = s.heap s.tail)
    (sawKept : ∀ u, u ≠ t → saw u = s.sawEmpty u)
    (headFree : headMutex = none → head = some front)
    (tailFree : tailMutex = none → heap s.tail = some .fresh)
    (node : ∀ a, c.node = some a →
      a ∉ nodes.map Prod.fst ∧ a ≠ s.tail ∧ ∀ u, u ≠ t → (s.call u).node ≠ some a)
    (fact : Fact front nodes
      { s with
        heap := heap
        head := head
        headMutex := headMutex
        tailMutex := tailMutex
        sawEmpty := saw
        call := Function.update s.call t c } t c) :
    Inv front nodes
      { s with
        heap := heap
        head := head
        headMutex := headMutex
        tailMutex := tailMutex
        sawEmpty := saw
        call := Function.update s.call t c } where
  headLock := headLock
  tailLock := tailLock
  chain := h.chain.frame fun x hx => by simp only [cell, linked x hx]
  nodup := h.nodup
  dummy := h.dummy
  head := headFree
  tail := tailFree
  order := h.order
  off := by
    intro u a hu
    dsimp only at hu ⊢
    by_cases here : u = t
    · subst here
      rw [Function.update_self] at hu
      exact ⟨(node a hu).1, (node a hu).2.1⟩
    · rw [Function.update_of_ne here] at hu
      exact h.off u a hu
  apart := by
    intro u w a other hu hw
    dsimp only at hu hw
    by_cases here : u = t
    · subst here
      rw [Function.update_self] at hu
      rw [Function.update_of_ne (Ne.symm other)] at hw
      exact (node a hu).2.2 w (Ne.symm other) hw
    · rw [Function.update_of_ne here] at hu
      by_cases there : w = t
      · subst there
        rw [Function.update_self] at hw
        exact (node a hw).2.2 u here hu
      · rw [Function.update_of_ne there] at hw
        exact h.apart u w a other hu hw
  facts := by
    intro u
    dsimp only
    by_cases here : u = t
    · subst here
      rw [Function.update_self]
      exact fact
    · rw [Function.update_of_ne here]
      refine (h.facts u).frame (held u here) ?_ ?_ rfl (sawKept u here)
      · exact fun holds => ⟨headKept u here holds, rfl, fun e he => he⟩
      · exact fun holds => ⟨rfl, tailKept u here holds⟩

/-- A step that writes nothing but its own program counter, a mutex or its history. -/
theorem Inv.move (h : Inv front nodes s) {headMutex tailMutex : Option Tid} {saw : Tid → Bool}
    (headLock : Guards headMutex (Function.update s.call t c) Call.holdsHead)
    (tailLock : Guards tailMutex (Function.update s.call t c) Call.holdsTail)
    (sawKept : ∀ u, u ≠ t → saw u = s.sawEmpty u)
    (headFree : headMutex = none → s.head = some front)
    (tailFree : tailMutex = none → s.heap s.tail = some .fresh)
    (node : c.node = none ∨ c.node = (s.call t).node)
    (fact : Fact front nodes
      { s with
        headMutex := headMutex
        tailMutex := tailMutex
        sawEmpty := saw
        call := Function.update s.call t c } t c) :
    Inv front nodes
      { s with
        headMutex := headMutex
        tailMutex := tailMutex
        sawEmpty := saw
        call := Function.update s.call t c } := by
  refine h.change headLock tailLock (fun _ _ => rfl) (fun _ _ _ _ => rfl) (fun _ _ _ => rfl)
    (fun _ _ _ => rfl) sawKept headFree tailFree ?_ fact
  intro a ha
  rcases node with none | same
  · rw [none] at ha; cases ha
  · have mine : (s.call t).node = some a := same ▸ ha
    exact ⟨(h.off t a mine).1, (h.off t a mine).2,
      fun u other yours => h.apart t u a (Ne.symm other) mine yours⟩

/-- `Inv.move` where no mutex changes hands either. -/
theorem Inv.setCall (h : Inv front nodes s) (head : c.holdsHead = (s.call t).holdsHead)
    (tail : c.holdsTail = (s.call t).holdsTail)
    (node : c.node = none ∨ c.node = (s.call t).node)
    (fact : Fact front nodes (s.setCall t c) t c) : Inv front nodes (s.setCall t c) :=
  h.move (h.headLock.keep head) (h.tailLock.keep tail) (fun _ _ => rfl) h.head h.tail node fact

/-! ### Allocated nodes -/

theorem Inv.tail_allocated (h : Inv front nodes s) : ∃ n, s.heap s.tail = some n := by
  cases owner : s.tailMutex with
  | none => exact ⟨_, h.tail owner⟩
  | some t =>
    have holds := (h.tailLock t).mp owner
    have fact := h.facts t
    cases hc : s.call t with
    | pushData | pushNext | pushTail | readTail => rw [hc] at fact; exact ⟨_, fact.2⟩
    | _ => rw [hc] at holds; cases holds

theorem Inv.node_allocated (h : Inv front nodes s) {a : Addr} (hn : (s.call t).node = some a) :
    ∃ n, s.heap a = some n := by
  have fact := h.facts t
  cases hc : s.call t with
  | pushLock d p =>
    rw [hc] at fact hn
    obtain rfl : p = a := Option.some.inj hn
    exact ⟨_, fact⟩
  | pushData d p | pushNext d p | pushTail d p =>
    rw [hc] at fact hn
    obtain rfl : p = a := Option.some.inj hn
    exact ⟨_, fact.1⟩
  | relink pop old value | finish pop old value =>
    rw [hc] at fact hn
    obtain rfl : old = a := Option.some.inj hn
    obtain ⟨v, hv, -⟩ := fact
    exact ⟨_, hv⟩
  | _ => rw [hc] at hn; cases hn

theorem Chain.allocated {heap : Addr → Option (Node T)} {a b : Addr}
    (h : Chain (cell heap) a nodes b) {x : Addr} (hx : x ∈ nodes.map Prod.fst) :
    ∃ n, heap x = some n := by
  induction nodes generalizing a with
  | nil => cases hx
  | cons node rest ih =>
    obtain ⟨y, v⟩ := node
    obtain ⟨rfl, c, hc, tail⟩ := h
    rcases List.mem_cons.mp hx with rfl | later
    · cases hn : heap x with
      | none => simp [cell, hn] at hc
      | some n => exact ⟨n, rfl⟩
    · exact ih tail later

end Frame

/-! ### The steps -/

section Steps

variable [DecidableEq Tid] {front : Addr} {nodes : List (Addr × T)} {s s' : State Tid T} {t : Tid}

theorem Inv.invoke (h : Inv front nodes s) (rest : (s.call t).atRest = true) (op : Op T) :
    Inv front nodes (s.setCall t op.invoke) := by
  cases hc : s.call t with
  | rest | pushReturn | popReturn =>
    cases op with
    | push data => exact h.setCall (by rw [hc]; rfl) (by rw [hc]; rfl) (Or.inl rfl) trivial
    | pop kind => exact h.setCall (by rw [hc]; rfl) (by rw [hc]; rfl) (Or.inl rfl) trivial
  | _ => rw [hc] at rest; cases rest

theorem Inv.alloc (h : Inv front nodes s) {data : T} {p : Addr}
    (hc : s.call t = .pushAlloc data) (free : s.heap p = none) :
    Inv front nodes ((s.setNode p (some .fresh)).setCall t (.pushLock data p)) := by
  have used : ∀ {a n}, s.heap a = some n → a ≠ p := by
    rintro a n ha rfl
    rw [free] at ha
    cases ha
  have offChain : p ∉ nodes.map Prod.fst := fun hp => by
    obtain ⟨n, hn⟩ := Chain.allocated h.chain hp
    exact used hn rfl
  have offTail : s.tail ≠ p := by
    obtain ⟨n, hn⟩ := h.tail_allocated
    exact used hn
  have notHeld : ∀ u a, (s.call u).node = some a → a ≠ p := by
    intro u a ha
    obtain ⟨n, hn⟩ := h.node_allocated ha
    exact used hn
  have keep : ∀ a, a ≠ p → Function.update s.heap p (some .fresh) a = s.heap a :=
    fun a ha => Function.update_of_ne ha _ _
  refine h.change (h.headLock.keep (by rw [hc]; rfl)) (h.tailLock.keep (by rw [hc]; rfl))
    ?_ ?_ (fun _ _ _ => rfl) ?_ (fun _ _ => rfl) h.head ?_ ?_ ?_
  · intro a ha
    exact keep a fun e => offChain (e ▸ ha)
  · exact fun u _ a ha => keep a (notHeld u a ha)
  · exact fun _ _ _ => keep _ offTail
  · exact fun unlocked => (keep _ offTail).trans (h.tail unlocked)
  · intro a ha
    obtain rfl : p = a := Option.some.inj ha
    exact ⟨offChain, Ne.symm offTail, fun u _ hu => notHeld u p hu rfl⟩
  · exact Function.update_self ..

theorem Inv.pushLock (h : Inv front nodes s) {data : T} {p : Addr}
    (hc : s.call t = .pushLock data p) (free : s.tailMutex = none) :
    Inv front nodes ({ s with tailMutex := some t }.setCall t (.pushData data p)) := by
  have fact := h.facts t
  rw [hc] at fact
  have lock := h.tailLock
  rw [free] at lock
  exact h.move (h.headLock.keep (by rw [hc]; rfl)) (lock.acquire rfl) (fun _ _ => rfl) h.head
    (fun e => by cases e) (Or.inr (by rw [hc]; rfl)) ⟨fact, h.tail free⟩

/-- The owner of `tail_mutex` writes the tail's node. -/
theorem Inv.writeTail (h : Inv front nodes s) {n : Node T} {c : Call T} {p : Addr}
    (holds : (s.call t).holdsTail = true) (holds' : c.holdsTail = true)
    (head : c.holdsHead = (s.call t).holdsHead) (mine : (s.call t).node = some p)
    (node : c.node = some p)
    (fact : Fact front nodes ((s.setNode s.tail (some n)).setCall t c) t c) :
    Inv front nodes ((s.setNode s.tail (some n)).setCall t c) := by
  have owner := (h.tailLock t).mpr holds
  have keep : ∀ a, a ≠ s.tail → Function.update s.heap s.tail (some n) a = s.heap a :=
    fun a ha => Function.update_of_ne ha _ _
  refine h.change (h.headLock.keep head) (h.tailLock.keep (holds'.trans holds.symm))
    ?_ ?_ (fun _ _ _ => rfl) ?_ (fun _ _ => rfl) h.head ?_ ?_ fact
  · intro a ha
    exact keep a fun e => h.dummy (e ▸ ha)
  · exact fun u _ a ha => keep a (h.off u a ha).2
  · intro u other yours
    rw [h.tailLock.alone holds other] at yours
    cases yours
  · intro unlocked
    have := owner.symm.trans unlocked
    cases this
  · intro a ha
    obtain rfl : p = a := Option.some.inj (node ▸ ha)
    exact ⟨(h.off t p mine).1, (h.off t p mine).2,
      fun u other yours => h.apart t u p (Ne.symm other) mine yours⟩

theorem Inv.pushData (h : Inv front nodes s) {data : T} {p : Addr}
    (hc : s.call t = .pushData data p) :
    s.heap s.tail = some .fresh ∧
      Inv front nodes ((s.setNode s.tail (some ⟨some data, none⟩)).setCall t (.pushNext data p)) := by
  have fact := h.facts t
  rw [hc] at fact
  obtain ⟨fresh, tail⟩ := fact
  have mine : (s.call t).node = some p := by rw [hc]; rfl
  refine ⟨tail, h.writeTail (by rw [hc]; rfl) rfl (by rw [hc]; rfl) mine rfl ⟨?_, ?_⟩⟩
  · exact (Function.update_of_ne (h.off t p mine).2 _ _).trans fresh
  · exact Function.update_self ..

theorem Inv.pushNext (h : Inv front nodes s) {data : T} {p : Addr}
    (hc : s.call t = .pushNext data p) :
    s.heap s.tail = some ⟨some data, none⟩ ∧
      Inv front nodes
        ((s.setNode s.tail (some ⟨some data, some p⟩)).setCall t (.pushTail data p)) := by
  have fact := h.facts t
  rw [hc] at fact
  obtain ⟨fresh, tail⟩ := fact
  have mine : (s.call t).node = some p := by rw [hc]; rfl
  refine ⟨tail, h.writeTail (by rw [hc]; rfl) rfl (by rw [hc]; rfl) mine rfl ⟨?_, ?_⟩⟩
  · exact (Function.update_of_ne (h.off t p mine).2 _ _).trans fresh
  · exact Function.update_self ..

/-- The step that publishes an element: the old dummy joins the chain. -/
theorem Inv.pushTail (h : Inv front nodes s) {data : T} {p : Addr}
    (hc : s.call t = .pushTail data p) :
    Inv front (nodes ++ [(s.tail, data)])
      ({ s with
        tail := p
        tailMutex := none
        pushed := s.pushed ++ [(t, data)] }.setCall t .pushNotify) := by
  have fact := h.facts t
  rw [hc] at fact
  obtain ⟨fresh, tail⟩ := fact
  have mine : (s.call t).node = some p := by rw [hc]; rfl
  have holds : (s.call t).holdsTail = true := by rw [hc]; rfl
  obtain ⟨offChain, offTail⟩ := h.off t p mine
  have complete : cell s.heap s.tail = some (data, p) := by simp only [cell, tail]
  have names : (nodes ++ [(s.tail, data)]).map Prod.fst = nodes.map Prod.fst ++ [s.tail] := by simp
  have old : ∀ u a, (Function.update s.call t .pushNotify u).node = some a →
      u ≠ t ∧ (s.call u).node = some a := by
    intro u a hu
    by_cases here : u = t
    · subst here
      rw [Function.update_self] at hu
      cases hu
    · rw [Function.update_of_ne here] at hu
      exact ⟨here, hu⟩
  refine ⟨h.headLock.keep (by rw [hc]; rfl), h.tailLock.release holds rfl,
    h.chain.snoc complete, ?_, ?_, h.head, fun _ => fresh, ?_, ?_, ?_, ?_⟩
  · rw [names]
    exact List.nodup_append.mpr ⟨h.nodup, List.nodup_singleton _, by
      rintro a ha b hb rfl
      exact h.dummy (List.mem_singleton.mp hb ▸ ha)⟩
  · rw [names]
    intro hp
    rcases List.mem_append.mp hp with hp | hp
    · exact offChain hp
    · exact offTail (List.mem_singleton.mp hp)
  · simp only [State.setCall, List.map_append, ← List.append_assoc, h.order]
    rfl
  · intro u a hu
    obtain ⟨other, yours⟩ := old u a hu
    obtain ⟨off, notTail⟩ := h.off u a yours
    refine ⟨?_, fun e => ?_⟩
    · rw [names]
      intro ha
      rcases List.mem_append.mp ha with ha | ha
      · exact off ha
      · exact notTail (List.mem_singleton.mp ha)
    · obtain rfl : a = p := e
      exact h.apart t u a (Ne.symm other) mine yours
  · intro u w a other hu hw
    exact h.apart u w a other (old u a hu).2 (old w a hw).2
  · intro u
    by_cases here : u = t
    · subst here
      simp only [State.setCall, Function.update_self]
      trivial
    · simp only [State.setCall, Function.update_of_ne here]
      refine (h.facts u).frame (fun _ _ => rfl) ?_ ?_ rfl rfl
      · refine fun _ => ⟨rfl, rfl, fun e he => ?_⟩
        cases nodes with
        | nil => cases he
        | cons first rest => exact he
      · intro yours
        rw [h.tailLock.alone holds here] at yours
        cases yours

theorem Inv.lockHead (h : Inv front nodes s) {pop : Pop}
    (hc : s.call t = .lockHead pop ∨ s.call t = .woken pop) (free : s.headMutex = none) :
    Inv front nodes ({ s with headMutex := some t }.setCall t (.lockTail pop)) := by
  have lock := h.headLock
  rw [free] at lock
  have tail : (s.call t).holdsTail = false := by rcases hc with hc | hc <;> rw [hc] <;> rfl
  exact h.move (lock.acquire rfl) (h.tailLock.keep tail.symm) (fun _ _ => rfl)
    (fun e => by cases e) h.tail (Or.inl rfl) (h.head free)

theorem Inv.lockTail (h : Inv front nodes s) {pop : Pop} (hc : s.call t = .lockTail pop)
    (free : s.tailMutex = none) :
    Inv front nodes ({ s with tailMutex := some t }.setCall t (.readTail pop)) := by
  have fact := h.facts t
  rw [hc] at fact
  have lock := h.tailLock
  rw [free] at lock
  exact h.move (h.headLock.keep (by rw [hc]; rfl)) (lock.acquire rfl) (fun _ _ => rfl) h.head
    (fun e => by cases e) (Or.inl rfl) ⟨fact, h.tail free⟩

/-- The chain is empty exactly when everything pushed has been popped. -/
theorem Inv.length (h : Inv front nodes s) :
    s.popped.length + nodes.length = s.pushed.length := by
  have := congrArg List.length h.order
  simpa using this

theorem Inv.readTail (h : Inv front nodes s) {pop : Pop} (hc : s.call t = .readTail pop) :
    Inv front nodes
      ({ s with
        tailMutex := none
        sawEmpty := Function.update s.sawEmpty t
          (decide (s.popped.length = s.pushed.length)) }.setCall t
        (if s.head = some s.tail then (if pop.waits then .block pop else .refuse)
          else if pop.into then .copy pop else .takeHead pop none)) := by
  have fact := h.facts t
  rw [hc] at fact
  obtain ⟨head, tail⟩ := fact
  have holds : (s.call t).holdsTail = true := by rw [hc]; rfl
  have head' : (s.call t).holdsHead = true := by rw [hc]; rfl
  have len := h.length
  have empty : s.head = some s.tail ↔ nodes = [] := by
    rw [head, Option.some.injEq]
    exact h.chain.eq_iff h.dummy
  have saw : ∀ u, u ≠ t → Function.update s.sawEmpty t
      (decide (s.popped.length = s.pushed.length)) u = s.sawEmpty u :=
    fun u other => Function.update_of_ne other _ _
  have locked : s.headMutex ≠ none := by
    rw [(h.headLock t).mpr head']
    exact Option.some_ne_none t
  by_cases same : s.head = some s.tail
  · simp only [if_pos same]
    have none := empty.mp same
    by_cases waits : pop.waits = true
    · simp only [if_pos waits]
      exact h.move (h.headLock.keep head'.symm) (h.tailLock.release holds rfl) saw
        (fun e => absurd e locked) (fun _ => tail) (Or.inl rfl) head
    · simp only [if_neg waits]
      refine h.move (h.headLock.keep head'.symm) (h.tailLock.release holds rfl) saw
        (fun e => absurd e locked) (fun _ => tail) (Or.inl rfl) ⟨head, ?_⟩
      rw [none, List.length_nil, Nat.add_zero] at len
      simp [len]
  · simp only [if_neg same]
    obtain ⟨e, rest, nonempty⟩ := List.exists_cons_of_ne_nil fun none => same (empty.mpr none)
    have first : nodes.head? = some e := by rw [nonempty]; rfl
    by_cases into : pop.into = true
    · simp only [if_pos into]
      exact h.move (h.headLock.keep head'.symm) (h.tailLock.release holds rfl) saw
        (fun e => absurd e locked) (fun _ => tail) (Or.inl rfl) ⟨head, e, first⟩
    · simp only [if_neg into]
      exact h.move (h.headLock.keep head'.symm) (h.tailLock.release holds rfl) saw
        (fun e => absurd e locked) (fun _ => tail) (Or.inl rfl)
        ⟨head, e, first, fun i => absurd i into⟩

/-- Giving up or blocking: `head_mutex` is released with nothing written. -/
theorem Inv.unlockHead (h : Inv front nodes s) {c : Call T}
    (hc : s.call t = .refuse ∧ c = .popReturn false none ∨
      ∃ pop, s.call t = .block pop ∧ c = .blocked pop) :
    Inv front nodes ({ s with headMutex := none }.setCall t c) := by
  have fact := h.facts t
  rcases hc with ⟨hc, rfl⟩ | ⟨pop, hc, rfl⟩
  · rw [hc] at fact
    exact h.move (h.headLock.release (by rw [hc]; rfl) rfl) (h.tailLock.keep (by rw [hc]; rfl))
      (fun _ _ => rfl) (fun _ => fact.1) h.tail (Or.inl rfl) ⟨rfl, fact.2⟩
  · rw [hc] at fact
    exact h.move (h.headLock.release (by rw [hc]; rfl) rfl) (h.tailLock.keep (by rw [hc]; rfl))
      (fun _ _ => rfl) (fun _ => fact) h.tail (Or.inl rfl) trivial

/-- The node at the front of a chain that is not empty. -/
theorem Inv.first (h : Inv front nodes s) {e : Addr × T} (first : nodes.head? = some e) :
    ∃ c rest, nodes = (front, e.2) :: rest ∧ s.heap front = some ⟨some e.2, some c⟩ ∧
      Chain (cell s.heap) c rest s.tail := by
  cases nodes with
  | nil => cases first
  | cons node rest =>
    obtain rfl : node = e := Option.some.inj first
    obtain ⟨x, v⟩ := node
    obtain ⟨rfl, c, hc, tail⟩ := h.chain
    refine ⟨c, rest, rfl, ?_, tail⟩
    unfold cell at hc
    split at hc
    · rename_i value d hn
      obtain ⟨rfl, rfl⟩ := Prod.mk.inj (Option.some.inj hc)
      exact hn
    · cases hc

theorem Inv.copy (h : Inv front nodes s) {pop : Pop} (hc : s.call t = .copy pop) :
    ∃ v n, s.head.bind s.heap = some ⟨some v, n⟩ ∧
      Inv front nodes (s.setCall t (.takeHead pop (some v))) := by
  have fact := h.facts t
  rw [hc] at fact
  obtain ⟨head, e, first⟩ := fact
  obtain ⟨c, rest, -, hn, -⟩ := h.first first
  refine ⟨e.2, some c, ?_, h.setCall (by rw [hc]; rfl) (by rw [hc]; rfl) (Or.inl rfl)
    ⟨head, e, first, fun _ => rfl⟩⟩
  rw [head, Option.bind_some, hn]

/-- The step that takes an element out: its node leaves the chain. -/
theorem Inv.takeHead (h : Inv front nodes s) {pop : Pop} {value : Option T}
    (hc : s.call t = .takeHead pop value) :
    s.head = some front ∧ ∃ c v rest, nodes = (front, v) :: rest ∧
      Inv c rest ({ s with
        head := none
        popped := s.popped ++ [(t, (s.heap front).bind Node.data)] }.setCall t
          (.relink pop front value)) := by
  have fact := h.facts t
  rw [hc] at fact
  obtain ⟨head, ⟨x, v⟩, first, copied⟩ := fact
  obtain ⟨c, rest, rfl, hn, tail⟩ := h.first first
  have holds : (s.call t).holdsHead = true := by rw [hc]; rfl
  have owner := (h.headLock t).mpr holds
  obtain ⟨offRest, nodup⟩ := List.nodup_cons.mp h.nodup
  have offTail : front ≠ s.tail := fun e => h.dummy (e ▸ List.mem_cons_self)
  have dummy : s.tail ∉ rest.map Prod.fst := fun hm => h.dummy (List.mem_cons_of_mem _ hm)
  have others : ∀ u, u ≠ t → ∀ a, (s.call u).node = some a →
      a ≠ front ∧ a ∉ rest.map Prod.fst ∧ a ≠ s.tail := by
    intro u _ a hu
    obtain ⟨off, notTail⟩ := h.off u a hu
    exact ⟨fun e => off (e ▸ List.mem_cons_self), fun hm => off (List.mem_cons_of_mem _ hm), notTail⟩
  refine ⟨head, c, v, rest, rfl, h.headLock.keep (by rw [hc]; rfl),
    h.tailLock.keep (by rw [hc]; rfl), tail, nodup, dummy, ?_, h.tail, ?_, ?_, ?_, ?_⟩
  · intro unlocked
    have := owner.symm.trans unlocked
    cases this
  · have order := h.order
    simp only [State.setCall, List.map_append, List.map_cons, List.map_nil, List.append_assoc,
      List.cons_append, List.nil_append, hn, Option.bind_some] at order ⊢
    exact order
  · intro u a hu
    by_cases here : u = t
    · subst here
      simp only [State.setCall, Function.update_self] at hu
      obtain rfl : front = a := Option.some.inj hu
      exact ⟨offRest, offTail⟩
    · simp only [State.setCall, Function.update_of_ne here] at hu
      exact (others u here a hu).2
  · intro u w a other hu hw
    by_cases here : u = t
    · subst here
      simp only [State.setCall, Function.update_self, Function.update_of_ne (Ne.symm other)] at hu hw
      exact (others w (Ne.symm other) a hw).1 (Option.some.inj hu).symm
    · simp only [State.setCall, Function.update_of_ne here] at hu
      by_cases there : w = t
      · subst there
        simp only [State.setCall, Function.update_self] at hw
        exact (others u here a hu).1 (Option.some.inj hw).symm
      · simp only [State.setCall, Function.update_of_ne there] at hw
        exact h.apart u w a other hu hw
  · intro u
    by_cases here : u = t
    · subst here
      simp only [State.setCall, Function.update_self]
      refine ⟨v, hn, ?_, copied⟩
      rw [hn]
      exact lastPopped_append_self s u (some v)
    · simp only [State.setCall, Function.update_of_ne here]
      refine (h.facts u).frame (fun _ _ => rfl) ?_ (fun _ => ⟨rfl, rfl⟩)
        (lastPopped_append_other s here _) rfl
      intro yours
      rw [h.headLock.alone holds here] at yours
      cases yours

/-- A thread writes the node only it can reach. -/
theorem Inv.writeOwn (h : Inv front nodes s) {c : Call T} {old : Addr} {n : Option (Node T)}
    {head : Option Addr} {headMutex : Option Tid} (mine : (s.call t).node = some old)
    (headLock : Guards headMutex (Function.update s.call t c) Call.holdsHead)
    (headKept : ∀ u, u ≠ t → (s.call u).holdsHead = true → head = s.head)
    (headFree : headMutex = none → head = some front)
    (tail : c.holdsTail = (s.call t).holdsTail) (node : c.node = none ∨ c.node = some old)
    (fact : Fact front nodes
      (({ s with head := head, headMutex := headMutex }.setNode old n).setCall t c) t c) :
    Inv front nodes
      (({ s with head := head, headMutex := headMutex }.setNode old n).setCall t c) := by
  obtain ⟨offChain, offTail⟩ := h.off t old mine
  have keep : ∀ a, a ≠ old → Function.update s.heap old n a = s.heap a :=
    fun a ha => Function.update_of_ne ha _ _
  have notHeld : ∀ u, u ≠ t → ∀ a, (s.call u).node = some a → a ≠ old := by
    rintro u other a yours rfl
    exact h.apart t u a (Ne.symm other) mine yours
  refine h.change headLock (h.tailLock.keep tail) ?_ ?_ headKept ?_ (fun _ _ => rfl) headFree ?_ ?_
    fact
  · intro a ha
    exact keep a fun e => offChain (e ▸ ha)
  · exact fun u other a ha => keep a (notHeld u other a ha)
  · exact fun _ _ _ => keep _ (Ne.symm offTail)
  · exact fun unlocked => (keep _ (Ne.symm offTail)).trans (h.tail unlocked)
  · intro a ha
    rcases node with none | same
    · rw [none] at ha; cases ha
    · obtain rfl : old = a := Option.some.inj (same ▸ ha)
      exact ⟨offChain, offTail, fun u other yours => notHeld u other old yours rfl⟩

theorem Inv.relink (h : Inv front nodes s) {pop : Pop} {old : Addr} {value : Option T}
    (hc : s.call t = .relink pop old value) :
    ∃ v, s.heap old = some ⟨some v, some front⟩ ∧
      Inv front nodes (({ s with head := some front, headMutex := none }.setNode old
        (some ⟨some v, none⟩)).setCall t (.finish pop old value)) := by
  have fact := h.facts t
  rw [hc] at fact
  obtain ⟨v, hn, last, copied⟩ := fact
  have holds : (s.call t).holdsHead = true := by rw [hc]; rfl
  refine ⟨v, hn, h.writeOwn (by rw [hc]; rfl) (h.headLock.release holds rfl) ?_ (fun _ => rfl)
    (by rw [hc]; rfl) (Or.inr rfl) ⟨v, Function.update_self .., last, copied⟩⟩
  intro u other yours
  rw [h.headLock.alone holds other] at yours
  cases yours

theorem Inv.finish (h : Inv front nodes s) {pop : Pop} {old : Addr} {value : Option T}
    (hc : s.call t = .finish pop old value) :
    ∃ v, s.heap old = some ⟨some v, none⟩ ∧
      Inv front nodes ((s.setNode old none).setCall t
        (.popReturn true (if pop.into then value else some v))) := by
  have fact := h.facts t
  rw [hc] at fact
  obtain ⟨v, hn, last, copied⟩ := fact
  refine ⟨v, hn, h.writeOwn (by rw [hc]; rfl) (h.headLock.keep (by rw [hc]; rfl)) (fun _ _ _ => rfl)
    h.head (by rw [hc]; rfl) (Or.inl rfl) ⟨v, ?_, last⟩⟩
  by_cases into : pop.into = true
  · rw [if_pos into, copied into]
  · rw [if_neg into]

theorem Inv.advance (h : Inv front nodes s) (hs : advance s t = some s') :
    ∃ front' nodes', Inv front' nodes' s' := by
  unfold ThreadSafeQueue.advance at hs
  cases hc : s.call t with
  | rest | pushAlloc | pushNotify | pushReturn | blocked | popReturn | undefined =>
    simp only [hc] at hs
    cases hs
  | pushLock data p =>
    simp only [hc, Option.isSome_iff_ne_none, ne_eq, ite_not] at hs
    split at hs
    · rename_i free
      exact ⟨_, _, Option.some.inj hs ▸ h.pushLock hc free⟩
    · cases hs
  | pushData data p =>
    obtain ⟨tail, after⟩ := h.pushData hc
    simp only [hc, tail] at hs
    exact ⟨_, _, Option.some.inj hs ▸ after⟩
  | pushNext data p =>
    obtain ⟨tail, after⟩ := h.pushNext hc
    simp only [hc, tail] at hs
    exact ⟨_, _, Option.some.inj hs ▸ after⟩
  | pushTail data p =>
    simp only [hc] at hs
    exact ⟨_, _, Option.some.inj hs ▸ h.pushTail hc⟩
  | lockHead pop | woken pop =>
    simp only [hc, Option.isSome_iff_ne_none, ne_eq, ite_not] at hs
    split at hs
    · rename_i free
      exact ⟨_, _, Option.some.inj hs ▸ h.lockHead (by simp [hc]) free⟩
    · cases hs
  | lockTail pop =>
    simp only [hc, Option.isSome_iff_ne_none, ne_eq, ite_not] at hs
    split at hs
    · rename_i free
      exact ⟨_, _, Option.some.inj hs ▸ h.lockTail hc free⟩
    · cases hs
  | readTail pop =>
    simp only [hc] at hs
    exact ⟨_, _, Option.some.inj hs ▸ h.readTail hc⟩
  | refuse =>
    simp only [hc] at hs
    exact ⟨_, _, Option.some.inj hs ▸ h.unlockHead (Or.inl ⟨hc, rfl⟩)⟩
  | block pop =>
    simp only [hc] at hs
    exact ⟨_, _, Option.some.inj hs ▸ h.unlockHead (Or.inr ⟨pop, hc, rfl⟩)⟩
  | copy pop =>
    obtain ⟨v, n, read, after⟩ := h.copy hc
    simp only [hc, read] at hs
    exact ⟨_, _, Option.some.inj hs ▸ after⟩
  | takeHead pop value =>
    obtain ⟨head, c, v, rest, -, after⟩ := h.takeHead hc
    simp only [hc, head] at hs
    exact ⟨_, _, Option.some.inj hs ▸ after⟩
  | relink pop old value =>
    obtain ⟨v, hn, after⟩ := h.relink hc
    simp only [hc, hn] at hs
    exact ⟨_, _, Option.some.inj hs ▸ after⟩
  | finish pop old value =>
    obtain ⟨v, hn, after⟩ := h.finish hc
    simp only [hc, hn] at hs
    exact ⟨_, _, Option.some.inj hs ▸ after⟩

theorem Inv.next [Fintype Tid] (h : Inv front nodes s) {l : Label Tid T}
    (hs : next s l = some s') : ∃ front' nodes', Inv front' nodes' s' := by
  have returned : ∀ {t}, s.call t = .pushNotify → Inv front nodes (s.setCall t .pushReturn) :=
    fun hc => h.setCall (by rw [hc]; rfl) (by rw [hc]; rfl) (Or.inl rfl) trivial
  cases next_step hs with
  | invoke rest op => exact ⟨_, _, h.invoke rest op⟩
  | alloc hc free => exact ⟨_, _, h.alloc hc free⟩
  | @notifyOne t u pop hc hu =>
    have other : u ≠ t := by
      rintro rfl
      rw [hu] at hc
      cases hc
    have hu' : (s.setCall t .pushReturn).call u = .blocked pop :=
      (Function.update_of_ne other _ _).trans hu
    exact ⟨_, _, (returned hc).setCall (by rw [hu']; rfl) (by rw [hu']; rfl) (Or.inl rfl) trivial⟩
  | notifyNobody hc => exact ⟨_, _, returned hc⟩
  | spurious hc => exact ⟨_, _, h.setCall (by rw [hc]; rfl) (by rw [hc]; rfl) (Or.inl rfl) trivial⟩
  | step moved => exact h.advance moved

theorem Inv.head_ptr (h : Inv front nodes s)
    (whole : ∀ t, (s.call t).halfDone = false) : s.head = some front := by
  cases owner : s.headMutex with
  | none => exact h.head owner
  | some t =>
    have holds := (h.headLock t).mp owner
    have fact := h.facts t
    cases hc : s.call t with
    | lockTail | block => rw [hc] at fact; exact fact
    | readTail | refuse | copy | takeHead => rw [hc] at fact; exact fact.1
    | relink =>
      have := whole t
      rw [hc] at this
      cases this
    | _ => rw [hc] at holds; cases holds

theorem Inv.tail_node (h : Inv front nodes s)
    (whole : ∀ t, (s.call t).halfDone = false) : s.heap s.tail = some .fresh := by
  cases owner : s.tailMutex with
  | none => exact h.tail owner
  | some t =>
    have holds := (h.tailLock t).mp owner
    have fact := h.facts t
    cases hc : s.call t with
    | pushData | readTail => rw [hc] at fact; exact fact.2
    | pushNext | pushTail =>
      have := whole t
      rw [hc] at this
      cases this
    | _ => rw [hc] at holds; cases holds

end Steps

/-! ### Whole runs -/

section Runs

variable [DecidableEq Tid] [Fintype Tid] {s : State Tid T}

theorem start_inv (Tid : Type v) [DecidableEq Tid] [Fintype Tid] (T : Type u) :
    Inv 0 [] (machine Tid T).start where
  headLock := fun t => by simp [machine, Call.holdsHead]
  tailLock := fun t => by simp [machine, Call.holdsTail]
  chain := rfl
  nodup := .nil
  dummy := List.not_mem_nil
  head := fun _ => rfl
  tail := fun _ => rfl
  order := rfl
  off := fun t a h => by cases h
  apart := fun t u a _ h => by cases h
  facts := fun t => trivial

theorem reach_inv (reached : (machine Tid T).Reach s) : ∃ front nodes, Inv front nodes s :=
  Machine.ReachBy.invariant _ (P := fun s => ∃ front nodes, Inv front nodes s)
    ⟨_, _, start_inv Tid T⟩ (fun _ _ _ ⟨_, _, h⟩ _ hs => h.next hs) reached

/-- In every reachable state with no critical section half done the chain from head
reaches tail, its nodes hold data and tail's node is the empty dummy, and the values
popped followed by the values in the chain are the values pushed. In every reachable
state a pop that succeeded returns what it took out in its critical section, one that
reports empty read tail when nothing was left, no call has met a null or dangling
pointer, and head is not null unless a pop is half way through its critical section. -/
theorem queue_is_fifo (reached : (machine Tid T).Reach s) :
    ((∀ t, (s.call t).halfDone = false) →
      ∃ front nodes, s.head = some front ∧ Chain (cell s.heap) front nodes s.tail ∧
        s.tail ∉ nodes.map Prod.fst ∧ s.heap s.tail = some ⟨none, none⟩ ∧
        s.popped.map Prod.snd ++ nodes.map (fun e => some e.2) =
          s.pushed.map fun e => some e.2) ∧
    (∀ t value, s.call t = .popReturn true value →
      value.isSome = true ∧ lastPopped s t = some value) ∧
    (∀ t value, s.call t = .popReturn false value → value = none ∧ s.sawEmpty t = true) ∧
    (∀ t, s.call t ≠ .undefined) ∧
    (s.headMutex = none → s.head ≠ none) := by
  obtain ⟨front, nodes, h⟩ := reach_inv reached
  refine ⟨?_, ?_, ?_, ?_, ?_⟩
  · intro whole
    exact ⟨front, nodes, h.head_ptr whole, h.chain, h.dummy, h.tail_node whole, h.order⟩
  · intro t value returned
    have fact := h.facts t
    rw [returned] at fact
    obtain ⟨v, rfl, last⟩ := fact
    exact ⟨rfl, last⟩
  · intro t value returned
    have fact := h.facts t
    rw [returned] at fact
    exact fact
  · intro t wrong
    have fact := h.facts t
    rw [wrong] at fact
    exact fact
  · intro unlocked
    rw [h.head unlocked]
    exact Option.some_ne_none front

end Runs

/-- Thread 0 pushes a second element between thread 1's look at the tail and its pop,
and waits with its notification until the pop has returned. -/
def pushedInside : List (Label (Fin 2) ℕ) :=
  [.invoke 0 (.push 5), .alloc 0 1, .step 0, .step 0, .step 0, .step 0, .notify 0 none,
    .invoke 1 (.pop .waitAndPopInto), .step 1, .step 1, .step 1, .invoke 0 (.push 6), .alloc 0 2,
    .step 0, .step 0, .step 0, .step 0, .step 1, .step 1, .step 1, .step 1]

theorem queue_is_fifo_pushedInside :
    ∃ s, (machine (Fin 2) ℕ).exec (machine (Fin 2) ℕ).start pushedInside = some s ∧
      lastPopped s 1 = some (some 5) ∧ s.heap s.tail = some ⟨none, none⟩ := by
  obtain ⟨s, run⟩ := Option.isSome_iff_exists.mp (show ((machine (Fin 2) ℕ).exec
    (machine (Fin 2) ℕ).start pushedInside).isSome = true by decide)
  have shape : ((machine (Fin 2) ℕ).exec (machine (Fin 2) ℕ).start pushedInside).map
      (fun s => (s.call 0, s.call 1)) = some (.pushNotify, .popReturn true (some 5)) := rfl
  simp only [run, Option.map_some, Option.some.injEq, Prod.mk.injEq] at shape
  obtain ⟨pushing, popped⟩ := shape
  obtain ⟨fifo, delivered, -⟩ := queue_is_fifo ((machine (Fin 2) ℕ).reach_of_exec run)
  have whole : ∀ t, (s.call t).halfDone = false :=
    Fin.forall_fin_two.mpr ⟨congrArg Call.halfDone pushing, congrArg Call.halfDone popped⟩
  obtain ⟨front, nodes, -, -, -, dummy, -⟩ := fifo whole
  exact ⟨s, run, (delivered 1 (some 5) popped).2, dummy⟩

end ThreadSafeQueue
