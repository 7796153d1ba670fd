import Cse461.Library.Exec
import Cse461.Library.Linked

/-!
# Linked lists

`LinkedList.c`, as far as the hash table uses it: doubly linked lists with a head
record, and iterators on them.

* Records are known by their addresses, `none` stands for `NULL`. An address is not
  used again after it is freed.
* `malloc` may fail, as `Memory.room` says.
* An iterator is known to its caller only, which passes its record along.
* `payload_free_function` is left out: the hash table passes one that does nothing.

`Represents m c` says which lists there are in a memory, and what the nodes of each
are. Each function has a lemma (`wp_pushLinkedList`, ...) that says what it does to
the list that it is called on, and that it leaves the other lists alone.
-/

namespace Cse461.Table.LinkedList

open Library

/-- Why a call does not return. -/
inductive Stop
  /-- A pointer that is freed, or `NULL`, is followed. -/
  | dangling
  /-- A loop has no end. -/
  | unbounded
  /-- A semaphore is waited for that nobody posts. -/
  | blocked
  /-- The hash table is full enough to be resized. -/
  | loaded
  deriving DecidableEq

/-- `struct ll_head`. -/
structure LinkedListHead where
  numElements : ℕ
  head : Option ℕ
  tail : Option ℕ
  deriving DecidableEq

/-- `struct ll_iter`. -/
structure LLIterSt where
  list : ℕ
  node : Option ℕ
  deriving DecidableEq

/-- The records in memory, by their addresses. -/
structure Memory (α : Type) where
  nodes : ℕ → Option (Node α)
  heads : ℕ → Option LinkedListHead
  /-- The next address to allocate. -/
  next : ℕ
  /-- Whether there is room for the record at an address. -/
  room : ℕ → Bool

/-- A call, on the memory. -/
abbrev LinkedListM (α : Type) := EStateM Stop (Memory α)

variable {α : Type}

/-! ## Access to memory -/

/-- `malloc`. -/
def malloc : LinkedListM α (Option ℕ) := do
  let m ← get
  set { m with next := m.next + 1 }
  return if m.room m.next then some m.next else none

/-- The node that `p` points to. -/
def nodeAt (p : Option ℕ) : LinkedListM α (Node α) := do
  match p.bind (← get).nodes with
  | some n => return n
  | none => throw .dangling

/-- Write to the node that `p` points to. -/
def setNode (p : Option ℕ) (f : Node α → Node α) : LinkedListM α Unit := do
  let _ ← nodeAt p
  modify fun m => { m with nodes := modifyNode m.nodes p f }

/-- Write a node that was just allocated. -/
def putNode (a : ℕ) (n : Node α) : LinkedListM α Unit :=
  modify fun m => { m with nodes := Function.update m.nodes a (some n) }

/-- Free the node that `p` points to. -/
def freeNode (p : Option ℕ) : LinkedListM α Unit := do
  let _ ← nodeAt p
  modify fun m => { m with nodes := fun a => if p = some a then none else m.nodes a }

/-- The head record of a list. -/
def headAt (list : ℕ) : LinkedListM α LinkedListHead := do
  match (← get).heads list with
  | some h => return h
  | none => throw .dangling

/-- Write to the head record of a list. -/
def setHead (list : ℕ) (f : LinkedListHead → LinkedListHead) : LinkedListM α Unit := do
  let h ← headAt list
  modify fun m => { m with heads := Function.update m.heads list (some (f h)) }

/-- Free the head record of a list. -/
def freeHead (list : ℕ) : LinkedListM α Unit := do
  let _ ← headAt list
  modify fun m => { m with heads := Function.update m.heads list none }

/-! ## Lists -/

/-- `AllocateLinkedList`. -/
def allocateLinkedList : LinkedListM α (Option ℕ) := do
  match ← malloc with
  | none => return none
  | some ll =>
    modify fun m => { m with heads := Function.update m.heads ll (some ⟨0, none, none⟩) }
    return some ll

/-- The loop of `FreeLinkedList`. -/
def freeNodes (list : ℕ) : ℕ → LinkedListM α Unit
  | 0 => throw .unbounded
  | fuel + 1 => do
    let h ← headAt list
    if h.head.isNone then
      return ()
    else
      let next := (← nodeAt h.head).next
      freeNode h.head
      setHead list fun h => { h with head := next }
      freeNodes list fuel

/-- `NumElementsInLinkedList`. -/
def numElementsInLinkedList (list : ℕ) : LinkedListM α ℕ := do
  return (← headAt list).numElements

/-- `FreeLinkedList`. The loop takes a round for each node, and a last one. -/
def freeLinkedList (list : ℕ) : LinkedListM α Unit := do
  freeNodes list ((← numElementsInLinkedList list) + 1)
  freeHead list

/-- `PushLinkedList`. -/
def pushLinkedList (list : ℕ) (payload : α) : LinkedListM α Bool := do
  match ← malloc with
  | none => return false
  | some ln =>
    let h ← headAt list
    if h.numElements = 0 then
      putNode ln ⟨payload, none, none⟩
      setHead list fun _ => ⟨1, some ln, some ln⟩
      return true
    else
      putNode ln ⟨payload, h.head, none⟩
      setNode h.head fun n => { n with prev := some ln }
      setHead list fun h => { h with head := some ln, numElements := h.numElements + 1 }
      return true

/-- `PopLinkedList`. -/
def popLinkedList (list : ℕ) : LinkedListM α (Option α) := do
  let h ← headAt list
  if h.numElements = 0 then
    return none
  else
    if h.numElements = 1 then
      setHead list fun h => { h with tail := none }
    let popped ← nodeAt h.head
    setHead list fun h => { h with head := popped.next }
    if 1 < h.numElements then
      setNode popped.next fun n => { n with prev := none }
    freeNode h.head
    setHead list fun h => { h with numElements := h.numElements - 1 }
    return some popped.payload

/-- `AppendLinkedList`. -/
def appendLinkedList (list : ℕ) (payload : α) : LinkedListM α Bool := do
  match ← malloc with
  | none => return false
  | some ln =>
    let h ← headAt list
    if h.numElements = 0 then
      putNode ln ⟨payload, none, none⟩
      setHead list fun _ => ⟨1, some ln, some ln⟩
      return true
    else
      putNode ln ⟨payload, none, h.tail⟩
      setNode h.tail fun n => { n with next := some ln }
      setHead list fun h => { h with tail := some ln, numElements := h.numElements + 1 }
      return true

/-- `SliceLinkedList`. -/
def sliceLinkedList (list : ℕ) : LinkedListM α (Option α) := do
  let h ← headAt list
  if h.numElements = 0 then
    return none
  else
    if h.numElements = 1 then
      setHead list fun h => { h with head := none }
    let popped ← nodeAt h.tail
    setHead list fun h => { h with tail := popped.prev }
    if 1 < h.numElements then
      setNode popped.prev fun n => { n with next := none }
    freeNode h.tail
    setHead list fun h => { h with numElements := h.numElements - 1 }
    return some popped.payload

/-! ## Iterators -/

/-- `LLMakeIterator`. -/
def llMakeIterator (list : ℕ) (pos : ℤ) : LinkedListM α (Option LLIterSt) := do
  if (← numElementsInLinkedList list) = 0 then
    return none
  else
    match ← malloc with
    | none => return none
    | some _ =>
      let h ← headAt list
      return some ⟨list, if pos = 0 then h.head else h.tail⟩

/-- `LLIteratorHasNext`. -/
def llIteratorHasNext (iter : LLIterSt) : LinkedListM α Bool := do
  return (← nodeAt iter.node).next.isSome

/-- `LLIteratorNext`, which returns the iterator too. -/
def llIteratorNext (iter : LLIterSt) : LinkedListM α (Bool × LLIterSt) := do
  if ← llIteratorHasNext iter then
    return (true, { iter with node := (← nodeAt iter.node).next })
  else
    return (false, iter)

/-- `LLIteratorHasPrev`. -/
def llIteratorHasPrev (iter : LLIterSt) : LinkedListM α Bool := do
  return (← nodeAt iter.node).prev.isSome

/-- `LLIteratorPrev`, which returns the iterator too. -/
def llIteratorPrev (iter : LLIterSt) : LinkedListM α (Bool × LLIterSt) := do
  if ← llIteratorHasPrev iter then
    return (true, { iter with node := (← nodeAt iter.node).prev })
  else
    return (false, iter)

/-- `LLIteratorGetPayload`. -/
def llIteratorGetPayload (iter : LLIterSt) : LinkedListM α α := do
  return (← nodeAt iter.node).payload

/-- `LLIteratorDelete`, which returns the payload that it passes to `payload_free_function`,
    and the iterator, too. -/
def llIteratorDelete (iter : LLIterSt) : LinkedListM α (α × Bool × LLIterSt) := do
  let deleted ← nodeAt iter.node
  let h ← headAt iter.list
  let isHead := h.head = iter.node
  let isTail := h.tail = iter.node
  let isSoleNode := h.numElements = 1
  if (¬isHead ∧ ¬isTail) ∨ isSoleNode then
    if isSoleNode then
      setHead iter.list fun h => { h with head := none, tail := none }
    else
      setNode deleted.prev fun n => { n with next := deleted.next }
      setNode deleted.next fun n => { n with prev := deleted.prev }
    setHead iter.list fun h => { h with numElements := h.numElements - 1 }
    freeNode iter.node
    return (deleted.payload, ¬isSoleNode, { iter with node := deleted.next })
  else if isHead then
    let _ ← popLinkedList iter.list
    return (deleted.payload, true, { iter with node := deleted.next })
  else
    let _ ← sliceLinkedList iter.list
    return (deleted.payload, true, { iter with node := deleted.prev })

/-- `LLIteratorInsertBefore`. -/
def llIteratorInsertBefore (iter : LLIterSt) (payload : α) : LinkedListM α Bool := do
  let h ← headAt iter.list
  if iter.node = h.head then
    pushLinkedList iter.list payload
  else
    match ← malloc with
    | none => return false
    | some newnode =>
      let prev := (← nodeAt iter.node).prev
      putNode newnode ⟨payload, iter.node, prev⟩
      setNode prev fun n => { n with next := some newnode }
      setNode iter.node fun n => { n with prev := some newnode }
      setHead iter.list fun h => { h with numElements := h.numElements + 1 }
      return true

/-! ## What access to memory does -/

section

variable {m m' : Memory α} {E : Stop → Memory α → Prop}

theorem wp_malloc {Q : Option ℕ → Memory α → Prop}
    (hQ : Q (if m.room m.next then some m.next else none) { m with next := m.next + 1 }) :
    wp malloc Q E m := by
  rw [malloc, wp_bind, wp_get, wp_bind, wp_set, wp_pure]
  exact hQ

theorem wp_nodeAt {p : Option ℕ} {n : Node α} {Q : Node α → Memory α → Prop}
    (h : p.bind m.nodes = some n) (hQ : Q n m) : wp (nodeAt p) Q E m := by
  simpa [nodeAt, h] using hQ

theorem wp_setNode {p : Option ℕ} {n : Node α} {f : Node α → Node α}
    {Q : Unit → Memory α → Prop} (h : p.bind m.nodes = some n)
    (hQ : Q () { m with nodes := modifyNode m.nodes p f }) : wp (setNode p f) Q E m := by
  rw [setNode, wp_bind]
  exact wp_nodeAt h ((wp_modify _).2 hQ)

theorem wp_putNode {a : ℕ} {n : Node α} {Q : Unit → Memory α → Prop}
    (hQ : Q () { m with nodes := Function.update m.nodes a (some n) }) :
    wp (putNode a n) Q E m :=
  (wp_modify _).2 hQ

theorem wp_freeNode {p : Option ℕ} {n : Node α} {Q : Unit → Memory α → Prop}
    (h : p.bind m.nodes = some n)
    (hQ : Q () { m with nodes := fun a => if p = some a then none else m.nodes a }) :
    wp (freeNode p) Q E m := by
  rw [freeNode, wp_bind]
  exact wp_nodeAt h ((wp_modify _).2 hQ)

theorem wp_headAt {list : ℕ} {hd : LinkedListHead} {Q : LinkedListHead → Memory α → Prop}
    (h : m.heads list = some hd) (hQ : Q hd m) : wp (headAt list) Q E m := by
  simpa [headAt, h] using hQ

theorem wp_setHead {list : ℕ} {hd : LinkedListHead} {f : LinkedListHead → LinkedListHead}
    {Q : Unit → Memory α → Prop} (h : m.heads list = some hd)
    (hQ : Q () { m with heads := Function.update m.heads list (some (f hd)) }) :
    wp (setHead list f) Q E m := by
  rw [setHead, wp_bind]
  exact wp_headAt h ((wp_modify _).2 hQ)

end

/-! ## What the lists are -/

/-- The lists in a memory: `c list` are the nodes of the one at `list`, with their payloads.
    Nodes belong to one list only. -/
structure Represents (m : Memory α) (c : ℕ → Option (List (ℕ × α))) : Prop where
  head : ∀ list l, c list = some l → m.heads list = some ⟨l.length, first l none, last l none⟩
  linked : ∀ list l, c list = some l → Linked m.nodes none l none
  nodup : ∀ list l, c list = some l → (l.map Prod.fst).Nodup
  disjoint : ∀ i j l r, i ≠ j → c i = some l → c j = some r →
    (l.map Prod.fst).Disjoint (r.map Prod.fst)
  lt : ∀ list l, c list = some l → list < m.next ∧ ∀ a ∈ l.map Prod.fst, a < m.next

section

variable {m m' : Memory α} {c : ℕ → Option (List (ℕ × α))} {E : Stop → Memory α → Prop}
  {list a : ℕ} {l l' l₁ l₂ : List (ℕ × α)} {x : α}

namespace Represents

/-- One list is changed, with nodes of its own or new ones. -/
theorem update (h : Represents m c) (hnext : m.next ≤ m'.next) (hlist : list < m'.next)
    (hold : ∀ i r, i ≠ list → c i = some r → (l.map Prod.fst).Disjoint (r.map Prod.fst))
    (hlt : ∀ a ∈ l.map Prod.fst, a < m.next)
    (hheads : m'.heads =
      Function.update m.heads list (some ⟨l'.length, first l' none, last l' none⟩))
    (hnodes : ∀ a, a ∉ l.map Prod.fst → a < m.next → m'.nodes a = m.nodes a)
    (hlinked : Linked m'.nodes none l' none) (hnodup : (l'.map Prod.fst).Nodup)
    (hmem : ∀ a ∈ l'.map Prod.fst, a ∈ l.map Prod.fst ∨ m.next ≤ a ∧ a < m'.next) :
    Represents m' (Function.update c list (some l')) := by
  have hother : ∀ i r, i ≠ list → c i = some r → (l'.map Prod.fst).Disjoint (r.map Prod.fst) := by
    intro i r hi hr a ha har
    rcases hmem a ha with ha | ⟨ha, -⟩
    · exact hold i r hi hr ha har
    · exact absurd ((h.lt i r hr).2 a har) (not_lt.2 ha)
  -- A list is the changed one, or one of the others.
  have hcases : ∀ i r, Function.update c list (some l') i = some r →
      i = list ∧ r = l' ∨ i ≠ list ∧ c i = some r := by
    intro i r hr
    by_cases hi : i = list
    · subst hi
      rw [Function.update_self] at hr
      exact .inl ⟨rfl, (Option.some.inj hr).symm⟩
    · rw [Function.update_of_ne hi] at hr
      exact .inr ⟨hi, hr⟩
  constructor
  · intro i r hr
    rcases hcases i r hr with ⟨rfl, rfl⟩ | ⟨hi, hr⟩
    · rw [hheads, Function.update_self]
    · rw [hheads, Function.update_of_ne hi, h.head i r hr]
  · intro i r hr
    rcases hcases i r hr with ⟨rfl, rfl⟩ | ⟨hi, hr⟩
    · exact hlinked
    · exact (h.linked i r hr).congr fun a ha =>
        hnodes a (fun hal => hold i r hi hr hal ha) ((h.lt i r hr).2 a ha)
  · intro i r hr
    rcases hcases i r hr with ⟨rfl, rfl⟩ | ⟨hi, hr⟩
    · exact hnodup
    · exact h.nodup i r hr
  · intro i j r t hij hr ht
    rcases hcases i r hr with ⟨rfl, rfl⟩ | ⟨hi, hri⟩
    · rcases hcases j t ht with ⟨rfl, -⟩ | ⟨hj, htj⟩
      · exact absurd rfl hij
      · exact hother j t hj htj
    · rcases hcases j t ht with ⟨rfl, rfl⟩ | ⟨hj, htj⟩
      · exact (hother i r hi hri).symm
      · exact h.disjoint i j r t hij hri htj
  · intro i r hr
    rcases hcases i r hr with ⟨rfl, rfl⟩ | ⟨hi, hr⟩
    · refine ⟨hlist, fun a ha => ?_⟩
      rcases hmem a ha with ha | ⟨-, ha⟩
      · exact (hlt a ha).trans_le hnext
      · exact ha
    · exact ⟨(h.lt i r hr).1.trans_le hnext, fun a ha => ((h.lt i r hr).2 a ha).trans_le hnext⟩

/-- A list that is there is changed. -/
theorem set (h : Represents m c) (hl : c list = some l) (hnext : m.next ≤ m'.next)
    (hheads : m'.heads =
      Function.update m.heads list (some ⟨l'.length, first l' none, last l' none⟩))
    (hnodes : ∀ a, a ∉ l.map Prod.fst → a < m.next → m'.nodes a = m.nodes a)
    (hlinked : Linked m'.nodes none l' none) (hnodup : (l'.map Prod.fst).Nodup)
    (hmem : ∀ a ∈ l'.map Prod.fst, a ∈ l.map Prod.fst ∨ m.next ≤ a ∧ a < m'.next) :
    Represents m' (Function.update c list (some l')) :=
  h.update hnext ((h.lt list l hl).1.trans_le hnext)
    (fun i r hi hr => h.disjoint list i l r hi.symm hl hr) (h.lt list l hl).2 hheads hnodes hlinked
    hnodup hmem

/-- A list gets a new node, next to nodes of it or alone. -/
theorem insert (h : Represents m c) (hl : c list = some (l₁ ++ l₂))
    (hnext : m'.next = m.next + 1)
    (hheads : m'.heads = Function.update m.heads list (some ⟨(l₁ ++ l₂).length + 1,
      first (l₁ ++ (m.next, x) :: l₂) none, last (l₁ ++ (m.next, x) :: l₂) none⟩))
    (hnodes : m'.nodes = modifyNode (modifyNode
      (Function.update m.nodes m.next (some ⟨x, first l₂ none, last l₁ none⟩)) (last l₁ none)
        fun n => { n with next := some m.next }) (first l₂ none)
          fun n => { n with prev := some m.next }) :
    Represents m' (Function.update c list (some (l₁ ++ (m.next, x) :: l₂))) := by
  have hnew : m.next ∉ (l₁ ++ l₂).map Prod.fst := fun ha => lt_irrefl _ ((h.lt list _ hl).2 _ ha)
  have hnodup := h.nodup list _ hl
  refine h.set hl (by omega) ?_ ?_ ?_ ?_ ?_
  · have hlength : (l₁ ++ (m.next, x) :: l₂).length = (l₁ ++ l₂).length + 1 := by
      simp [Nat.add_assoc]
    rw [hheads, hlength]
  · intro b hb hlt
    rw [List.map_append, List.mem_append, not_or] at hb
    rw [hnodes]
    refine (modifyNode_of_ne fun hfirst => hb.2 (mem_of_first hfirst)).trans ?_
    refine (modifyNode_of_ne fun hlast => hb.1 (mem_of_last hlast)).trans ?_
    exact Function.update_of_ne hlt.ne _ _
  · rw [hnodes]
    refine Linked.insert ((h.linked list _ hl).congr fun b hb => ?_) hnodup hnew
      (Function.update_self ..)
    exact Function.update_of_ne ((h.lt list _ hl).2 b hb).ne _ _
  · rw [List.map_append, List.map_cons, List.nodup_middle, List.nodup_cons, ← List.map_append]
    exact ⟨hnew, hnodup⟩
  · intro b hb
    rw [List.map_append, List.map_cons, List.mem_append, List.mem_cons] at hb
    rw [List.map_append, List.mem_append]
    rcases hb with hb | rfl | hb
    · exact .inl (.inl hb)
    · exact .inr ⟨le_rfl, by omega⟩
    · exact .inl (.inr hb)

/-- A node gets another payload. -/
theorem setPayload (h : Represents m c) (hl : c list = some (l₁ ++ (a, x) :: l₂)) (y : α) :
    Represents { m with nodes := modifyNode m.nodes (some a) fun n => { n with payload := y } }
      (Function.update c list (some (l₁ ++ (a, y) :: l₂))) := by
  have haddr : (l₁ ++ (a, y) :: l₂).map Prod.fst = (l₁ ++ (a, x) :: l₂).map Prod.fst := by simp
  refine h.set hl le_rfl ?_ ?_ ((h.linked list _ hl).setPayload (h.nodup list _ hl) y) ?_ ?_
  · have hhead := h.head list _ hl
    rw [first_append, last_append, List.length_append] at hhead ⊢
    exact (Function.update_eq_self_iff.2 hhead.symm).symm
  · intro b hb _
    have hab : some a ≠ some b := by
      rintro hab
      rw [← Option.some.inj hab] at hb
      exact hb (by simp)
    exact modifyNode_of_ne hab
  · rw [haddr]
    exact h.nodup list _ hl
  · exact fun b hb => .inl (haddr ▸ hb)

/-- Lists may be forgotten, with their head records. -/
theorem drop (h : Represents m c) {c' : ℕ → Option (List (ℕ × α))} (hnext : m.next ≤ m'.next)
    (hc : ∀ i l, c' i = some l → c i = some l ∧ m'.heads i = m.heads i)
    (hnodes : m'.nodes = m.nodes) : Represents m' c' where
  head i l hl := (hc i l hl).2.trans (h.head i l (hc i l hl).1)
  linked i l hl := hnodes ▸ h.linked i l (hc i l hl).1
  nodup i l hl := h.nodup i l (hc i l hl).1
  disjoint i j l r hij hl hr := h.disjoint i j l r hij (hc i l hl).1 (hc j r hr).1
  lt i l hl := by
    have hlt := h.lt i l (hc i l hl).1
    exact ⟨hlt.1.trans_le hnext, fun a ha => (hlt.2 a ha).trans_le hnext⟩

/-- What is allocated elsewhere does not matter. -/
theorem mono (h : Represents m c) (hnext : m.next ≤ m'.next) (hheads : m'.heads = m.heads)
    (hnodes : m'.nodes = m.nodes) : Represents m' c :=
  h.drop hnext (fun i _ hl => ⟨hl, congrFun hheads i⟩) hnodes

end Represents

/-! ## What the functions do -/

theorem wp_allocateLinkedList (h : Represents m c) :
    wp allocateLinkedList (fun r m' => r = (if m.room m.next then some m.next else none) ∧
      m'.room = m.room ∧ m'.next = m.next + 1 ∧
      Represents m' (if m.room m.next then Function.update c m.next (some []) else c)) E m := by
  rw [allocateLinkedList, wp_bind]
  refine wp_malloc ?_
  cases hroom : m.room m.next with
  | false => exact ⟨rfl, rfl, rfl, h.mono (Nat.le_succ _) rfl rfl⟩
  | true =>
    refine ⟨rfl, rfl, rfl, ?_⟩
    exact h.update (l := []) (Nat.le_succ _) (Nat.lt_succ_self _) (fun i r _ _ => by simp)
      (fun a ha => by simp at ha) rfl (fun _ _ _ => rfl) trivial List.nodup_nil
      (fun a ha => by simp at ha)

theorem wp_numElementsInLinkedList {Q : ℕ → Memory α → Prop} (h : Represents m c)
    (hl : c list = some l) (hQ : Q l.length m) : wp (numElementsInLinkedList list) Q E m := by
  rw [numElementsInLinkedList, wp_bind]
  exact wp_headAt (h.head list l hl) hQ

/-- A payload is put at the head of a list, if there is room. -/
theorem wp_pushLinkedList (h : Represents m c) (hl : c list = some l) :
    wp (pushLinkedList list x) (fun r m' => r = m.room m.next ∧ m'.room = m.room ∧
      m'.next = m.next + 1 ∧
      Represents m' (if r then Function.update c list (some ((m.next, x) :: l)) else c)) E m := by
  have hhead := h.head list l hl
  have hsplit : c list = some ([] ++ l) := hl
  rw [pushLinkedList, wp_bind]
  refine wp_malloc ?_
  cases hroom : m.room m.next with
  | false => exact ⟨rfl, rfl, rfl, h.mono (Nat.le_succ _) rfl rfl⟩
  | true =>
    change wp (headAt list >>= _) _ _ _
    rw [wp_bind]
    refine wp_headAt hhead ?_
    cases l with
    | nil =>
      rw [wp_ite]
      refine ⟨fun _ => ?_, fun hne => absurd rfl hne⟩
      rw [wp_bind]
      refine wp_putNode ?_
      rw [wp_bind]
      exact wp_setHead hhead ⟨rfl, rfl, rfl, h.insert hsplit rfl rfl rfl⟩
    | cons y l =>
      have hy : y.1 ≠ m.next := ((h.lt list _ hl).2 y.1 List.mem_cons_self).ne
      have hnode : m.nodes y.1 = some ⟨y.2, first l none, none⟩ := (h.linked list _ hl).1
      rw [wp_ite]
      refine ⟨fun hnil => absurd hnil (Nat.succ_ne_zero _), fun _ => ?_⟩
      rw [wp_bind]
      refine wp_putNode ?_
      rw [wp_bind]
      refine wp_setNode ((Function.update_of_ne hy _ _).trans hnode) ?_
      rw [wp_bind]
      exact wp_setHead hhead ⟨rfl, rfl, rfl, h.insert hsplit rfl rfl rfl⟩

/-- A payload is put at the tail of a list, if there is room. -/
theorem wp_appendLinkedList (h : Represents m c) (hl : c list = some l) :
    wp (appendLinkedList list x) (fun r m' => r = m.room m.next ∧ m'.room = m.room ∧
      m'.next = m.next + 1 ∧
      Represents m' (if r then Function.update c list (some (l ++ [(m.next, x)])) else c)) E m := by
  have hhead := h.head list l hl
  have hnil : c list = some (l ++ []) := by rw [hl, List.append_nil]
  rw [appendLinkedList, wp_bind]
  refine wp_malloc ?_
  cases hroom : m.room m.next with
  | false => exact ⟨rfl, rfl, rfl, h.mono (Nat.le_succ _) rfl rfl⟩
  | true =>
    change wp (headAt list >>= _) _ _ _
    rw [wp_bind]
    refine wp_headAt hhead ?_
    rcases List.eq_nil_or_concat l with rfl | ⟨l, y, rfl⟩
    · rw [wp_ite]
      refine ⟨fun _ => ?_, fun hne => absurd rfl hne⟩
      rw [wp_bind]
      refine wp_putNode ?_
      rw [wp_bind]
      have hsplit : c list = some ([] ++ []) := hnil
      exact wp_setHead hhead ⟨rfl, rfl, rfl, h.insert hsplit rfl rfl rfl⟩
    · rw [List.concat_eq_append] at *
      have hlast : last (l ++ [y]) none = some y.1 := last_append ..
      have hy : y.1 ≠ m.next := by
        rintro hy
        exact lt_irrefl _ ((h.lt list _ hl).2 m.next (by simp [← hy]))
      have hnode : m.nodes y.1 = some ⟨y.2, none, last l none⟩ := (h.linked list _ hl).get
      rw [wp_ite]
      refine ⟨fun hzero => absurd hzero (by simp), fun _ => ?_⟩
      rw [wp_bind]
      refine wp_putNode ?_
      rw [wp_bind]
      refine wp_setNode (n := ⟨y.2, none, last l none⟩) ?_ ?_
      · rw [hlast]
        exact (Function.update_of_ne hy _ _).trans hnode
      · rw [wp_bind]
        refine wp_setHead hhead ⟨rfl, rfl, rfl, h.insert hnil rfl ?_ rfl⟩
        have hne : l ++ [y] ≠ [] := by simp
        have hfirst : first (l ++ [y] ++ [(m.next, x)]) none = first (l ++ [y]) none :=
          first_append_of_ne_nil hne _ _
        have hnew : last (l ++ [y] ++ [(m.next, x)]) none = some m.next := last_append ..
        rw [hfirst, hnew, List.append_nil]

/-- There is nothing to take out of an empty list. -/
theorem wp_popLinkedList_nil {Q : Option α → Memory α → Prop} (h : Represents m c)
    (hl : c list = some []) (hQ : Q none m) : wp (popLinkedList list) Q E m := by
  rw [popLinkedList, wp_bind]
  exact wp_headAt (h.head list _ hl) hQ

theorem wp_sliceLinkedList_nil {Q : Option α → Memory α → Prop} (h : Represents m c)
    (hl : c list = some []) (hQ : Q none m) : wp (sliceLinkedList list) Q E m := by
  rw [sliceLinkedList, wp_bind]
  exact wp_headAt (h.head list _ hl) hQ

/-- The head of a list is taken out. -/
theorem wp_popLinkedList (h : Represents m c) (hl : c list = some ((a, x) :: l)) :
    wp (popLinkedList list) (fun r m' => r = some x ∧ m'.room = m.room ∧ m'.next = m.next ∧
      Represents m' (Function.update c list (some l))) E m := by
  have hhead := h.head list _ hl
  have hlinked := h.linked list _ hl
  have hnodup := h.nodup list _ hl
  rw [popLinkedList, wp_bind]
  refine wp_headAt hhead ?_
  rw [wp_ite]
  refine ⟨fun hnil => absurd hnil (Nat.succ_ne_zero _), fun _ => ?_⟩
  have ha : a ∉ l.map Prod.fst := (List.nodup_cons.1 hnodup).1
  have hne : ∀ b, b ≠ a → some a ≠ some b := fun b hb hab => hb (Option.some.inj hab).symm
  dsimp only
  cases l with
  | nil =>
    have hlength : [(a, x)].length = 1 := rfl
    rw [if_pos hlength, wp_bind]
    refine wp_setHead hhead ?_
    rw [wp_bind]
    refine wp_nodeAt hlinked.1 ?_
    rw [wp_bind]
    refine wp_setHead (Function.update_self ..) ?_
    rw [if_neg hlength.not_gt, wp_bind]
    refine wp_freeNode hlinked.1 ?_
    rw [wp_bind]
    refine wp_setHead (Function.update_self ..) ⟨rfl, rfl, rfl, ?_⟩
    refine h.set hl le_rfl ?_ ?_ trivial List.nodup_nil fun b hb => absurd hb List.not_mem_nil
    · simp only [Function.update_idem]
      rfl
    · exact fun b hb _ => if_neg (hne b (List.ne_of_not_mem_cons hb))
  | cons y l =>
    have hy : y.1 ≠ a := fun hy => ha (hy ▸ List.mem_cons_self)
    have hlength : ((a, x) :: y :: l).length ≠ 1 := by simp
    have hlt : 1 < ((a, x) :: y :: l).length := by simp
    rw [if_neg hlength, wp_bind]
    refine wp_nodeAt hlinked.1 ?_
    rw [wp_bind]
    refine wp_setHead hhead ?_
    rw [if_pos hlt, wp_bind]
    refine wp_setNode hlinked.2.1 ?_
    rw [wp_bind]
    refine wp_freeNode ((modifyNode_of_ne fun hya => hy (Option.some.inj hya)).trans hlinked.1) ?_
    rw [wp_bind]
    refine wp_setHead (Function.update_self ..) ⟨rfl, rfl, rfl, ?_⟩
    refine h.set hl le_rfl ?_ ?_ ?_ (List.nodup_cons.1 hnodup).2
      fun b hb => .inl (List.mem_cons_of_mem _ hb)
    · simp only [Function.update_idem]
      rfl
    · intro b hb _
      have hyb : some y.1 ≠ some b := by
        rintro hyb
        obtain rfl := Option.some.inj hyb
        exact hb (List.mem_cons_of_mem _ List.mem_cons_self)
      exact (if_neg (hne b (List.ne_of_not_mem_cons hb))).trans (modifyNode_of_ne hyb)
    · refine (hlinked.2.setPrev (List.nodup_cons.1 hnodup).2 none).congr fun b hb => ?_
      exact if_neg (hne b fun hba => ha (hba ▸ hb))

/-- An empty list is freed. -/
theorem wp_freeLinkedList_nil {Q : Unit → Memory α → Prop} (h : Represents m c)
    (hl : c list = some [])
    (hQ : ∀ m', m'.room = m.room → m'.next = m.next → Represents m' (Function.update c list none) →
      Q () m') : wp (freeLinkedList list) Q E m := by
  have hhead := h.head list _ hl
  rw [freeLinkedList, wp_bind]
  refine wp_numElementsInLinkedList h hl ?_
  rw [wp_bind, List.length_nil, freeNodes, wp_bind]
  refine wp_headAt hhead ?_
  have hnone : (first ([] : List (ℕ × α)) none).isNone := rfl
  rw [if_pos hnone, wp_pure, freeHead, wp_bind]
  refine wp_headAt hhead ((wp_modify _).2 (hQ _ rfl rfl (h.drop le_rfl ?_ rfl)))
  intro i r hr
  have hi : i ≠ list := by
    rintro rfl
    rw [Function.update_self] at hr
    cases hr
  rw [Function.update_of_ne hi] at hr
  exact ⟨hr, Function.update_of_ne hi _ _⟩

/-- The tail of a list is taken out. -/
theorem wp_sliceLinkedList (h : Represents m c) (hl : c list = some (l ++ [(a, x)])) :
    wp (sliceLinkedList list) (fun r m' => r = some x ∧ m'.room = m.room ∧ m'.next = m.next ∧
      Represents m' (Function.update c list (some l))) E m := by
  have hhead := h.head list _ hl
  have hnodup := h.nodup list _ hl
  obtain ⟨hlinked, hnode, -⟩ := linked_append.1 (h.linked list _ hl)
  have htail : last (l ++ [(a, x)]) none = some a := last_append ..
  rw [htail, List.length_append, List.length_singleton] at hhead
  rw [List.map_append, List.nodup_append] at hnodup
  have ha : a ∉ l.map Prod.fst := fun ha => hnodup.2.2 a ha a List.mem_cons_self rfl
  have hne : ∀ b, b ≠ a → some a ≠ some b := fun b hb hab => hb (Option.some.inj hab).symm
  have hmem : ∀ b, b ∉ (l ++ [(a, x)]).map Prod.fst → b ≠ a ∧ last l none ≠ some b := by
    intro b hb
    rw [List.map_append, List.mem_append, not_or] at hb
    exact ⟨List.ne_of_not_mem_cons hb.2, fun hlast => hb.1 (mem_of_last hlast)⟩
  rw [sliceLinkedList, wp_bind]
  refine wp_headAt hhead ?_
  rw [wp_ite]
  refine ⟨fun hnil => absurd hnil (Nat.succ_ne_zero _), fun _ => ?_⟩
  dsimp only
  rcases List.eq_nil_or_concat l with rfl | ⟨l, y, rfl⟩
  · have hlength : ([] : List (ℕ × α)).length + 1 = 1 := rfl
    rw [if_pos hlength, wp_bind]
    refine wp_setHead hhead ?_
    rw [wp_bind]
    refine wp_nodeAt hnode ?_
    rw [wp_bind]
    refine wp_setHead (Function.update_self ..) ?_
    rw [if_neg hlength.not_gt, wp_bind]
    refine wp_freeNode hnode ?_
    rw [wp_bind]
    refine wp_setHead (Function.update_self ..) ⟨rfl, rfl, rfl, ?_⟩
    refine h.set hl le_rfl ?_ ?_ trivial List.nodup_nil fun b hb => absurd hb List.not_mem_nil
    · simp only [Function.update_idem]
      rfl
    · exact fun b hb _ => if_neg (hne b (hmem b hb).1)
  · rw [List.concat_eq_append] at *
    have hlength : (l ++ [y]).length + 1 ≠ 1 := by simp
    have hlt : 1 < (l ++ [y]).length + 1 := by simp
    have hlast : last (l ++ [y]) none = some y.1 := last_append ..
    have hy : (last (l ++ [y]) none).bind m.nodes = some ⟨y.2, some a, last l none⟩ := by
      rw [hlast]
      exact hlinked.get
    have hya : last (l ++ [y]) none ≠ some a := fun hya => ha (mem_of_last hya)
    rw [if_neg hlength, wp_bind]
    refine wp_nodeAt hnode ?_
    rw [wp_bind]
    refine wp_setHead hhead ?_
    rw [if_pos hlt, wp_bind]
    refine wp_setNode hy ?_
    rw [wp_bind]
    refine wp_freeNode ((modifyNode_of_ne hya).trans hnode) ?_
    rw [wp_bind]
    refine wp_setHead (Function.update_self ..) ⟨rfl, rfl, rfl, ?_⟩
    refine h.set hl le_rfl ?_ ?_ ?_ hnodup.1 fun b hb => .inl ?_
    · simp only [Function.update_idem, first_append]
      rfl
    · exact fun b hb _ => (if_neg (hne b (hmem b hb).1)).trans (modifyNode_of_ne (hmem b hb).2)
    · exact (hlinked.setNext hnodup.1 none).congr fun b hb => if_neg (hne b fun hba => ha (hba ▸ hb))
    · rw [List.map_append]
      exact List.mem_append_left _ hb

/-! ## What the iterators do -/

/-- An iterator starts at the head or the tail of a list that has one, if there is room. -/
theorem wp_llMakeIterator {pos : ℤ} (h : Represents m c) (hl : c list = some l) :
    wp (llMakeIterator list pos) (fun r m' =>
      r = (if l ≠ [] ∧ m.room m.next then
        some ⟨list, if pos = 0 then first l none else last l none⟩ else none) ∧
      m' = { m with next := m.next + if l = [] then 0 else 1 }) E m := by
  have hhead := h.head list l hl
  rw [llMakeIterator, wp_bind]
  refine wp_numElementsInLinkedList h hl ?_
  cases l with
  | nil => exact ⟨rfl, rfl⟩
  | cons y l =>
    rw [wp_ite]
    refine ⟨fun hnil => absurd hnil (Nat.succ_ne_zero _), fun _ => ?_⟩
    rw [wp_bind]
    refine wp_malloc ?_
    cases m.room m.next with
    | false => exact ⟨rfl, rfl⟩
    | true =>
      change wp (headAt list >>= _) _ _ _
      rw [wp_bind]
      exact wp_headAt hhead ⟨rfl, rfl⟩

theorem wp_llIteratorHasNext {Q : Bool → Memory α → Prop} (h : Represents m c)
    (hl : c list = some (l₁ ++ (a, x) :: l₂)) (hQ : Q (l₂ ≠ []) m) :
    wp (llIteratorHasNext ⟨list, some a⟩) Q E m := by
  rw [llIteratorHasNext, wp_bind]
  refine wp_nodeAt (h.linked list _ hl).get ?_
  cases l₂ with
  | nil => exact hQ
  | cons y l₂ => exact hQ

theorem wp_llIteratorNext {Q : Bool × LLIterSt → Memory α → Prop} (h : Represents m c)
    (hl : c list = some (l₁ ++ (a, x) :: l₂))
    (hQ : Q (l₂ ≠ [], ⟨list, if l₂ = [] then some a else first l₂ none⟩) m) :
    wp (llIteratorNext ⟨list, some a⟩) Q E m := by
  rw [llIteratorNext, wp_bind]
  refine wp_llIteratorHasNext h hl ?_
  cases l₂ with
  | nil => exact hQ
  | cons y l₂ =>
    rw [wp_ite]
    refine ⟨fun _ => ?_, fun hnone => absurd rfl hnone⟩
    rw [wp_bind]
    exact wp_nodeAt (h.linked list _ hl).get hQ

theorem wp_llIteratorPrev {Q : Bool × LLIterSt → Memory α → Prop} (h : Represents m c)
    (hl : c list = some (l₁ ++ (a, x) :: l₂))
    (hQ : Q (l₁ ≠ [], ⟨list, if l₁ = [] then some a else last l₁ none⟩) m) :
    wp (llIteratorPrev ⟨list, some a⟩) Q E m := by
  have hnode := (h.linked list _ hl).get
  rw [llIteratorPrev, llIteratorHasPrev, wp_bind, wp_bind]
  refine wp_nodeAt hnode ?_
  rcases List.eq_nil_or_concat l₁ with rfl | ⟨l₁, y, rfl⟩
  · exact hQ
  · rw [List.concat_eq_append] at *
    have hlast : last (l₁ ++ [y]) none = some y.1 := last_append ..
    have hne : l₁ ++ [y] ≠ [] := by simp
    rw [if_neg hne, decide_eq_true hne] at hQ
    rw [wp_pure, if_pos (by rw [hlast]; rfl), wp_bind]
    exact wp_nodeAt hnode hQ

theorem wp_llIteratorGetPayload {Q : α → Memory α → Prop} (h : Represents m c)
    (hl : c list = some (l₁ ++ (a, x) :: l₂)) (hQ : Q x m) :
    wp (llIteratorGetPayload ⟨list, some a⟩) Q E m := by
  rw [llIteratorGetPayload, wp_bind]
  exact wp_nodeAt (h.linked list _ hl).get hQ

/-- A payload is put before the node that an iterator is on, if there is room. -/
theorem wp_llIteratorInsertBefore {y : α} (h : Represents m c)
    (hl : c list = some (l₁ ++ (a, x) :: l₂)) :
    wp (llIteratorInsertBefore ⟨list, some a⟩ y) (fun r m' => r = m.room m.next ∧
      m'.room = m.room ∧ m'.next = m.next + 1 ∧ Represents m' (if r then
        Function.update c list (some (l₁ ++ (m.next, y) :: (a, x) :: l₂)) else c)) E m := by
  have hhead := h.head list _ hl
  have hnode := (h.linked list _ hl).get
  have hnodup := h.nodup list _ hl
  rw [llIteratorInsertBefore, wp_bind]
  refine wp_headAt hhead ?_
  dsimp only
  rcases List.eq_nil_or_concat l₁ with rfl | ⟨l₁, z, rfl⟩
  · rw [if_pos (by rfl)]
    exact wp_pushLinkedList h hl
  · rw [List.concat_eq_append] at *
    have hz : z.1 ≠ m.next := by
      rintro hz
      exact lt_irrefl _ ((h.lt list _ hl).2 m.next (by simp [← hz]))
    have ha : a ≠ m.next := by
      rintro rfl
      exact lt_irrefl _ ((h.lt list _ hl).2 m.next (by simp))
    have hsplit := hnodup
    rw [List.map_append, List.nodup_append] at hsplit
    have hza : z.1 ≠ a := hsplit.2.2 z.1 (by simp) a List.mem_cons_self
    have hne : l₁ ++ [z] ≠ [] := by simp
    have hlast : last (l₁ ++ [z]) none = some z.1 := last_append ..
    have hfirst : some a ≠ first (l₁ ++ [z] ++ (a, x) :: l₂) none := by
      intro hfirst
      rw [first_append_of_ne_nil hne] at hfirst
      exact hsplit.2.2 a (mem_of_first hfirst.symm) a List.mem_cons_self rfl
    have hprev : m.nodes z.1 = some ⟨z.2, some a, last l₁ none⟩ := by
      have hl' := h.linked list _ hl
      rw [List.append_assoc] at hl'
      exact hl'.get
    rw [if_neg hfirst, wp_bind]
    refine wp_malloc ?_
    cases hroom : m.room m.next with
    | false => exact ⟨rfl, rfl, rfl, h.mono (Nat.le_succ _) rfl rfl⟩
    | true =>
      change wp (nodeAt (some a) >>= _) _ _ _
      rw [wp_bind]
      refine wp_nodeAt hnode ?_
      dsimp only
      rw [hlast, wp_bind]
      refine wp_putNode ?_
      rw [wp_bind]
      refine wp_setNode ((Function.update_of_ne hz _ _).trans hprev) ?_
      rw [wp_bind]
      refine wp_setNode ((modifyNode_of_ne fun hab => hza (Option.some.inj hab)).trans
        ((Function.update_of_ne ha _ _).trans hnode)) ?_
      rw [wp_bind]
      refine wp_setHead hhead ⟨rfl, rfl, rfl, h.insert hl rfl ?_ ?_⟩
      · have hstart : first (l₁ ++ [z] ++ (a, x) :: l₂) none =
            first (l₁ ++ [z] ++ (m.next, y) :: (a, x) :: l₂) none := by
          rw [first_append_of_ne_nil hne, first_append_of_ne_nil hne]
        have hend : last (l₁ ++ [z] ++ (a, x) :: l₂) none =
            last (l₁ ++ [z] ++ (m.next, y) :: (a, x) :: l₂) none := by
          refine (last_append ..).trans (Eq.trans ?_ (last_append ..).symm)
          rfl
        rw [hstart, hend]
      · rw [hlast]
        rfl

/-- The node that an iterator is on is taken out, whether it is the only one, the head, the
    tail or in between, and its payload freed. The iterator goes on to the next one, or back
    from the tail. -/
theorem wp_llIteratorDelete (h : Represents m c) (hl : c list = some (l₁ ++ (a, x) :: l₂)) :
    wp (llIteratorDelete ⟨list, some a⟩) (fun r m' =>
      r = (x, decide (l₁ ++ l₂ ≠ []), ⟨list, if l₂ = [] then last l₁ none else first l₂ none⟩) ∧
      m'.room = m.room ∧ m'.next = m.next ∧
      Represents m' (Function.update c list (some (l₁ ++ l₂)))) E m := by
  have hhead := h.head list _ hl
  have hlinked := h.linked list _ hl
  have hnode := hlinked.get
  have hnodup := h.nodup list _ hl
  obtain ⟨hlinked₁, -, hlinked₂⟩ := linked_append.1 hlinked
  have hnotmem : a ∉ (l₁ ++ l₂).map Prod.fst ∧ ((l₁ ++ l₂).map Prod.fst).Nodup := by
    rw [List.map_append, List.map_cons, List.nodup_middle, List.nodup_cons] at hnodup
    rwa [List.map_append]
  obtain ⟨hnotmem, hnodup'⟩ := hnotmem
  rw [List.map_append, List.mem_append, not_or] at hnotmem
  obtain ⟨ha₁, ha₂⟩ := hnotmem
  have hisHead : first (l₁ ++ (a, x) :: l₂) none = some a ↔ l₁ = [] := by
    refine ⟨fun hfirst => ?_, fun hnil => by rw [hnil]; rfl⟩
    by_contra hne
    rw [first_append, first_of_ne_nil hne _ none] at hfirst
    exact ha₁ (mem_of_first hfirst)
  have hisTail : last (l₁ ++ (a, x) :: l₂) none = some a ↔ l₂ = [] := by
    refine ⟨fun hlast => ?_, fun hnil => by rw [hnil, last_append]; rfl⟩
    by_contra hne
    rw [last_append, last, last_of_ne_nil hne _ none] at hlast
    exact ha₂ (mem_of_last hlast)
  have hisSoleNode : (l₁ ++ (a, x) :: l₂).length = 1 ↔ l₁ = [] ∧ l₂ = [] := by
    rw [List.length_append, List.length_cons, ← List.length_eq_zero_iff, ← List.length_eq_zero_iff]
    omega
  have hne : ∀ b, b ≠ a → some a ≠ some b := fun b hb hab => hb (Option.some.inj hab).symm
  have hmem : ∀ b, b ∉ (l₁ ++ (a, x) :: l₂).map Prod.fst →
      b ≠ a ∧ last l₁ none ≠ some b ∧ first l₂ none ≠ some b := by
    intro b hb
    rw [List.map_append, List.mem_append, not_or, List.map_cons, List.mem_cons, not_or] at hb
    exact ⟨hb.2.1, fun hlast => hb.1 (mem_of_last hlast), fun hfirst => hb.2.2 (mem_of_first hfirst)⟩
  rw [llIteratorDelete, wp_bind]
  refine wp_nodeAt hnode ?_
  rw [wp_bind]
  refine wp_headAt hhead ?_
  dsimp only
  simp only [hisHead, hisTail, hisSoleNode]
  by_cases h₁ : l₁ = []
  · subst h₁
    by_cases h₂ : l₂ = []
    · -- The only node.
      subst h₂
      rw [if_pos (.inr ⟨rfl, rfl⟩), if_pos ⟨rfl, rfl⟩, wp_bind]
      refine wp_setHead hhead ?_
      rw [wp_bind]
      refine wp_setHead (Function.update_self ..) ?_
      rw [wp_bind]
      refine wp_freeNode hnode ⟨rfl, rfl, rfl, ?_⟩
      refine h.set hl le_rfl ?_ ?_ trivial List.nodup_nil fun b hb => absurd hb List.not_mem_nil
      · simp only [Function.update_idem]
        rfl
      · exact fun b hb _ => if_neg (hne b (hmem b hb).1)
    · -- The head.
      rw [if_neg (by simp [h₂]), if_pos rfl, wp_bind]
      refine wp_mono (wp_popLinkedList h hl) ?_ fun _ _ hE => hE
      rintro r m' ⟨-, hroom, hnext, hm'⟩
      exact ⟨by simp [h₂], hroom, hnext, hm'⟩
  · by_cases h₂ : l₂ = []
    · -- The tail.
      subst h₂
      rw [if_neg (by simp [h₁]), if_neg h₁, wp_bind]
      refine wp_mono (wp_sliceLinkedList h hl) ?_ fun _ _ hE => hE
      rintro r m' ⟨-, hroom, hnext, hm'⟩
      rw [List.append_nil]
      exact ⟨by simp [h₁], hroom, hnext, hm'⟩
    · -- A node in between.
      obtain ⟨n₁, hn₁⟩ := Option.isSome_iff_exists.1 (hlinked₁.isSome_last h₁)
      obtain ⟨n₂, hn₂⟩ := Option.isSome_iff_exists.1 (modifyNode_isSome
        (p := last l₁ none) (f := fun n => { n with next := first l₂ none })
        (hlinked₂.isSome_first h₂))
      rw [if_pos (.inl ⟨h₁, h₂⟩), if_neg (by simp [h₁]), wp_bind]
      refine wp_setNode hn₁ ?_
      rw [wp_bind]
      refine wp_setNode hn₂ ?_
      rw [wp_bind]
      refine wp_setHead hhead ?_
      rw [wp_bind]
      refine wp_freeNode (n := ⟨x, first l₂ none, last l₁ none⟩) ?_ ⟨?_, rfl, rfl, ?_⟩
      · refine (modifyNode_of_ne fun hfirst => ha₂ (mem_of_first hfirst)).trans ?_
        exact (modifyNode_of_ne fun hlast => ha₁ (mem_of_last hlast)).trans hnode
      · simp [h₂]
      · refine h.set hl le_rfl ?_ ?_ ?_ hnodup' fun b hb => .inl ?_
        · have hfirst : first (l₁ ++ (a, x) :: l₂) none = first (l₁ ++ l₂) none := by
            rw [first_append, first_append, first_of_ne_nil h₁]
          have hlast : last (l₁ ++ (a, x) :: l₂) none = last (l₁ ++ l₂) none := by
            rw [last_append, last_append, last, last_of_ne_nil h₂]
          have hlength : (l₁ ++ (a, x) :: l₂).length - 1 = (l₁ ++ l₂).length := by
            simp
          simp only [hfirst, hlast, hlength]
        · intro b hb _
          obtain ⟨hba, hlast, hfirst⟩ := hmem b hb
          exact (if_neg (hne b hba)).trans
            ((modifyNode_of_ne hfirst).trans (modifyNode_of_ne hlast))
        · refine (hlinked.delete hnodup).congr fun b hb => if_neg (hne b fun hba => ?_)
          rw [hba, List.map_append, List.mem_append] at hb
          exact hb.elim ha₁ ha₂
        · rw [List.map_append, List.mem_append] at hb
          rw [List.map_append, List.mem_append, List.map_cons, List.mem_cons]
          exact hb.imp id .inr

end

end Cse461.Table.LinkedList
