import Cse461.Library.Exec
import Cse461.Library.Linked

/-!
# The queue of blocks

`queue.c`, one call at a time: a doubly linked chain, where `enqueue` puts a buffer at
the head and `dequeue` takes one from the tail. Blocks wait in a queue for their init
block, and for a connection to be written to.

* Nodes are known by their addresses, `none` stands for `NULL`. An address is not used
  again after it is freed.
* Each call waits for the semaphore `wrt` and posts it at its end; the mutex and the
  condition variable of the record are used by no call.

`Holds m l` says that the chain of the queue is `l`. Each call keeps it, and does what
it does to the list of the waiting buffers (`Op.spec`), so that what comes out is what
went in, in the same order (`calls_fifo`).
-/

namespace Cse461.Multiplex.Queue

open Library

/-- A buffer in the queue: `buf` and `buf_len` of a `struct queue_node`. -/
structure Buffer (β : Type) where
  buf : β
  bufLen : Int32
  deriving DecidableEq

/-- `struct queue`. -/
structure QueueRecord where
  head : Option ℕ
  tail : Option ℕ
  wrt : ℕ

/-- Why a call does not return. -/
inductive Stop
  /-- `exit` when `malloc` fails. -/
  | exit
  /-- A pointer that is freed, or `NULL`, is followed. -/
  | dangling
  /-- A semaphore is waited for that nobody posts. -/
  | blocked
  deriving DecidableEq

/-- The queue, and the nodes in memory by their addresses. -/
structure Memory (β : Type) where
  nodes : ℕ → Option (Node (Buffer β))
  queue : QueueRecord
  /-- The next address to allocate. -/
  next : ℕ
  /-- Whether there is room for the node at an address. -/
  room : ℕ → Bool

/-- A call, on the memory. -/
abbrev QueueM (β : Type) := EStateM Stop (Memory β)

variable {β : Type}

/-! ## Access to memory -/

/-- `malloc`, and the exit if it fails. -/
def malloc : QueueM β ℕ := do
  let m ← get
  if m.room m.next then
    set { m with next := m.next + 1 }
    return m.next
  else
    throw .exit

/-- The node that `p` points to. -/
def nodeAt (p : Option ℕ) : QueueM β (Node (Buffer β)) := do
  match p.bind (← get).nodes with
  | some n => return n
  | none => throw .dangling

/-- Write to the node that `p` points to. -/
def setNode (p : Option ℕ) (f : Node (Buffer β) → Node (Buffer β)) : QueueM β Unit := do
  let _ ← nodeAt p
  modify fun m => { m with nodes := modifyNode m.nodes p f }

/-- Write a node that was just allocated. -/
def putNode (a : ℕ) (n : Node (Buffer β)) : QueueM β Unit :=
  modify fun m => { m with nodes := Function.update m.nodes a (some n) }

/-- Free the node that `p` points to. -/
def freeNode (p : Option ℕ) : QueueM β Unit := do
  let _ ← nodeAt p
  modify fun m => { m with nodes := fun a => if p = some a then none else m.nodes a }

/-- Write to the record of the queue. -/
def setQueue (f : QueueRecord → QueueRecord) : QueueM β Unit :=
  modify fun m => { m with queue := f m.queue }

/-- `sem_wait(&queue->wrt)`. -/
def waitWrt : QueueM β Unit := do
  if (← get).queue.wrt = 0 then throw .blocked else setQueue fun q => { q with wrt := q.wrt - 1 }

/-- `sem_post(&queue->wrt)`. -/
def postWrt : QueueM β Unit := setQueue fun q => { q with wrt := q.wrt + 1 }

/-! ## The functions -/

/-- `allocate_queue`. -/
def allocateQueue : QueueM β Unit := do
  let _ ← malloc
  setQueue fun _ => { head := none, tail := none, wrt := 1 }

/-- `dequeue`, which returns `*buf_ptr` too, `none` where it is not set. -/
def dequeue : QueueM β (Int32 × Option β) := do
  waitWrt
  let q := (← get).queue
  if q.head = none then
    postWrt
    return (0, none)
  else
    let oldTail ← nodeAt q.tail
    setQueue fun q => { q with tail := oldTail.prev }
    if oldTail.prev = none then
      setQueue fun q => { q with head := none }
    else
      setNode oldTail.prev fun n => { n with next := none }
    freeNode q.tail
    postWrt
    return (oldTail.payload.bufLen, some oldTail.payload.buf)

/-- `enqueue`. -/
def enqueue (buf : β) (bufLen : Int32) : QueueM β Unit := do
  waitWrt
  let newHead ← malloc
  let q := (← get).queue
  putNode newHead ⟨⟨buf, bufLen⟩, q.head, none⟩
  setQueue fun q => { q with head := some newHead }
  if q.head ≠ none then
    setNode q.head fun n => { n with prev := some newHead }
  else
    setQueue fun q => { q with tail := some newHead }
  postWrt

/-- `is_empty`. -/
def isEmpty : QueueM β Bool := do
  waitWrt
  let empty := (← get).queue.head = none
  postWrt
  return empty

/-! ## What access to memory does -/

section

variable {m : Memory β} {E : Stop → Memory β → Prop} {p : Option ℕ} {n : Node (Buffer β)}

theorem wp_malloc {Q : ℕ → Memory β → Prop} (hroom : m.room m.next)
    (hQ : Q m.next { m with next := m.next + 1 }) : wp malloc Q E m := by
  rw [malloc, wp_bind, wp_get, if_pos hroom]
  exact hQ

theorem wp_nodeAt {Q : Node (Buffer β) → Memory β → Prop} (h : p.bind m.nodes = some n)
    (hQ : Q n m) : wp (nodeAt p) Q E m := by
  simpa [nodeAt, h] using hQ

theorem wp_setNode {f : Node (Buffer β) → Node (Buffer β)} {Q : Unit → Memory β → Prop}
    (h : p.bind m.nodes = some n) (hQ : Q () { m with nodes := modifyNode m.nodes p f }) :
    wp (setNode p f) Q E m := by
  rw [setNode, wp_bind]
  exact wp_nodeAt h ((wp_modify _).2 hQ)

theorem wp_freeNode {Q : Unit → Memory β → Prop} (h : p.bind m.nodes = some n)
    (hQ : Q () { m with nodes := fun a => if p = some a then none else m.nodes a }) :
    wp (freeNode p) Q E m := by
  rw [freeNode, wp_bind]
  exact wp_nodeAt h ((wp_modify _).2 hQ)

theorem wp_waitWrt {Q : Unit → Memory β → Prop} (h : m.queue.wrt = 1)
    (hQ : Q () { m with queue := { m.queue with wrt := 0 } }) : wp waitWrt Q E m := by
  rw [waitWrt, wp_bind, wp_get, if_neg (by rw [h]; exact Nat.one_ne_zero)]
  simpa [setQueue, h] using hQ

end

/-! ## What the calls do -/

/-- The chain of the queue is `l`, from its head, and the semaphore is free. -/
structure Holds (m : Memory β) (l : List (ℕ × Buffer β)) : Prop where
  head : m.queue.head = first l none
  tail : m.queue.tail = last l none
  linked : Linked m.nodes none l none
  nodup : (l.map Prod.fst).Nodup
  lt : ∀ a ∈ l.map Prod.fst, a < m.next
  wrt : m.queue.wrt = 1
  room : ∀ a, m.room a

section

variable {m : Memory β} {E : Stop → Memory β → Prop} {l : List (ℕ × Buffer β)} {a : ℕ}
  {x : Buffer β}

theorem wp_allocateQueue (hroom : ∀ a, m.room a) :
    wp allocateQueue (fun _ m' => Holds m' []) E m := by
  rw [allocateQueue, wp_bind]
  refine wp_malloc (hroom _) ?_
  exact ⟨rfl, rfl, trivial, List.nodup_nil, fun a ha => absurd ha List.not_mem_nil, rfl, hroom⟩

/-- A buffer is put at the head of the chain. -/
theorem wp_enqueue (h : Holds m l) (buf : β) (bufLen : Int32) :
    wp (enqueue buf bufLen) (fun _ m' => ∃ a, Holds m' ((a, ⟨buf, bufLen⟩) :: l)) E m := by
  have hnew : m.next ∉ l.map Prod.fst := fun ha => lt_irrefl _ (h.lt _ ha)
  have hnodup : (((m.next, (⟨buf, bufLen⟩ : Buffer β)) :: l).map Prod.fst).Nodup :=
    List.nodup_cons.2 ⟨hnew, h.nodup⟩
  have hlt : ∀ a ∈ ((m.next, (⟨buf, bufLen⟩ : Buffer β)) :: l).map Prod.fst, a < m.next + 1 := by
    intro a ha
    rcases List.mem_cons.1 ha with rfl | ha
    · exact Nat.lt_succ_self _
    · exact (h.lt a ha).trans (Nat.lt_succ_self _)
  rw [enqueue, wp_bind]
  refine wp_waitWrt h.wrt ?_
  rw [wp_bind]
  refine wp_malloc (h.room _) ?_
  rw [wp_bind, wp_get, wp_bind, putNode, wp_modify, wp_bind, setQueue, wp_modify]
  dsimp only
  cases l with
  | nil =>
    have hhead : m.queue.head = none := h.head
    rw [hhead, if_neg fun hne => hne rfl, wp_bind, setQueue, wp_modify, postWrt, setQueue, wp_modify]
    refine ⟨m.next, rfl, rfl, ⟨?_, trivial⟩, hnodup, hlt, rfl, h.room⟩
    exact Function.update_self ..
  | cons y l =>
    have hhead : m.queue.head = some y.1 := h.head
    have hy : y.1 ≠ m.next := fun hy => hnew (hy ▸ List.mem_cons_self)
    rw [hhead, if_pos nofun, wp_bind]
    refine wp_setNode ((Function.update_of_ne hy _ _).trans h.linked.1) ?_
    rw [postWrt, setQueue, wp_modify]
    refine ⟨m.next, rfl, h.tail, ?_, hnodup, hlt, rfl, h.room⟩
    refine Linked.cons (h.linked.congr fun a ha => ?_) h.nodup hnew (Function.update_self ..)
    exact Function.update_of_ne (h.lt a ha).ne _ _

/-- There is nothing to take from an empty chain. -/
theorem wp_dequeue_nil (h : Holds m []) :
    wp dequeue (fun r m' => r = (0, none) ∧ Holds m' []) E m := by
  rw [dequeue, wp_bind]
  refine wp_waitWrt h.wrt ?_
  rw [wp_bind, wp_get, wp_ite]
  refine ⟨fun _ => ?_, fun hne => absurd h.head hne⟩
  exact ⟨rfl, h.head, h.tail, h.linked, h.nodup, h.lt, rfl, h.room⟩

/-- The buffer at the tail of the chain is taken out. -/
theorem wp_dequeue (h : Holds m (l ++ [(a, x)])) :
    wp dequeue (fun r m' => r = (x.bufLen, some x.buf) ∧ Holds m' l) E m := by
  have hhead : m.queue.head ≠ none := by
    rw [h.head, first_append]
    cases l <;> nofun
  have htail : m.queue.tail = some a := h.tail.trans (last_append ..)
  have hnodup := h.nodup
  rw [List.map_append, List.nodup_append] at hnodup
  have ha : a ∉ l.map Prod.fst := fun ha => hnodup.2.2 a ha a List.mem_cons_self rfl
  have hlt : ∀ b ∈ l.map Prod.fst, b < m.next := fun b hb => h.lt b (by simp [hb])
  obtain ⟨hlinked, hnode, -⟩ := linked_append.1 h.linked
  have hne : ∀ b ∈ l.map Prod.fst, some a ≠ some b := by
    rintro b hb hab
    exact ha (Option.some.inj hab ▸ hb)
  rw [dequeue, wp_bind]
  refine wp_waitWrt h.wrt ?_
  rw [wp_bind, wp_get, if_neg hhead, wp_bind]
  dsimp only
  rw [htail]
  refine wp_nodeAt hnode ?_
  rw [wp_bind, setQueue, wp_modify]
  dsimp only
  rcases List.eq_nil_or_concat l with rfl | ⟨l, y, rfl⟩
  · -- The only buffer.
    have hlast : last ([] : List (ℕ × Buffer β)) none = none := rfl
    rw [if_pos hlast, wp_bind, setQueue, wp_modify, wp_bind]
    refine wp_freeNode hnode ?_
    exact ⟨rfl, rfl, rfl, trivial, List.nodup_nil, hlt, rfl, h.room⟩
  · rw [List.concat_eq_append] at *
    have hlast : last (l ++ [y]) none = some y.1 := last_append ..
    have hy : m.nodes y.1 = some ⟨y.2, some a, last l none⟩ := hlinked.get
    have hya : y.1 ≠ a := fun hya => ha (hya ▸ by simp)
    have hhead' : m.queue.head = first (l ++ [y]) none := by
      rw [h.head, first_append, first_append, first_append]
      cases l <;> rfl
    rw [if_neg (by rw [hlast]; nofun), wp_bind]
    refine wp_setNode (by rw [hlast]; exact hy) ?_
    rw [wp_bind]
    refine wp_freeNode ((modifyNode_of_ne ?_).trans hnode) ?_
    · rw [hlast]
      exact fun hsome => hya (Option.some.inj hsome)
    · refine ⟨rfl, hhead', rfl, ?_, hnodup.1, hlt, rfl, h.room⟩
      exact (hlinked.setNext hnodup.1 none).congr fun b hb => if_neg (hne b hb)

theorem wp_isEmpty (h : Holds m l) :
    wp isEmpty (fun r m' => r = decide (l = []) ∧ Holds m' l) E m := by
  have hhead : m.queue.head = none ↔ l = [] := by rw [h.head, first_eq_none_iff]
  rw [isEmpty, wp_bind]
  refine wp_waitWrt h.wrt ?_
  refine ⟨decide_eq_decide.2 hhead, h.head, h.tail, h.linked, h.nodup, h.lt, rfl, h.room⟩

end

/-! ## Whole runs -/

/-- A call on a queue. -/
inductive Op (β : Type)
  | enqueue (buf : β) (bufLen : Int32)
  | dequeue
  | isEmpty

/-- What a call returns. -/
inductive Result (β : Type)
  | enqueued
  | dequeued (size : Int32) (buf : Option β)
  | empty (r : Bool)

/-- Make a call. -/
def Op.call : Op β → QueueM β (Result β)
  | .enqueue buf bufLen => do
    Queue.enqueue buf bufLen
    return .enqueued
  | .dequeue => do
    let (size, buf) ← Queue.dequeue
    return .dequeued size buf
  | .isEmpty => do
    let r ← Queue.isEmpty
    return .empty r

/-- Make calls, one after the other. -/
def calls : List (Op β) → QueueM β (List (Result β))
  | [] => return []
  | o :: l => do
    let r ← o.call
    let rs ← calls l
    return r :: rs

/-- What a call returns when the buffers `waiting` are in the queue, the first to come out
    first, and which buffers are after it. -/
def Op.spec : List (Buffer β) → Op β → Result β × List (Buffer β)
  | waiting, .enqueue buf bufLen => (.enqueued, waiting ++ [⟨buf, bufLen⟩])
  | [], .dequeue => (.dequeued 0 none, [])
  | x :: waiting, .dequeue => (.dequeued x.bufLen (some x.buf), waiting)
  | waiting, .isEmpty => (.empty waiting.isEmpty, waiting)

/-- What the calls return, and which buffers are in the queue after them. -/
def specRun (waiting : List (Buffer β)) : List (Op β) → List (Result β) × List (Buffer β)
  | [] => ([], waiting)
  | o :: l =>
    ((o.spec waiting).1 :: (specRun (o.spec waiting).2 l).1, (specRun (o.spec waiting).2 l).2)

/-- The buffers that the calls put into the queue. -/
def enqueued (ops : List (Op β)) : List (Buffer β) :=
  ops.filterMap fun
    | .enqueue buf bufLen => some ⟨buf, bufLen⟩
    | _ => none

/-- The buffers that came out of the queue. -/
def dequeued (rs : List (Result β)) : List (Buffer β) :=
  rs.filterMap fun
    | .dequeued size (some buf) => some ⟨buf, size⟩
    | _ => none

/-- A memory with room for everything. -/
def Memory.empty : Memory β where
  nodes _ := none
  queue := { head := none, tail := none, wrt := 0 }
  next := 0
  room _ := true

/-- What comes out went in, in the same order: every call returned what it returns of the
    buffers that wait (a `dequeue` the first of them, if there is one), and after the calls
    `ops`, which returned `rs`, the buffers that did not come out yet are in the chain, the
    next one at its tail. -/
structure Fifo (ops : List (Op β)) (rs : List (Result β)) (m : Memory β) : Prop where
  results : rs = (specRun [] ops).1
  order : ∃ l, enqueued ops = dequeued rs ++ (l.map Prod.snd).reverse ∧
    Walk m.nodes Node.next m.queue.head l ∧ Walk m.nodes Node.prev m.queue.tail l.reverse ∧
    (m.queue.head = none ↔ l = []) ∧ (m.queue.tail = none ↔ l = [])
  isEmpty : ∃ r m', Queue.isEmpty m = .ok r m' ∧
    (r = true ↔ (dequeued rs).length = (enqueued ops).length)

section

variable {m : Memory β} {E : Stop → Memory β → Prop} {l : List (ℕ × Buffer β)}

/-- A call does to the chain what it does to the waiting buffers. -/
theorem wp_call (h : Holds m l) (o : Op β) :
    wp o.call (fun r m' => r = (o.spec (l.map Prod.snd).reverse).1 ∧
      ∃ l', Holds m' l' ∧ (l'.map Prod.snd).reverse = (o.spec (l.map Prod.snd).reverse).2) E m := by
  cases o with
  | enqueue buf bufLen =>
    rw [Op.call, wp_bind]
    refine wp_mono (wp_enqueue h buf bufLen) ?_ fun _ _ hE => hE
    rintro _ m' ⟨a, h'⟩
    exact ⟨rfl, _, h', List.reverse_cons⟩
  | dequeue =>
    rw [Op.call, wp_bind]
    rcases List.eq_nil_or_concat l with rfl | ⟨l, ⟨a, x⟩, rfl⟩
    · refine wp_mono (wp_dequeue_nil h) ?_ fun _ _ hE => hE
      rintro _ m' ⟨rfl, h'⟩
      exact ⟨rfl, [], h', rfl⟩
    · rw [List.concat_eq_append] at h ⊢
      refine wp_mono (wp_dequeue h) ?_ fun _ _ hE => hE
      rintro _ m' ⟨rfl, h'⟩
      rw [List.map_append, List.reverse_append]
      exact ⟨rfl, l, h', rfl⟩
  | isEmpty =>
    rw [Op.call, wp_bind]
    refine wp_mono (wp_isEmpty h) ?_ fun _ _ hE => hE
    rintro _ m' ⟨rfl, h'⟩
    refine ⟨?_, l, h', rfl⟩
    cases l <;> simp [Op.spec]

/-- The calls do to the chain what they do to the waiting buffers. -/
theorem wp_calls (h : Holds m l) (ops : List (Op β)) :
    wp (calls ops) (fun rs m' => rs = (specRun (l.map Prod.snd).reverse ops).1 ∧
      ∃ l', Holds m' l' ∧ (l'.map Prod.snd).reverse = (specRun (l.map Prod.snd).reverse ops).2)
      E m := by
  induction ops generalizing m l with
  | nil => exact ⟨rfl, l, h, rfl⟩
  | cons o ops ih =>
    rw [calls, wp_bind]
    refine wp_mono (wp_call h o) ?_ fun _ _ hE => hE
    rintro _ m₁ ⟨rfl, l₁, h₁, hl₁⟩
    rw [wp_bind]
    refine wp_mono (ih h₁) ?_ fun _ _ hE => hE
    rintro _ m' ⟨rfl, l', h', hl'⟩
    rw [hl₁] at hl'
    exact ⟨by rw [specRun, hl₁], l', h', hl'⟩

/-- The waiting buffers, and then those that are put in, come out first or wait. -/
theorem append_enqueued (waiting : List (Buffer β)) (ops : List (Op β)) :
    waiting ++ enqueued ops =
      dequeued (specRun waiting ops).1 ++ (specRun waiting ops).2 := by
  induction ops generalizing waiting with
  | nil => exact List.append_nil _
  | cons o ops ih =>
    cases o with
    | enqueue buf bufLen =>
      have h := ih (waiting ++ [⟨buf, bufLen⟩])
      rw [List.append_assoc] at h
      exact h
    | dequeue =>
      cases waiting with
      | nil => exact ih []
      | cons x waiting => exact congrArg (x :: ·) (ih waiting)
    | isEmpty =>
      have hspec : (Op.isEmpty.spec waiting).2 = waiting := by cases waiting <;> rfl
      have h := ih (Op.isEmpty.spec waiting).2
      rw [hspec] at h
      rw [specRun, hspec]
      refine h.trans ?_
      cases waiting <;> rfl

/-- The queue loses nothing, repeats nothing and keeps the order. -/
theorem calls_fifo (ops : List (Op β)) :
    ∃ (m m' : Memory β) (rs : List (Result β)), allocateQueue Memory.empty = .ok () m ∧
      calls ops m = .ok rs m' ∧ Fifo ops rs m' := by
  obtain ⟨_, m, hm, h⟩ := ok_of_wp (wp_allocateQueue (m := (Memory.empty : Memory β)) fun _ => rfl)
  obtain ⟨rs, m', hrs, rfl, l, h', hl⟩ := ok_of_wp (wp_calls h ops)
  have horder : enqueued ops = dequeued (specRun [] ops).1 ++ (l.map Prod.snd).reverse :=
    (append_enqueued [] ops).trans (congrArg _ hl.symm)
  refine ⟨m, m', _, hm, hrs, rfl, ⟨l, horder, ?_, ?_, ?_, ?_⟩, ?_⟩
  · exact h'.head ▸ h'.linked.walk_next
  · exact h'.tail ▸ h'.linked.walk_prev
  · rw [h'.head, first_eq_none_iff]
  · rw [h'.tail, last_eq_none_iff]
  · obtain ⟨r, m'', hr, rfl, -⟩ := ok_of_wp (wp_isEmpty h')
    refine ⟨_, m'', hr, ?_⟩
    change decide (l = []) = true ↔ (dequeued (specRun [] ops).1).length = _
    rw [horder, List.length_append, List.length_reverse, List.length_map, decide_eq_true_iff,
      ← List.length_eq_zero_iff]
    omega

/-- Three buffers go in and come out, one of them before the third is in; the last `dequeue`
    finds nothing. -/
theorem calls_fifo_threeBuffers :
    ∃ m m' : Memory ℕ, allocateQueue Memory.empty = .ok () m ∧
      calls [.enqueue 7 1, .enqueue 8 2, .dequeue, .isEmpty, .enqueue 9 3, .dequeue, .dequeue,
          .dequeue, .isEmpty] m =
        .ok [.enqueued, .enqueued, .dequeued 1 (some 7), .empty false, .enqueued,
          .dequeued 2 (some 8), .dequeued 3 (some 9), .dequeued 0 none, .empty true] m' ∧
      m'.queue.head = none ∧ m'.queue.tail = none := by
  obtain ⟨m, m', rs, hm, hrs, hfifo⟩ := calls_fifo (β := ℕ) [.enqueue 7 1, .enqueue 8 2, .dequeue,
    .isEmpty, .enqueue 9 3, .dequeue, .dequeue, .dequeue, .isEmpty]
  obtain ⟨l, horder, -, -, hhead, htail⟩ := hfifo.order
  have hresults := hfifo.results
  have hl : l = [] := by
    rw [hresults] at horder
    simpa [specRun, Op.spec, enqueued, dequeued] using horder
  exact ⟨m, m', hm, hrs.trans (by rw [hresults]; rfl), hhead.2 hl, htail.2 hl⟩

end

end Cse461.Multiplex.Queue
