import Cse461.Library.Critical
import Cse461.Multiplex.Queue

/-!
# A queue that threads share

`queue.c` once more, one access to memory at a time: any number of threads make calls on
one queue, and between two accesses of one of them the others make theirs. The semaphore
`wrt` keeps all but one of them out.

* A thread that is alone does what `Cse461.Multiplex.Queue` says (`run_code`).
* The calls of many threads do what they would do one after the other, so that the queue
  is one for all of them (`queue_linearizable`). Where calls on a queue are taken for one
  step elsewhere, this is why.
* No thread is ever stuck (`exists_queue_idle`).
-/

namespace Cse461.Multiplex.Queue

open Library

/-- An access to memory, or an operation of the semaphore. -/
inductive Access (β : Type) : Type → Type
  /-- `sem_wait(&queue->wrt)`. -/
  | wait : Access β Unit
  /-- `sem_post(&queue->wrt)`. -/
  | post : Access β Unit
  /-- `malloc` of a node, and the exit if it fails. -/
  | malloc : Access β ℕ
  /-- A read of `queue->head`. -/
  | head : Access β (Option ℕ)
  /-- A read of `queue->tail`. -/
  | tail : Access β (Option ℕ)
  | setHead (p : Option ℕ) : Access β Unit
  | setTail (p : Option ℕ) : Access β Unit
  /-- A read of a field of a node. -/
  | nodeAt (p : Option ℕ) : Access β (Node (Buffer β))
  /-- A write to a field of a node. -/
  | setNode (p : Option ℕ) (f : Node (Buffer β) → Node (Buffer β)) : Access β Unit
  /-- The writes to the fields of a node that was just allocated. -/
  | putNode (a : ℕ) (n : Node (Buffer β)) : Access β Unit
  /-- `free` of a node. -/
  | freeNode (p : Option ℕ) : Access β Unit

variable {β : Type}

namespace Access

/-- The access, on the memory. -/
def exec : ∀ γ, Access β γ → QueueM β γ
  | _, wait => waitWrt
  | _, post => postWrt
  | _, malloc => Queue.malloc
  | _, head => do return (← get).queue.head
  | _, tail => do return (← get).queue.tail
  | _, setHead p => setQueue fun q => { q with head := p }
  | _, setTail p => setQueue fun q => { q with tail := p }
  | _, nodeAt p => Queue.nodeAt p
  | _, setNode p f => Queue.setNode p f
  | _, putNode a n => Queue.putNode a n
  | _, freeNode p => Queue.freeNode p

/-- What the access does to the semaphore. -/
def kind : ∀ γ, Access β γ → LockKind
  | _, wait => .wait
  | _, post => .post
  | _, _ => .access

end Access

namespace Shared

open Program (ofOp)

/-- `dequeue`. -/
def dequeue : Program (Access β) (Int32 × Option β) := do
  ofOp .wait
  if (← ofOp .head) = none then
    ofOp .post
    return (0, none)
  else
    let buf := (← ofOp (.nodeAt (← ofOp .tail))).payload.buf
    let size := (← ofOp (.nodeAt (← ofOp .tail))).payload.bufLen
    let oldTail ← ofOp .tail
    ofOp (.setTail (← ofOp (.nodeAt (← ofOp .tail))).prev)
    if (← ofOp .tail) = none then
      ofOp (.setHead none)
    else
      ofOp (.setNode (← ofOp .tail) fun n => { n with next := none })
    ofOp (.freeNode oldTail)
    ofOp .post
    return (size, some buf)

/-- `enqueue`. -/
def enqueue (buf : β) (bufLen : Int32) : Program (Access β) Unit := do
  ofOp .wait
  let newHead ← ofOp .malloc
  let wasEmpty := (← ofOp .head) = none
  ofOp (.putNode newHead ⟨⟨buf, bufLen⟩, ← ofOp .head, none⟩)
  ofOp (.setHead (some newHead))
  if ¬wasEmpty then
    let head ← ofOp .head
    ofOp (.setNode (← ofOp (.nodeAt (← ofOp .head))).next fun n => { n with prev := head })
  else
    ofOp (.setTail (← ofOp .head))
  ofOp .post

/-- `is_empty`. -/
def isEmpty : Program (Access β) Bool := do
  ofOp .wait
  let empty := (← ofOp .head) = none
  ofOp .post
  return empty

/-- The program of a call. -/
def code : Op β → Program (Access β) (Result β)
  | .enqueue buf bufLen => do
    enqueue buf bufLen
    return .enqueued
  | .dequeue => do
    let (size, buf) ← dequeue
    return .dequeued size buf
  | .isEmpty => do
    let r ← isEmpty
    return .empty r

/-! ## A thread that is alone -/

section

variable {γ : Type} {m : Memory β}

theorem get_bind (g : Memory β → QueueM β γ) : (get >>= g) m = g m m := rfl

theorem setQueue_bind (f : QueueRecord → QueueRecord) (g : Unit → QueueM β γ) :
    (setQueue f >>= g) m = g () { m with queue := f m.queue } := rfl

theorem putNode_bind (a : ℕ) (n : Node (Buffer β)) (g : Unit → QueueM β γ) :
    (putNode a n >>= g) m = g () { m with nodes := Function.update m.nodes a (some n) } := rfl

theorem nodeAt_bind {p : Option ℕ} {n : Node (Buffer β)} (h : p.bind m.nodes = some n)
    (g : Node (Buffer β) → QueueM β γ) : (nodeAt p >>= g) m = g n m := by
  simp only [nodeAt, bind_assoc, get_bind, h]
  rfl

theorem nodeAt_bind_none {p : Option ℕ} (h : p.bind m.nodes = none)
    (g : Node (Buffer β) → QueueM β γ) : (nodeAt p >>= g) m = .error .dangling m := by
  simp only [nodeAt, bind_assoc, get_bind, h]
  rfl

end

theorem run_isEmpty : (isEmpty : Program (Access β) Bool).run (Access.exec _) = Queue.isEmpty := by
  simp [isEmpty, Queue.isEmpty, Access.exec]

theorem run_enqueue (buf : β) (bufLen : Int32) :
    (enqueue buf bufLen).run (Access.exec _) = Queue.enqueue buf bufLen := by
  simp only [enqueue, Queue.enqueue, Access.exec, Program.run_bind, Program.run_ofOp,
    Program.run_ite, bind_assoc, pure_bind]
  refine congrArg (waitWrt >>= ·) (funext fun _ => congrArg (malloc >>= ·) (funext fun a => ?_))
  funext m
  simp only [get_bind, putNode_bind, setQueue_bind]
  by_cases hhead : m.queue.head = none
  · simp only [hhead, not_true, if_false, ne_eq, get_bind, setQueue_bind]
  · simp only [hhead, not_false_eq_true, if_true, ne_eq, get_bind]
    -- The node that the head is now leads to the one before.
    rw [nodeAt_bind (n := ⟨⟨buf, bufLen⟩, m.queue.head, none⟩)]
    exact Function.update_self ..

theorem run_dequeue : (dequeue : Program (Access β) _).run (Access.exec _) = Queue.dequeue := by
  simp only [dequeue, Queue.dequeue, Access.exec, Program.run_bind, Program.run_ofOp,
    Program.run_ite, Program.run_pure, bind_assoc, pure_bind]
  refine congrArg (waitWrt >>= ·) (funext fun _ => ?_)
  funext m
  simp only [get_bind]
  by_cases hhead : m.queue.head = none
  · simp only [hhead, if_true]
  · simp only [hhead, if_false, get_bind]
    cases htail : m.queue.tail.bind m.nodes with
    | none => rw [nodeAt_bind_none htail, nodeAt_bind_none htail]
    | some n =>
      simp only [nodeAt_bind htail, get_bind, setQueue_bind]
      by_cases hprev : n.prev = none
      · simp only [hprev, if_true]
      · simp only [hprev, if_false, get_bind]

theorem run_code (o : Op β) : (code o).run (Access.exec _) = o.call := by
  cases o with
  | enqueue buf bufLen => rw [code, Program.run_bind, run_enqueue]; rfl
  | dequeue => rw [code, Program.run_bind, run_dequeue]; rfl
  | isEmpty => rw [code, Program.run_bind, run_isEmpty]; rfl

/-! ## The semaphore -/

/-- The semaphore is as before. -/
def SameWrt (m m' : Memory β) : Prop := m'.queue.wrt = m.queue.wrt

theorem keeps_nodeAt (p : Option ℕ) : Keeps SameWrt (nodeAt p : QueueM β _) := by
  intro m
  cases h : p.bind m.nodes with
  | none => simp [nodeAt, h]
  | some n => exact wp_nodeAt h rfl

/-- A node is read, and then written to. -/
theorem keeps_nodeAt_bind (p : Option ℕ) {f : Memory β → Memory β}
    (hf : ∀ m, (f m).queue = m.queue) :
    Keeps SameWrt (nodeAt p >>= fun _ => modify f : QueueM β Unit) :=
  .bind (fun _ _ _ h h' => h'.trans h) (keeps_nodeAt p) fun _ m => congrArg QueueRecord.wrt (hf m)

/-- Only the operations of the semaphore change it. -/
theorem keeps_access {γ : Type} (o : Access β γ) (h : o.kind = .access) :
    Keeps SameWrt o.exec := by
  cases o with
  | wait => cases h
  | post => cases h
  | malloc =>
    intro m
    rw [Access.exec, malloc, wp_bind, wp_get, wp_ite]
    exact ⟨fun _ => rfl, fun _ => trivial⟩
  | head => exact fun m => rfl
  | tail => exact fun m => rfl
  | setHead p => exact fun m => rfl
  | setTail p => exact fun m => rfl
  | nodeAt p => exact keeps_nodeAt p
  | setNode p f => exact keeps_nodeAt_bind p fun _ => rfl
  | putNode a n => exact fun m => rfl
  | freeNode p => exact keeps_nodeAt_bind p fun _ => rfl

theorem brackets_enqueue (buf : β) (bufLen : Int32) :
    (enqueue buf bufLen).Brackets Access.kind := by
  refine ⟨rfl, fun _ newHead head _ _ _ => Program.held_ite.2 ⟨fun _ => ?_, fun _ => ?_⟩⟩
  · exact fun _ _ _ _ => Program.held_post rfl
  · exact fun _ _ => Program.held_post rfl

theorem brackets_dequeue : (dequeue : Program (Access β) _).Brackets Access.kind := by
  refine ⟨rfl, fun _ head => Program.held_ite.2 ⟨fun _ => ?_, fun _ => ?_⟩⟩
  · exact (Program.held_post rfl).map _
  · refine fun _ _ _ _ _ _ _ _ tail => Program.held_ite.2 ⟨fun _ => ?_, fun _ => ?_⟩
    · exact fun _ _ => (Program.held_post rfl).map _
    · exact fun _ _ _ => (Program.held_post rfl).map _

theorem brackets_isEmpty : (isEmpty : Program (Access β) _).Brackets Access.kind :=
  ⟨rfl, fun _ _ => (Program.held_post rfl).map _⟩

/-- A call waits for the semaphore first, and posts it last. -/
theorem brackets_code (o : Op β) : (code o).Brackets Access.kind := by
  cases o with
  | enqueue buf bufLen => exact (brackets_enqueue buf bufLen).map fun _ => Result.enqueued
  | dequeue => exact brackets_dequeue.map fun r => Result.dequeued r.1 r.2
  | isEmpty => exact brackets_isEmpty.map Result.empty

theorem holds_of_allocateQueue {m : Memory β} (h : allocateQueue Memory.empty = .ok () m) :
    Holds m [] := by
  have hwp := wp_allocateQueue (E := fun _ _ => False) (m := Memory.empty (β := β)) fun _ => rfl
  exact (wp_of_ok h).1 hwp

/-- The queue, which threads share from its allocation on. -/
def queue : Guarded (Access β) Stop (Memory β) (Op β) (Result β) where
  init m := allocateQueue Memory.empty = .ok () m
  exec := Access.exec
  kind := Access.kind
  code := code
  free m := m.queue.wrt = 1
  taken m := m.queue.wrt = 0
  free_of_init m h := (holds_of_allocateQueue h).wrt
  brackets := brackets_code
  wait_free o m h hfree := by
    cases o with
    | wait => exact wp_waitWrt hfree rfl
    | _ => cases h
  wait_taken o m h htaken := by
    cases o with
    | wait => simp [Access.exec, waitWrt, htaken]
    | _ => cases h
  access_taken o m h htaken :=
    wp_mono (keeps_access o h m) (fun _ _ hm => hm.trans htaken) fun _ _ _ => trivial
  post_taken o m h htaken := by
    cases o with
    | post => exact congrArg (· + 1) htaken
    | _ => cases h

theorem sequential_eq (ops : List (Op β)) : queue.sequential ops = calls ops := by
  induction ops with
  | nil => rfl
  | cons o ops ih =>
    rw [Guarded.sequential, calls, ih, queue, run_code]

variable {ι : Type*} [DecidableEq ι]

/-- The threads `ι`, with the queue. -/
abbrev Run (ι : Type*) (β : Type) :=
  Threads ι (Memory β) (Guarded.Place (Access β) (Op β) (Result β))

/-- What can be said of a run of the threads from `s₀` to `s₁` in which `events` are seen. The
    calls that committed are in the order in which they did. -/
structure Linearizable (s₀ s₁ : Run ι β) (events : List (ι × Event (Op β) (Result β))) : Prop where
  /-- They returned what they would have returned one after the other. -/
  sequential : ∃ m, calls ((Guarded.commits events).map Prod.fst) s₀.shared =
    .ok ((Guarded.commits events).map Prod.snd) m
  /-- Each of them committed after it was made, and before it returned. -/
  oneByOne : ∀ i, OneByOne (Guarded.phase (s₁.pc i)) (Guarded.ofThread i events)
  /-- What came out of the queue went in, in this order. Between calls, the rest is in it. -/
  fifo : ∃ waiting, enqueued ((Guarded.commits events).map Prod.fst) =
      dequeued ((Guarded.commits events).map Prod.snd) ++ waiting ∧
    ((∀ i, s₁.pc i = none) → ∃ l, Holds s₁.shared l ∧ (l.map Prod.snd).reverse = waiting)

section

variable {s₀ s₁ : Run ι β} {l : List (ι × Option (Op β))}

/-- The queue is linearizable, whichever thread goes on when. -/
theorem queue_linearizable (hinit : (queue.system ι).init s₀)
    (hl : (queue.system ι).exec s₀ l = some s₁) :
    Linearizable s₀ s₁ (queue.events s₀ l) := by
  obtain ⟨m, hseq, hstands⟩ := queue.linearizable hinit hl
  rw [sequential_eq] at hseq
  obtain ⟨hrs, l', h', hwaiting⟩ := (wp_of_ok hseq).1 (wp_calls (E := fun _ _ => False)
    (holds_of_allocateQueue hinit.1) ((Guarded.commits (queue.events s₀ l)).map Prod.fst))
  refine ⟨⟨m, hseq⟩, queue.oneByOne_ofThread hinit hl, (l'.map Prod.snd).reverse, ?_, ?_⟩
  · rw [hrs, hwaiting]
    exact append_enqueued [] _
  · intro hidle
    cases hstands with
    | free hm _ _ => exact ⟨l', hm ▸ h', rfl⟩
    | held i _ _ hx _ _ _ _ => exact absurd ((hidle i).symm.trans hx) (Option.some_ne_none _).symm

/-- Two threads, on a queue that was just allocated. -/
def start : Run (Fin 2) ℕ where
  shared := (finalState allocateQueue Memory.empty)
  pc _ := none

/-- A thread enqueues while another one wants to dequeue, and has to wait. -/
theorem queue_linearizable_two : ∃ s₁, (queue.system (Fin 2)).exec start
      ((0, some (.enqueue 7 4)) :: (0, none) :: (1, some .dequeue) ::
        (List.replicate 9 (0, none) ++ List.replicate 15 (1, none))) = some s₁ ∧
    Linearizable start s₁ (queue.events start
      ((0, some (.enqueue 7 4)) :: (0, none) :: (1, some .dequeue) ::
        (List.replicate 9 (0, none) ++ List.replicate 15 (1, none)))) :=
  ⟨_, rfl, queue_linearizable ⟨rfl, fun _ => rfl⟩ rfl⟩

/-- The threads can always finish their calls: none is stuck, and no memory is misused. -/
theorem exists_queue_idle [Fintype ι] (hinit : (queue.system ι).init s₀)
    (hl : (queue.system ι).exec s₀ l = some s₁) : ∃ l' s₂, (∀ y ∈ l', y.2 = none) ∧
      (queue.system ι).exec s₁ l' = some s₂ ∧ ∀ i, s₂.pc i = none := by
  obtain ⟨m, hseq, hstands⟩ := queue.linearizable hinit hl
  have hQ : ∀ m (o : Op β), (∃ l, Holds m l) →
      ∃ r m', (queue.code o).run (queue.exec _) m = .ok r m' ∧ ∃ l, Holds m' l := by
    rintro m o ⟨l, h⟩
    obtain ⟨r, m', hr, -, l', h', -⟩ := ok_of_wp (wp_call h o)
    exact ⟨r, m', by rw [← hr, ← run_code]; rfl, l', h'⟩
  exact hstands.exists_idle hQ
    (Guarded.sequential_invariant hQ ⟨[], holds_of_allocateQueue hinit.1⟩ hseq)

/-- A thread is inside, and another one waits. -/
theorem exists_queue_idle_two : ∃ s₁ l' s₂, (queue.system (Fin 2)).exec start
      [(0, some (.enqueue 7 4)), (0, none), (1, some .dequeue), (0, none)] = some s₁ ∧
    (∀ y ∈ l', y.2 = none) ∧ (queue.system (Fin 2)).exec s₁ l' = some s₂ ∧ ∀ i, s₂.pc i = none := by
  have hinit : (queue.system (Fin 2)).init start := ⟨rfl, fun _ => rfl⟩
  obtain ⟨l', s₂, h⟩ := exists_queue_idle hinit
    (l := [(0, some (.enqueue 7 4)), (0, none), (1, some .dequeue), (0, none)]) rfl
  exact ⟨_, l', s₂, rfl, h⟩

end

end Shared

end Cse461.Multiplex.Queue
