import Cse461.Library.Transition
import Cse461.Multiplex.Entries

/-!
# Hand-off between reader threads

Several reader threads share one table. The thread that completes a buffer runs
`handle_finished_buffer_prev`: it delivers the buffer if the one before was
delivered, and otherwise leaves its tag there, as `next_tag`. The thread that
delivers the one before runs `handle_finished_buffer_next`: it looks at
`next_tag`, and delivers the next buffer, too, if that is complete.

Here each operation on the table, each call of the handler, and each access to
`sent`, `next_tag` or `completed` is one step of a thread (`stepThread`), and the
steps of the threads interleave. The arrival of an init block and the completion
of a buffer are one step each, at any time.

Three interleavings go wrong, two of them at the places marked `TODO sync`:

* a thread finds the buffer before not yet sent, and writes its tag there after
  the other thread looked at `next_tag`: nobody delivers the buffer
  (`lost_handOff`);
* a thread makes a dummy for the buffer before, which tells its tag, and then
  finds it sent: two threads deliver the buffer (`repeated_handOff`);
* a thread looks up `next_tag` while `insert_dummy_buffer` has a dummy in the
  place of that buffer: nobody delivers it (`lost_lookup`).

In the runs without them (`InTime`), no buffer is lost or delivered twice: that is
shown in `Cse461.Multiplex.Delivery`.
-/

namespace Cse461.Multiplex.HandOff

open Library Reader

/-- `HTKeyValue`, an entry of the table. -/
structure HTKeyValue where
  key : UInt64
  value : Ptr
  deriving DecidableEq

/-- What the threads share: the reader, and the init blocks that did not arrive yet. -/
structure Shared where
  reader : Reader
  pending : List InitBlock

/-- Where a thread is: reading blocks, or before a step of
    `handle_finished_buffer_prev`, of `insert_dummy_buffer` in it, or of
    `handle_finished_buffer_next`. There, `callers` are the buffers of the calls that
    the recursion comes back to. -/
inductive Pc
  /-- In none of these functions. -/
  | reading
  /-- `LookupHashTable(ht, done->prev_tag, ..)`, if there is a dependency. -/
  | lookupPrev (done : HTKeyValue)
  /-- `InsertHashTable(ht, buffer_kv, &dummy) == 2`. -/
  | insertDummy (done : HTKeyValue)
  /-- `InsertHashTable(ht, dummy, &buffer_kv)`, of the buffer `prev` that the dummy at
      `dummy` took the place of, and `free(*buffer)`. -/
  | putBack (done : HTKeyValue) (prev dummy : Ptr)
  /-- `if (!prev_buffer->sent)`, where `made` tells whether `prev_buffer` is a dummy
      that the thread made. -/
  | testSent (done : HTKeyValue) (prev : Ptr) (made : Bool)
  /-- `prev_buffer->next_tag = done->tag`. -/
  | writeNext (done : HTKeyValue) (prev : Ptr) (made : Bool)
  /-- `RemoveFromHashTable(ht, done->prev_tag, ..)` and `free(prev_buffer)`. -/
  | dispose (done : HTKeyValue) (prev : Ptr)
  /-- `arg->handler(..)`. -/
  | handler (buffer : HTKeyValue) (callers : List HTKeyValue)
  /-- The read of `buffer->next_tag`. -/
  | readNext (buffer : HTKeyValue) (callers : List HTKeyValue)
  /-- `LookupHashTable(ht, buffer->next_tag, &next_buf_kv)`, of the tag that was read. -/
  | lookupNext (buffer : HTKeyValue) (nextTag : Int32) (callers : List HTKeyValue)
  /-- `if (next_buf->completed)`. -/
  | testCompleted (buffer next : HTKeyValue) (callers : List HTKeyValue)
  /-- `RemoveFromHashTable(ht, buffer->tag, ..)`. -/
  | removeSelf (buffer : HTKeyValue) (callers : List HTKeyValue)
  /-- `buffer->sent = true`. -/
  | writeSent (buffer : HTKeyValue) (callers : List HTKeyValue)
  deriving DecidableEq

/-- What the code does not determine about a step. -/
inductive Choice
  /-- The init block arrives. -/
  | arrive (i : InitBlock)
  /-- The last data block of a buffer is copied; `done` is what the thread looked up. -/
  | complete (done : HTKeyValue)
  /-- The next step of the functions. -/
  | go
  deriving DecidableEq

/-- The key of the dependency of `done`. -/
def prevKey (done : BufferInfo) : UInt64 := intKey done.prevTag

/-- The key that `insert_dummy_buffer` files the dependency of `done` under. -/
def dummyKey (done : BufferInfo) : UInt64 := wordKey done.prevTag.toUInt32

/-- The dummy for the dependency of `done`. -/
def dummyFor (done : BufferInfo) : BufferInfo := dummy done.prevTag.toUInt32 done.tag.toUInt32 none

/-- The init block `i`, in one step: no data waits for it. `none` on a second one. -/
def arriveInit (r : Reader) (i : InitBlock) : Option Reader :=
  match r.table (intKey i.tag) with
  | none => some (r.fileNew (intKey i.tag) (.init { nextTag := noTag } i))
  | some p => do
    let b ← r.heap p
    if b.valid then none else some (r.set p (b.init i))

/-- The call returns to the last of `callers`. -/
def Pc.returnTo : List HTKeyValue → Pc
  | [] => .reading
  | kv :: callers => .removeSelf kv callers

/-- A step of `handle_finished_buffer_prev` or `handle_finished_buffer_next`. It is
    `none` if the thread follows a pointer to a buffer that was freed. -/
def stepFinished (r : Reader) : Pc → Option (Reader × Pc)
  | .reading => none
  | .lookupPrev done => do
    let b ← r.heap done.value
    if b.prevTag = noTag then
      some (r, .handler done [])
    else match r.table (prevKey b) with
      | some prev => some (r, .testSent done prev false)
      | none => some (r, .insertDummy done)
  | .insertDummy done => do
    let b ← r.heap done.value
    match r.table (dummyKey b) with
    | none => some (r.fileNew (dummyKey b) (dummyFor b), .testSent done r.next true)
    | some prev => some (r.fileNew (dummyKey b) (dummyFor b), .putBack done prev r.next)
  | .putBack done prev dummy => do
    let b ← r.heap done.value
    some ((r.insert (dummyKey b) prev).free dummy, .testSent done prev false)
  | .testSent done prev made => do
    let q ← r.heap prev
    some (r, if q.sent then .dispose done prev else .writeNext done prev made)
  | .writeNext done prev _ => do
    let b ← r.heap done.value
    let q ← r.heap prev
    some (r.set prev { q with nextTag := b.tag }, .reading)
  | .dispose done prev => do
    let b ← r.heap done.value
    let _ ← r.heap prev
    some (r.dispose (prevKey b) prev, .handler done [])
  | .handler kv callers => do
    let b ← r.heap kv.value
    some (r.record (.handled kv.value b), .readNext kv callers)
  | .readNext kv callers => do
    let b ← r.heap kv.value
    some (r, if b.lastBlock then .writeSent kv callers else .lookupNext kv b.nextTag callers)
  | .lookupNext kv nextTag callers =>
    match r.table (intKey nextTag) with
    | some q => some (r, .testCompleted kv ⟨intKey nextTag, q⟩ callers)
    | none => some (r, .writeSent kv callers)
  | .testCompleted kv next callers => do
    let q ← r.heap next.value
    some (r, if q.completed then .handler next (kv :: callers) else .writeSent kv callers)
  | .removeSelf kv callers => do
    let b ← r.heap kv.value
    some (r.remove (intKey b.tag), .writeSent kv callers)
  | .writeSent kv callers => do
    let b ← r.heap kv.value
    some (r.set kv.value { b with sent := true }, .returnTo callers)

/-- A step of one thread. -/
def stepThread (s : Shared) : Pc → Choice → Option (Shared × Pc)
  | .reading, .arrive i =>
    if i ∈ s.pending then
      (arriveInit s.reader i).map fun r => (⟨r, s.pending.erase i⟩, .reading)
    else none
  | .reading, .complete done => do
    let b ← s.reader.heap done.value
    if b.valid ∧ ¬b.completed ∧ done.key = intKey b.tag then
      some ({ s with reader := s.reader.set done.value { b with completed := true } },
        .lookupPrev done)
    else none
  | p, .go => (stepFinished s.reader p).map fun x => ({ s with reader := x.1 }, x.2)
  | _, _ => none

/-- Reader threads, before the init blocks `inits` arrive. -/
def handOff (ι : Type) [DecidableEq ι] (inits : List InitBlock) :
    System (Threads ι Shared Pc) (ι × Choice) :=
  threads (fun s => s = ⟨.empty, inits⟩) .reading stepThread

/-! ## Delivery -/

/-- How often a buffer with the tag is passed to the handler. -/
def deliveries (r : Reader) (tag : Int32) : ℕ :=
  r.log.countP fun
    | .handled _ b => b.tag = tag
    | .copied .. => false

/-- The buffer with the tag is complete. -/
def Completed (r : Reader) (tag : Int32) : Prop :=
  ∃ p b, r.heap p = some b ∧ b.tag = tag ∧ b.completed = true

variable {ι : Type}

/-- No buffer is delivered twice. -/
def NoRepeat (inits : List InitBlock) (s : Threads ι Shared Pc) : Prop :=
  ∀ i ∈ inits, deliveries s.shared.reader i.tag ≤ 1

/-- If every thread is finished, a complete buffer that is not delivered comes
    after one that is not delivered. -/
def NoLoss (inits : List InitBlock) (s : Threads ι Shared Pc) : Prop :=
  (∀ j, s.pc j = .reading) → ∀ i ∈ inits, Completed s.shared.reader i.tag →
    deliveries s.shared.reader i.tag = 0 →
      i.prevTag ≠ noTag ∧ deliveries s.shared.reader i.prevTag = 0

/-- The init blocks of a chain of buffers. -/
structure IsChain (inits : List InitBlock) : Prop where
  nodup : (inits.map InitBlock.tag).Nodup
  tag_nonneg : ∀ i ∈ inits, 0 ≤ i.tag
  prevTag : inits.map InitBlock.prevTag = (noTag :: inits.map InitBlock.tag).dropLast
  lastBlock : ∀ i ∈ inits.dropLast, i.lastBlock = false

/-! ### The steps that go wrong -/

/-- The buffers whose `next_tag` the thread has read, and that it has not marked as
    sent yet. -/
def Pc.past : Pc → List Ptr
  | .handler _ callers | .readNext _ callers => callers.map HTKeyValue.value
  | .lookupNext kv _ callers | .testCompleted kv _ callers => (kv :: callers).map HTKeyValue.value
  | .removeSelf kv callers | .writeSent kv callers => (kv :: callers).map HTKeyValue.value
  | _ => []

/-- The step is none of the three that go wrong:

    * `next_tag` is written to a buffer, by a thread that did not make it, when
      another thread has read it already;
    * a thread that made the buffer before finds it sent;
    * the dummy of `insert_dummy_buffer` is looked up. -/
def InTime (s : Threads ι Shared Pc) (a : ι × Choice) : Prop :=
  match s.pc a.1 with
  | .writeNext _ prev false => (∀ j, prev ∉ (s.pc j).past) ∧
      ∀ q ∈ s.shared.reader.heap prev, q.sent = false
  | .testSent _ prev true => ∀ q ∈ s.shared.reader.heap prev, q.sent = false
  | .lookupNext _ nextTag _ => ∀ p ∈ s.shared.reader.table (intKey nextTag),
      ∀ q ∈ s.shared.reader.heap p, q.valid = true
  | _ => True

instance [Fintype ι] (s : Threads ι Shared Pc) (a : ι × Choice) : Decidable (InTime s a) := by
  unfold InTime
  split <;> infer_instance

/-- The init blocks of two buffers. -/
def twoInits : List InitBlock := [⟨24, -1, 1, 0, -1, false⟩, ⟨24, -1, 1, 1, 0, false⟩]

theorem isChain_twoInits : IsChain twoInits where
  nodup := by decide
  tag_nonneg := by decide
  prevTag := by decide
  lastBlock := by decide

/-- Two threads, before the init blocks of two buffers arrive. -/
def twoReaders : Threads Bool Shared Pc := ⟨⟨.empty, twoInits⟩, fun _ => .reading⟩

theorem twoReaders_init : (handOff Bool twoInits).init twoReaders := ⟨rfl, fun _ => rfl⟩

/-- Both init blocks arrive, and each thread completes one buffer. -/
def twoCompleted : List (Bool × Choice) :=
  [(false, .arrive ⟨24, -1, 1, 0, -1, false⟩), (false, .arrive ⟨24, -1, 1, 1, 0, false⟩),
    (false, .complete ⟨0, 0⟩), (true, .complete ⟨1, 1⟩)]

/-- The thread of the second buffer finds the first one not sent; then the first is
    delivered, and only after that told about the second. -/
theorem lost_handOff : ∃ s, (handOff Bool twoInits).Reachable s ∧ ¬NoLoss twoInits s := by
  have hrun : (((handOff Bool twoInits).exec twoReaders (twoCompleted ++
      [(true, .go), (true, .go), (false, .go), (false, .go), (false, .go), (false, .go),
        (false, .go), (true, .go)])).map fun s =>
      decide ((∀ j, s.pc j = .reading) ∧
        (∃ b ∈ s.shared.reader.heap 1, b.tag = 1 ∧ b.completed = true) ∧
        deliveries s.shared.reader 0 = 1 ∧ deliveries s.shared.reader 1 = 0)) = some true := by
    decide
  obtain ⟨s, hs, hend⟩ := Option.map_eq_some_iff.1 hrun
  obtain ⟨hidle, ⟨b, hb, hcompleted⟩, hfirst, hsecond⟩ := of_decide_eq_true hend
  refine ⟨s, System.reachable_of_exec twoReaders_init hs, fun h => ?_⟩
  have hprev := (h hidle ⟨24, -1, 1, 1, 0, false⟩ (by decide) ⟨1, b, hb, hcompleted⟩ hsecond).2
  exact absurd (hfirst.symm.trans hprev) (by decide)

/-- The thread of the second buffer makes a dummy for the first one, which arrives,
    and is delivered with the second one; then the thread finds it sent. -/
theorem repeated_handOff : ∃ s, (handOff Bool twoInits).Reachable s ∧ ¬NoRepeat twoInits s := by
  have hrun : (((handOff Bool twoInits).exec twoReaders (
      [(true, .arrive ⟨24, -1, 1, 1, 0, false⟩), (true, .complete ⟨1, 0⟩), (true, .go), (true, .go),
        (false, .arrive ⟨24, -1, 1, 0, -1, false⟩), (false, .complete ⟨0, 1⟩)] ++
      List.replicate 11 (false, .go) ++ List.replicate 3 (true, .go))).map fun s =>
      decide (deliveries s.shared.reader 1 = 2)) = some true := by
    decide
  obtain ⟨s, hs, hend⟩ := Option.map_eq_some_iff.1 hrun
  refine ⟨s, System.reachable_of_exec twoReaders_init hs, fun h => ?_⟩
  have hone : deliveries s.shared.reader 1 ≤ 1 := h ⟨24, -1, 1, 1, 0, false⟩ (by decide)
  rw [of_decide_eq_true hend] at hone
  exact absurd hone (by decide)

/-- The init blocks of three buffers. -/
def threeInits : List InitBlock := twoInits ++ [⟨24, -1, 1, 2, 1, false⟩]

/-- The thread of the third buffer has a dummy in the place of the second one while the
    thread of the first one looks it up. -/
theorem lost_lookup : ∃ s, (handOff Bool threeInits).Reachable s ∧ ¬NoLoss threeInits s := by
  have hrun : (((handOff Bool threeInits).exec ⟨⟨.empty, threeInits⟩, fun _ => .reading⟩ (
      [(true, .arrive ⟨24, -1, 1, 2, 1, false⟩), (true, .complete ⟨2, 0⟩), (true, .go),
        (false, .arrive ⟨24, -1, 1, 0, -1, false⟩), (false, .arrive ⟨24, -1, 1, 1, 0, false⟩),
        (false, .complete ⟨1, 2⟩), (false, .go), (false, .go), (false, .go),
        (false, .complete ⟨0, 1⟩), (true, .go)] ++
      List.replicate 6 (false, .go) ++ List.replicate 3 (true, .go))).map fun s =>
      decide ((∀ j, s.pc j = .reading) ∧
        (∃ b ∈ s.shared.reader.heap 2, b.tag = 1 ∧ b.completed = true) ∧
        deliveries s.shared.reader 0 = 1 ∧ deliveries s.shared.reader 1 = 0)) = some true := by
    decide
  obtain ⟨s, hs, hend⟩ := Option.map_eq_some_iff.1 hrun
  obtain ⟨hidle, ⟨b, hb, hcompleted⟩, hfirst, hsecond⟩ := of_decide_eq_true hend
  refine ⟨s, System.reachable_of_exec ⟨rfl, fun _ => rfl⟩ hs, fun h => ?_⟩
  have hprev := (h hidle ⟨24, -1, 1, 1, 0, false⟩ (by decide) ⟨2, b, hb, hcompleted⟩ hsecond).2
  exact absurd (hfirst.symm.trans hprev) (by decide)

end Cse461.Multiplex.HandOff
