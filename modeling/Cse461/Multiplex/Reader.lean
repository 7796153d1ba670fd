import Cse461.Library.Exec
import Cse461.Library.Memory
import Cse461.Multiplex.Standards

/-!
# The multiplex reader

`multiplex_reader.c`, one `handle_block` call at a time: blocks of all
connections file the buffers they are about in a table shared by the reader
threads, and every buffer is passed to a handler when it is complete and the
buffer before it was passed on.

* A `BufferInfo` is known by its address; the table maps keys to addresses, as a
  finite map (the hash table itself is `Cse461.Table.HashTable`).
* The memory of a buffer is a list of cells, written by `memcpy`; a waiting
  queue is the list of the blocks in it, the next to be dequeued first.
* A call that would not return normally stops with a reason (`Stop`): it exits
  the program, follows a pointer to nothing, reads or writes out of bounds, or
  goes on for ever.
* The log records what a call does to the memory of buffers: the copies of data
  blocks and the calls of the handler, in order. Nothing reads it.

Locks are left out here, as calls are not interleaved. Steps of several threads are in
`Cse461.Multiplex.HandOff`.
-/

namespace Cse461.Multiplex

open Library

/-- The address of a `struct buffer_info`. -/
abbrev Ptr := ℕ

/-- `struct buffer_info`. -/
structure BufferInfo where
  /-- The cells `buffer` points to. -/
  buffer : List (Option UInt8) := []
  bufferSize : UInt32 := 0
  tag : Int32 := 0
  completed : Bool := false
  sent : Bool := false
  nWritten : UInt32 := 0
  prevTag : Int32 := 0
  lastBlock : Bool := false
  valid : Bool := false
  nextTag : Int32 := 0
  /-- The blocks waiting for the init block, `none` for `NULL`. -/
  waitingQueue : Option (List DataBlock) := none
  deriving DecidableEq

/-- The cells `buffer` points to, as many as `buffer_size` says. -/
def BufferInfo.bytes (b : BufferInfo) : List (Option UInt8) := b.buffer.take b.bufferSize.toNat

/-- What a `handle_block` call does to the memory of a buffer. -/
inductive Event
  /-- The payload of `d` is copied to the buffer at `p`, which was `before`. -/
  | copied (p : Ptr) (before : BufferInfo) (d : DataBlock)
  /-- `arg->handler` is called with the buffer at `p`, which was `before`. -/
  | handled (p : Ptr) (before : BufferInfo)
  deriving DecidableEq

/-- Why a call does not return. -/
inductive Stop
  /-- `exit(1)` on a second init block for a valid buffer. -/
  | duplicate
  /-- A pointer that is freed or was never set is followed. -/
  | dangling
  /-- A copy exceeds the buffer. -/
  | outOfBounds
  /-- A read exceeds the block. -/
  | truncated
  /-- A recursion or a loop has no end. -/
  | unbounded
  deriving DecidableEq

/-- The state the reader works on. -/
structure Reader where
  /-- The allocated `struct buffer_info`s. -/
  heap : Ptr → Option BufferInfo
  /-- The next address to allocate. -/
  next : Ptr
  /-- The table, by key. -/
  table : UInt64 → Option Ptr
  log : List Event

/-- The reader before the first block. -/
def Reader.empty : Reader where
  heap _ := none
  next := 0
  table _ := none
  log := []

/-- A call, on the state of the reader. -/
abbrev ReaderM := EStateM Stop Reader

/-! ## Memory and table -/

namespace Reader

variable (r : Reader)

/-- Overwrite the buffer at `p`. -/
def set (p : Ptr) (b : BufferInfo) : Reader :=
  { r with heap := Function.update r.heap p (some b) }

/-- Allocate a buffer, at `r.next`. -/
def alloc (b : BufferInfo) : Reader :=
  { r with heap := Function.update r.heap r.next (some b), next := r.next + 1 }

/-- Free the buffer at `p`. -/
def free (p : Ptr) : Reader := { r with heap := Function.update r.heap p none }

/-- File `p` under `key`. -/
def insert (key : UInt64) (p : Ptr) : Reader :=
  { r with table := Function.update r.table key (some p) }

/-- Remove the entry of `key`. -/
def remove (key : UInt64) : Reader := { r with table := Function.update r.table key none }

/-- Add an event to the log. -/
def record (e : Event) : Reader := { r with log := r.log ++ [e] }

end Reader

/-- Read the buffer at `p`. -/
def load (p : Ptr) : ReaderM BufferInfo := do
  match (← get).heap p with
  | some b => return b
  | none => throw .dangling

/-- Update the buffer at `p`. -/
def update (p : Ptr) (f : BufferInfo → BufferInfo) : ReaderM Unit := do
  let b ← load p
  modify fun r => r.set p (f b)

/-- `calloc` a buffer and fill in its fields. -/
def calloc (b : BufferInfo) : ReaderM Ptr := do
  let r ← get
  set (r.alloc b)
  return r.next

/-- `free` the buffer at `p`. -/
def free (p : Ptr) : ReaderM Unit := do
  let _ ← load p
  modify fun r => r.free p

/-- `LookupHashTable`: the value of a key, `none` where it returns `0`. -/
def lookupHashTable (key : UInt64) : ReaderM (Option Ptr) :=
  return (← get).table key

/-- `InsertHashTable`: the value it replaces where it returns `2`, `none` where
    it returns `1`. -/
def insertHashTable (key : UInt64) (p : Ptr) : ReaderM (Option Ptr) := do
  let r ← get
  set (r.insert key p)
  return r.table key

/-- `RemoveFromHashTable`. -/
def removeFromHashTable (key : UInt64) : ReaderM Unit :=
  modify fun r => r.remove key

/-- `arg->handler(buffer->buffer, buffer->buffer_size, arg->handler_arg)`. -/
def callHandler (p : Ptr) : ReaderM Unit := do
  let b ← load p
  modify fun r => r.record (.handled p b)

/-! ## Finished buffers -/

/-- `insert_dummy_buffer`: the address `*buffer` ends up with, and whether a
    dummy was inserted. -/
def insertDummyBuffer (tag nextTag : UInt32) (waitingQueue : Option (List DataBlock)) :
    ReaderM (Bool × Ptr) := do
  let p ← calloc { tag := tag.toInt32, nextTag := nextTag.toInt32, waitingQueue }
  match ← insertHashTable (wordKey tag) p with
  | some q =>
    -- Someone beat us to it: put theirs back.
    let _ ← insertHashTable (wordKey tag) q
    free p
    return (false, q)
  | none => return (true, p)

/-- The condition `!buffer->last_block && LookupHashTable(...) == 1`, with the
    value found. -/
def lookupNext (b : BufferInfo) : ReaderM (Option Ptr) :=
  if b.lastBlock then pure none else lookupHashTable (intKey b.nextTag)

/-- `buffer->sent = true`. -/
def markSent (p : Ptr) : ReaderM Unit := update p fun b => { b with sent := true }

/-- `handle_finished_buffer_next`, with a bound on the depth of its recursion. -/
def handleFinishedBufferNext : ℕ → Ptr → ReaderM Unit
  | 0, _ => throw .unbounded
  | depth + 1, p => do
    callHandler p
    match ← lookupNext (← load p) with
    | some q =>
      if (← load q).completed then
        handleFinishedBufferNext depth q
        removeFromHashTable (intKey (← load p).tag)
        markSent p
      else
        markSent p
    | none => markSent p

/-- `handle_finished_buffer_next`: nested more often than there are buffers, it
    comes back to one of them, and so does not end. -/
def sendBuffer (p : Ptr) : ReaderM Unit := do
  let r ← get
  handleFinishedBufferNext (r.next + 1) p

/-- The buffer `done` depends on: the one in the table, or else a dummy that is
    made for it, which `done` is the next of. -/
def lookupPrev (done : BufferInfo) : ReaderM Ptr := do
  match ← lookupHashTable (intKey done.prevTag) with
  | some q => return q
  | none => return (← insertDummyBuffer done.prevTag.toUInt32 done.tag.toUInt32 none).2

/-- `handle_finished_buffer_prev`. -/
def handleFinishedBufferPrev (p : Ptr) : ReaderM Unit := do
  let done ← load p
  if done.prevTag ≠ noTag then
    let prev ← lookupPrev done
    if (← load prev).sent then
      -- The dependency is no longer useful.
      removeFromHashTable (intKey done.prevTag)
      free prev
      sendBuffer p
    else
      -- Blocked: the one before will send this one.
      update prev fun b => { b with nextTag := done.tag }
  else
    sendBuffer p

/-- The call `handle_finished_buffer_prev(ht, buffer_kv, arg)`, where `buffer_kv` is
    `none` if it was not set. -/
def handleFinished : Option Ptr → ReaderM Unit
  | some p => handleFinishedBufferPrev p
  | none => throw .dangling

/-! ## Blocks -/

/-- `data_size`: the size of the block less that of its header, modulo `2 ^ 32`. -/
def DataBlock.dataSize (d : DataBlock) : UInt32 := d.blockSize - UInt32.ofNat sizeofDataBlock

/-- The end of the data branch of `handle_block`: copy the payload to the buffer
    at `p`, and look whether that completes it. `kv` is the value of `buffer_kv`. -/
def copyData (p : Ptr) (kv : Option Ptr) (d : DataBlock) : ReaderM Unit := do
  let b ← load p
  if d.payload.length < d.dataSize.toNat then
    throw .truncated
  else if b.buffer.length < d.seqNumber.toNat + d.dataSize.toNat then
    throw .outOfBounds
  else
    modify fun r => r.record (.copied p b d)
    update p fun b =>
      { b with buffer := write b.buffer d.seqNumber.toNat (d.payload.take d.dataSize.toNat) }
    update p fun b => { b with nWritten := b.nWritten + d.dataSize }
    let b ← load p
    if b.nWritten = b.bufferSize then
      update p fun b => { b with completed := true }
      handleFinished kv

/-- The data branch of `handle_block`. -/
def handleDataBlock (d : DataBlock) : ReaderM Unit := do
  match ← lookupHashTable (intKey d.tag) with
  | none =>
    -- This buffer hasn't been initialized yet.
    let (inserted, p) ← insertDummyBuffer d.tag.toUInt32 noTag.toUInt32 (some [d])
    if inserted then
      return
    else
      let b ← load p
      if b.valid then
        copyData p none d
      else
        update p fun b => { b with waitingQueue := some (b.waitingQueue.getD [] ++ [d]) }
  | some p =>
    let b ← load p
    if b.valid then
      copyData p (some p) d
    else
      update p fun b => { b with waitingQueue := some (b.waitingQueue.getD [] ++ [d]) }

/-- The loop that handles the blocks of the waiting queue of the buffer at `p`,
    with a bound on its rounds. A block in the queue took the data branch when
    it came in, and takes it again. -/
def drainQueue : ℕ → Ptr → ReaderM Unit
  | 0, _ => throw .unbounded
  | rounds + 1, p => do
    let b ← load p
    match b.waitingQueue with
    | none => throw .dangling
    | some [] => pure ()
    | some (d :: queue) =>
      update p fun b => { b with waitingQueue := some queue }
      handleDataBlock d
      drainQueue rounds p

/-- Handle the blocks waiting for the buffer at `p`, and free its queue. -/
def handleWaiting (p : Ptr) : ReaderM Unit := do
  let b ← load p
  match b.waitingQueue with
  | none => pure ()
  | some queue =>
    drainQueue (queue.length + 1) p
    update p fun b => { b with waitingQueue := none }

/-- The fields of a buffer that its init block sets. -/
def BufferInfo.init (b : BufferInfo) (i : InitBlock) : BufferInfo :=
  { b with
    buffer := fresh i.bufferSize.toNat
    tag := i.tag
    prevTag := i.prevTag
    lastBlock := i.lastBlock
    bufferSize := i.bufferSize
    valid := true }

/-- The init branch of `handle_block`. -/
def handleInitBlock (i : InitBlock) : ReaderM Unit := do
  match ← lookupHashTable (intKey i.tag) with
  | none =>
    let p ← calloc (BufferInfo.init { nextTag := noTag } i)
    match ← insertHashTable (intKey i.tag) p with
    | some q =>
      -- There was already a buffer by that name: take over its `next_tag` and
      -- its waiting blocks.
      let repeated ← load q
      update p fun b => { b with nextTag := repeated.nextTag }
      handleWaiting q
      free q
    | none => pure ()
  | some p =>
    let b ← load p
    if b.valid then
      throw .duplicate
    else
      update p fun b => b.init i
      handleWaiting p

/-- `handle_block`. -/
def handleBlock (o : ByteOrder) (block : List UInt8) : ReaderM Unit :=
  match parseBlock o block with
  | some (.init i) => handleInitBlock i
  | some (.data d) => handleDataBlock d
  | none => throw .truncated

/-- The blocks in the order they arrive, one `handle_block` call after the other. -/
def handleBlocks (o : ByteOrder) (blocks : List (List UInt8)) : ReaderM Unit :=
  blocks.forM (handleBlock o)

/-- The buffers passed to the handler, in order. -/
def Reader.handled (r : Reader) : List (List (Option UInt8)) :=
  r.log.filterMap fun
    | .handled _ b => some b.bytes
    | .copied .. => none

end Cse461.Multiplex
