import Cse461.Library.Program
import Cse461.Multiplex.Reader

/-!
# Reader threads

`multiplex_reader.c` once more, now as the program of one of several reader threads
that share the table: an operation (`Op`) is a call on the table, a read or a write
of one field of a buffer, a change of a waiting queue, a `memcpy`, or a call of the
handler. Between two operations, the other threads do theirs.

* The fields that are read stand where the source reads them, however often.
* `n_written` is changed and read under the lock of the buffer, in one operation.
* Loops and recursions have a bound, `fuel`: a run of the source is a run of the
  program with enough of it. A thread that stops takes no further step.

Done alone, the operations are those of `Cse461.Multiplex.Reader` (`Op.exec`).
-/

namespace Cse461.Multiplex

open Library

/-- What a reader thread does in one step. -/
inductive Op : Type → Type
  /-- `LookupHashTable`. -/
  | lookup (key : UInt64) : Op (Option Ptr)
  /-- `InsertHashTable`. -/
  | insert (key : UInt64) (p : Ptr) : Op (Option Ptr)
  /-- `RemoveFromHashTable`. -/
  | remove (key : UInt64) : Op Unit
  /-- `calloc` of a buffer, whose fields the thread fills in. -/
  | calloc (b : BufferInfo) : Op Ptr
  /-- `free`. -/
  | free (p : Ptr) : Op Unit
  /-- A read of a field. -/
  | load (p : Ptr) : Op BufferInfo
  /-- A write to a field. -/
  | store (p : Ptr) (f : BufferInfo → BufferInfo) : Op Unit
  /-- `enqueue`. -/
  | enqueue (p : Ptr) (d : DataBlock) : Op Unit
  /-- `dequeue`. -/
  | dequeue (p : Ptr) : Op DataBlock
  /-- `memcpy` of the payload. -/
  | copy (p : Ptr) (d : DataBlock) : Op Unit
  /-- `n_written += data_size`: the value it has then. -/
  | addWritten (p : Ptr) (dataSize : UInt32) : Op UInt32
  /-- `arg->handler(..)`. -/
  | handler (p : Ptr) : Op Unit
  /-- The thread goes no further. -/
  | stop (e : Stop) : Op Empty

/-- The program of a reader thread, or a part of it. -/
abbrev Thread := Program Op

/-- The operation, on the state of the reader. -/
def Op.exec {α : Type} : Op α → ReaderM α
  | lookup key => lookupHashTable key
  | insert key p => insertHashTable key p
  | remove key => removeFromHashTable key
  | calloc b => Multiplex.calloc b
  | free p => Multiplex.free p
  | load p => Multiplex.load p
  | store p f => update p f
  | enqueue p d => do
    match (← Multiplex.load p).waitingQueue with
    | some queue => update p fun b => { b with waitingQueue := some (queue ++ [d]) }
    | none => throw .dangling
  | dequeue p => do
    match (← Multiplex.load p).waitingQueue with
    | some (d :: queue) =>
      update p fun b => { b with waitingQueue := some queue }
      return d
    | _ => throw .dangling
  | copy p d => do
    let b ← Multiplex.load p
    if d.payload.length < d.dataSize.toNat then
      throw .truncated
    else if b.buffer.length < d.seqNumber.toNat + d.dataSize.toNat then
      throw .outOfBounds
    else
      modify fun r => r.record (.copied p b d)
      update p fun b =>
        { b with buffer := write b.buffer d.seqNumber.toNat (d.payload.take d.dataSize.toNat) }
  | addWritten p dataSize => do
    update p fun b => { b with nWritten := b.nWritten + dataSize }
    return (← Multiplex.load p).nWritten
  | handler p => callHandler p
  | stop e => throw e

namespace Thread

open Program (ofOp)

/-- The thread goes no further. -/
def stop {α : Type} (e : Stop) : Thread α := do
  let x ← ofOp (.stop e)
  nomatch x

/-- Read a field. -/
def load (p : Ptr) : Thread BufferInfo := ofOp (.load p)

/-- Write to a field. -/
def store (p : Ptr) (f : BufferInfo → BufferInfo) : Thread Unit := ofOp (.store p f)

/-! ## Finished buffers -/

/-- `insert_dummy_buffer`. -/
def insertDummyBuffer (tag nextTag : UInt32) (waitingQueue : Option (List DataBlock)) :
    Thread (Bool × Ptr) := do
  let p ← ofOp (.calloc { tag := tag.toInt32, nextTag := nextTag.toInt32, waitingQueue })
  match ← ofOp (.insert (wordKey tag) p) with
  | some q =>
    let _ ← ofOp (.insert (wordKey tag) q)
    ofOp (.free p)
    return (false, q)
  | none => return (true, p)

/-- The condition `!buffer->last_block && LookupHashTable(...) == 1`, with the
    value found. -/
def lookupNext (p : Ptr) : Thread (Option Ptr) := do
  if (← load p).lastBlock then
    return none
  else
    ofOp (.lookup (intKey (← load p).nextTag))

/-- `buffer->sent = true`. -/
def markSent (p : Ptr) : Thread Unit := store p fun b => { b with sent := true }

/-- `handle_finished_buffer_next`. -/
def handleFinishedBufferNext : ℕ → Ptr → Thread Unit
  | 0, _ => stop .unbounded
  | fuel + 1, p => do
    ofOp (.handler p)
    match ← lookupNext p with
    | some q =>
      if (← load q).completed then
        handleFinishedBufferNext fuel q
        ofOp (.remove (intKey (← load p).tag))
        markSent p
      else
        markSent p
    | none => markSent p

/-- The buffer `done` depends on. -/
def lookupPrev (done : Ptr) : Thread Ptr := do
  match ← ofOp (.lookup (intKey (← load done).prevTag)) with
  | some q => return q
  | none =>
    let prevTag := (← load done).prevTag
    return (← insertDummyBuffer prevTag.toUInt32 (← load done).tag.toUInt32 none).2

/-- `handle_finished_buffer_prev`. -/
def handleFinishedBufferPrev (fuel : ℕ) (done : Ptr) : Thread Unit := do
  if (← load done).prevTag ≠ noTag then
    let prev ← lookupPrev done
    if (← load prev).sent then
      ofOp (.remove (intKey (← load done).prevTag))
      ofOp (.free prev)
      handleFinishedBufferNext fuel done
    else
      let tag := (← load done).tag
      store prev fun b => { b with nextTag := tag }
  else
    handleFinishedBufferNext fuel done

/-! ## Blocks -/

/-- The end of the data branch of `handle_block`, where `kv` is the value of
    `buffer_kv`, `none` if it was not set. -/
def copyData (fuel : ℕ) (p : Ptr) (kv : Option Ptr) (d : DataBlock) : Thread Unit := do
  ofOp (.copy p d)
  let nWritten ← ofOp (.addWritten p d.dataSize)
  if nWritten = (← load p).bufferSize then
    store p fun b => { b with completed := true }
    match kv with
    | some kv => handleFinishedBufferPrev fuel kv
    | none => stop .dangling

/-- The data branch of `handle_block`. -/
def handleDataBlock (fuel : ℕ) (d : DataBlock) : Thread Unit := do
  match ← ofOp (.lookup (intKey d.tag)) with
  | none =>
    -- This buffer hasn't been initialized yet.
    let (inserted, p) ← insertDummyBuffer d.tag.toUInt32 noTag.toUInt32 (some [d])
    if inserted then
      return
    else if (← load p).valid then
      copyData fuel p none d
    else if (← load p).waitingQueue = none then
      store p fun b => { b with waitingQueue := some [d] }
    else
      ofOp (.enqueue p d)
  | some p =>
    if (← load p).valid then
      copyData fuel p (some p) d
    else
      if (← load p).waitingQueue = none then
        store p fun b => { b with waitingQueue := some [] }
      ofOp (.enqueue p d)

/-- The loop that handles the blocks of the waiting queue of the buffer at `p`. -/
def drainQueue : ℕ → Ptr → Thread Unit
  | 0, _ => stop .unbounded
  | fuel + 1, p => do
    match (← load p).waitingQueue with
    | none => stop .dangling
    | some [] => return
    | some (_ :: _) =>
      let d ← ofOp (.dequeue p)
      handleDataBlock fuel d
      drainQueue fuel p

/-- Handle the blocks waiting for the buffer at `p`, and free its queue. -/
def handleWaiting (fuel : ℕ) (p : Ptr) : Thread Unit := do
  if (← load p).waitingQueue ≠ none then
    drainQueue fuel p
    store p fun b => { b with waitingQueue := none }

/-- The fields that an init block sets, one after the other. -/
def fillIn (p : Ptr) (i : InitBlock) : Thread Unit := do
  store p fun b => { b with buffer := fresh i.bufferSize.toNat }
  store p fun b => { b with tag := i.tag }
  store p fun b => { b with prevTag := i.prevTag }
  store p fun b => { b with lastBlock := i.lastBlock }
  store p fun b => { b with bufferSize := i.bufferSize }
  store p fun b => { b with valid := true }

/-- The init branch of `handle_block`. -/
def handleInitBlock (fuel : ℕ) (i : InitBlock) : Thread Unit := do
  match ← ofOp (.lookup (intKey i.tag)) with
  | none =>
    let p ← ofOp (.calloc { nextTag := noTag })
    fillIn p i
    match ← ofOp (.insert (intKey (← load p).tag) p) with
    | some q =>
      -- There was already a buffer by that name: take over its `next_tag` and
      -- its waiting blocks.
      let nextTag := (← load q).nextTag
      store p fun b => { b with nextTag }
      handleWaiting fuel q
      ofOp (.free q)
    | none => return
  | some p =>
    if (← load p).valid then
      stop .duplicate
    else
      fillIn p i
      handleWaiting fuel p

/-- `handle_block`. -/
def handleBlock (o : ByteOrder) (fuel : ℕ) (block : List UInt8) : Thread Unit :=
  match parseBlock o block with
  | some (.init i) => handleInitBlock fuel i
  | some (.data d) => handleDataBlock fuel d
  | none => stop .truncated

/-- `listen_for_block`, where `blocks` arrive on the connection. -/
def listenForBlock (o : ByteOrder) (fuel : ℕ) (blocks : List (List UInt8)) : Thread Unit :=
  blocks.forM (handleBlock o fuel)

end Thread

end Cse461.Multiplex
