import Cse461.Library.Transition
import Cse461.Multiplex.Steps
import Cse461.Multiplex.Thread
import Cse461.Multiplex.Writer

/-!
# Accepting connections

`serve_client` of `server.c`: for each connection, a queue is allocated and a
reader thread is started. `bounce_buffer` sends over all the queues, so a reader
must not call it before the last of them is allocated, though the readers run
while connections are still being accepted.

That it does not is due to the client: `multiplex_write_queues` puts the init block
of every buffer on the last queue (`putOn_init`), and a reader that only gets data
blocks, while no buffer has got its init block, passes nothing to the handler
(`ensures_handleDataBlock`). So the last reader thread was started, after the last
queue was allocated (`allocated_of_bouncing`).
-/

namespace Cse461.Multiplex

open Library

/-! ## The server -/

/-- Where the loop of `serve_client` is, in its round `i`. -/
inductive Accepting
  /-- `accept`, or the end of the loop. -/
  | accept (i : ℕ)
  /-- `queues[i] = allocate_queue()`. -/
  | allocate (i : ℕ)
  /-- `pthread_create(.., multiplex_reader_init, ..)`. -/
  | create (i : ℕ)

/-- What a client thread and its reader threads share, and where they are. -/
structure Server where
  accepting : Accepting
  /-- The queues, `none` where there is none yet. -/
  queues : ℕ → Option (List Block)
  reader : Reader
  /-- What the reader threads have still to do, `none` of one not yet created. -/
  threads : ℕ → Option (Thread Unit)

/-- Whose step it is. -/
inductive Turn
  | serveClient
  | reader (i : ℕ)

section

variable (o : ByteOrder) (fuel : ℕ) (numConn : ℕ) (connections : ℕ → List (List UInt8))

/-- A step of the loop of `serve_client`. The `i`-th connection that it accepts
    carries the blocks `connections i`. -/
def Server.accept (s : Server) : Option Server :=
  match s.accepting with
  | .accept i => if i < numConn then some { s with accepting := .allocate i } else none
  | .allocate i =>
    some { s with accepting := .create i, queues := Function.update s.queues i (some []) }
  | .create i =>
    some { s with
      accepting := .accept (i + 1)
      threads := Function.update s.threads i (some (Thread.listenForBlock o fuel (connections i))) }

/-- A step of the `i`-th reader thread. -/
def Server.read (s : Server) (i : ℕ) : Option Server :=
  match s.threads i with
  | some (.op o next) =>
    match o.exec s.reader with
    | .ok b r => some { s with reader := r, threads := Function.update s.threads i (some (next b)) }
    | .error .. => none
  | _ => none

/-- A client thread, from the start of its loop. -/
def serveClient : System Server Turn where
  init s := s = ⟨.accept 0, fun _ => none, .empty, fun _ => none⟩
  step s
    | .serveClient => s.accept o fuel numConn connections
    | .reader i => s.read i

end

/-- The `i`-th reader is about to call `bounce_buffer`. -/
def Server.Bouncing (s : Server) (i : ℕ) : Prop :=
  ∃ p next, s.threads i = some (.op (.handler p) next)

/-- A call of `multiplex_write_queues` over `n` queues puts the block on the `k`-th of
    them, whether it returns or not. -/
def PutOn (n k : ℕ) (x : Block) : Prop :=
  ∃ (R : Rounding) (buffer : List UInt8) (bufLen nextTag : Int32), ∃ queue,
    (finalState (multiplexWriteQueues R n buffer bufLen nextTag) (.empty n)).queues[k]? =
      some queue ∧ x ∈ queue

/-! ## The blocks on the connections -/

/-- The block can be told from one of the other kind, and is on the last queue if it
    is an init block. -/
def Block.Placed (n k : ℕ) : Block → Prop
  | .init i => i.flag = -1 ∧ k = n - 1
  | .data d => d.Plain

/-- All blocks are on a queue where they may be. -/
def Writer.Placed (n : ℕ) (w : Writer) : Prop :=
  ∀ (k : ℕ) (queue : List Block), w.queues[k]? = some queue → ∀ x ∈ queue, x.Placed n k

section

variable {n k : ℕ} {w : Writer} {x : Block}

theorem placed_empty : (Writer.empty n).Placed n := by
  intro k queue hqueue x hx
  rw [Writer.empty, List.getElem?_replicate] at hqueue
  split at hqueue
  · obtain rfl := Option.some.inj hqueue
    exact absurd hx List.not_mem_nil
  · exact absurd hqueue (by simp)

theorem Writer.Placed.push (hw : w.Placed n) (hx : x.Placed n k) : (w.push k x).Placed n := by
  intro k' queue hqueue y hy
  rw [Writer.push, List.getElem?_modify] at hqueue
  obtain ⟨queue', hqueue', rfl⟩ := Option.map_eq_some_iff.1 hqueue
  by_cases hk : k = k'
  · subst hk
    rw [if_pos rfl, List.mem_append, List.mem_singleton] at hy
    rcases hy with hy | rfl
    · exact hw _ _ hqueue' y hy
    · exact hx
  · rw [if_neg hk] at hy
    exact hw _ _ hqueue' y hy

theorem plain_dataBlock {buffer : List UInt8} {bufLen tag : Int32} {unif i : ℕ}
    (hi : (i : ℤ) < bufLen.toInt) : (dataBlock buffer bufLen tag unif i).Plain := by
  have hlen := bufLen.toInt_lt
  refine DataBlock.plain_of_lt ?_
  rw [dataBlock, UInt32.toNat_ofNat', Nat.mod_eq_of_lt (by omega)]
  omega

theorem wp_writeDataBlocks_placed {buffer : List UInt8} {bufLen tag : Int32} {unif rounds i : ℕ}
    (hw : w.Placed n) : wp (writeDataBlocks n buffer bufLen tag unif rounds i)
      (fun _ => Writer.Placed n) (fun _ => Writer.Placed n) w := by
  induction rounds generalizing w i with
  | zero => exact hw
  | succ rounds ih =>
    rw [writeDataBlocks, wp_ite]
    refine ⟨fun hi => ?_, fun _ => hw⟩
    have hpush : (w.push (i % n) (.data (dataBlock buffer bufLen tag unif i))).Placed n :=
      hw.push (plain_dataBlock hi)
    rw [wp_bind, writeBlockToQueue, wp_modify, wp_ite]
    exact ⟨fun _ => ih hpush, fun _ => hpush⟩

/-- The init block of every buffer is on the last queue. -/
theorem PutOn.placed (h : PutOn n k x) : x.Placed n k := by
  obtain ⟨R, buffer, bufLen, nextTag, queue, hqueue, hx⟩ := h
  refine finalState_of_wp (I := Writer.Placed n) ?_ k queue hqueue x hx
  rw [multiplexWriteQueues, wp_ite]
  refine ⟨fun _ => placed_empty, fun _ => ?_⟩
  have hpush := placed_empty.push (n := n) (x := .init (initBlock bufLen (nextTag + 1) nextTag))
    ⟨rfl, rfl⟩
  rw [wp_bind, writeBlockToQueue, wp_modify]
  cases unifSize R n bufLen with
  | none => exact hpush
  | some unif =>
    dsimp only
    rw [wp_bind]
    exact wp_mono (wp_writeDataBlocks_placed hpush) (fun _ _ h => h) fun _ _ h => h

/-- What is not on the last queue is read as a data block. -/
theorem PutOn.parseBlock_eq_data {o : ByteOrder} (h : PutOn n k x) (hk : k ≠ n - 1)
    (pad : InitBlock → List UInt8) : ∃ d, parseBlock o (x.bytes o pad) = some (.data d) := by
  have hplaced := h.placed
  cases x with
  | init i => exact absurd hplaced.2 hk
  | data d => exact ⟨d, parseBlock_dataBytes hplaced⟩

end

/-! ## Before the first init block -/

/-- The init block of the buffer has not arrived, and it is not completed. -/
def BufferInfo.Blank (b : BufferInfo) : Prop := b.valid = false ∧ b.completed = false

/-- Whatever is read is blank. -/
def ReadsBlank : (α : Type) → Op α → α → Prop
  | _, .load _, b => b.Blank
  | _, _, _ => True

/-- The operation leaves all buffers blank, and passes none to the handler. -/
def LeavesBlank : (α : Type) → Op α → Prop
  | _, .calloc b => b.Blank
  | _, .store _ f => ∀ b : BufferInfo, b.Blank → (f b).Blank
  | _, .handler _ => False
  | _, _ => True

/-- The program leaves all buffers blank, as long as they are. -/
abbrev Quiet {α : Type} (x : Thread α) (Q : α → Prop) : Prop := x.Ensures ReadsBlank LeavesBlank Q

namespace Thread

open Program (ofOp)

variable {fuel : ℕ}

theorem quiet_load {α : Type} {p : Ptr} {f : BufferInfo → Thread α} {Q : α → Prop}
    (h : ∀ b : BufferInfo, b.Blank → Quiet (f b) Q) : Quiet (load p >>= f) Q := by
  exact Program.ensures_ofOp_bind.2 ⟨trivial, h⟩

theorem quiet_insertDummyBuffer (tag nextTag : UInt32) (queue : Option (List DataBlock)) :
    Quiet (insertDummyBuffer tag nextTag queue) fun _ => True := by
  rw [insertDummyBuffer, Quiet, Program.ensures_ofOp_bind]
  refine ⟨⟨rfl, rfl⟩, fun p _ => ?_⟩
  rw [Program.ensures_ofOp_bind]
  refine ⟨trivial, fun q _ => ?_⟩
  cases q with
  | none => exact trivial
  | some q => exact ⟨trivial, fun _ _ => ⟨trivial, fun _ _ => trivial⟩⟩

/-- A data block is put into a queue, as no buffer has got its init block. -/
theorem quiet_handleDataBlock (d : DataBlock) : Quiet (handleDataBlock fuel d) fun _ => True := by
  rw [handleDataBlock, Quiet, Program.ensures_ofOp_bind]
  refine ⟨trivial, fun found _ => ?_⟩
  cases found with
  | none =>
    dsimp only
    rw [Program.ensures_bind]
    refine (quiet_insertDummyBuffer _ _ _).mono fun x _ => ?_
    obtain ⟨inserted, p⟩ := x
    cases inserted with
    | true => exact trivial
    | false =>
      refine quiet_load fun b hb => ?_
      rw [if_neg (by simp [hb.1])]
      refine quiet_load fun b' _ => ?_
      by_cases hqueue : b'.waitingQueue = none
      · rw [if_pos hqueue]
        exact ⟨fun _ hb => hb, fun _ _ => trivial⟩
      · rw [if_neg hqueue]
        exact ⟨trivial, fun _ _ => trivial⟩
  | some p =>
    refine quiet_load fun b hb => ?_
    rw [if_neg (by simp [hb.1])]
    refine quiet_load fun b' _ => ?_
    by_cases hqueue : b'.waitingQueue = none
    · rw [if_pos hqueue]
      exact ⟨fun _ hb => hb, fun _ _ => ⟨trivial, fun _ _ => trivial⟩⟩
    · rw [if_neg hqueue]
      exact ⟨trivial, fun _ _ => trivial⟩

/-- A thread that only gets data blocks. -/
theorem quiet_listenForBlock {o : ByteOrder} {blocks : List (List UInt8)}
    (h : ∀ block ∈ blocks, ∃ d, parseBlock o block = some (.data d)) :
    Quiet (listenForBlock o fuel blocks) fun _ => True := by
  refine Program.ensures_forM fun block hblock => ?_
  obtain ⟨d, hd⟩ := h block hblock
  rw [handleBlock, hd]
  exact quiet_handleDataBlock d

end Thread

/-- All buffers are blank. -/
def Reader.Blank (r : Reader) : Prop := ∀ p b, r.heap p = some b → b.Blank

theorem Reader.Blank.set {r : Reader} {p : Ptr} {b : BufferInfo} (hr : r.Blank) (hb : b.Blank) :
    (r.set p b).Blank := by
  intro q c hc
  by_cases hq : q = p
  · subst hq
    obtain rfl : b = c := by simpa [Reader.set] using hc
    exact hb
  · exact hr q c (by simpa [Reader.set, hq] using hc)

/-- A quiet operation, as long as the buffers are blank. -/
theorem Op.wp_exec {α : Type} {op : Op α} {r : Reader} (h : LeavesBlank α op) (hr : r.Blank) :
    wp op.exec (fun a r' => ReadsBlank α op a ∧ r'.Blank) (fun _ _ => True) r := by
  have hupdate : ∀ {r : Reader} {p f} {Q : PUnit → Reader → Prop}, r.Blank →
      (∀ b : BufferInfo, b.Blank → (f b).Blank) → (∀ r' : Reader, r'.Blank → Q ⟨⟩ r') →
      wp (update p f) Q (fun _ _ => True) r := by
    intro r p f Q hr hf hQ
    rw [update, wp_bind, wp_load_iff]
    exact ⟨fun b hb => hQ _ (hr.set (hf b (hr p b hb))), fun _ => trivial⟩
  cases op with
  | lookup key => exact ⟨trivial, hr⟩
  | insert key p => exact ⟨trivial, hr⟩
  | remove key => exact ⟨trivial, hr⟩
  | calloc b =>
    refine ⟨trivial, fun q c hc => ?_⟩
    by_cases hq : q = r.next
    · subst hq
      obtain rfl : b = c := by simpa [Reader.alloc] using hc
      exact h
    · exact hr q c (by simpa [Reader.alloc, hq] using hc)
  | free p =>
    simp only [exec, Multiplex.free, wp_bind, wp_load_iff, wp_modify]
    refine ⟨fun b _ => ⟨trivial, fun q c hc => ?_⟩, fun _ => trivial⟩
    by_cases hq : q = p
    · simp [Reader.free, hq] at hc
    · exact hr q c (by simpa [Reader.free, hq] using hc)
  | load p =>
    simp only [exec, wp_load_iff]
    exact ⟨fun b hb => ⟨hr p b hb, hr⟩, fun _ => trivial⟩
  | store p f => exact hupdate hr h fun _ hr' => ⟨trivial, hr'⟩
  | enqueue p d =>
    simp only [exec, wp_bind, wp_load_iff]
    refine ⟨fun b hb => ?_, fun _ => trivial⟩
    cases b.waitingQueue with
    | none => exact trivial
    | some queue => exact hupdate hr (fun _ hb => hb) fun _ hr' => ⟨trivial, hr'⟩
  | dequeue p =>
    simp only [exec, wp_bind, wp_load_iff]
    refine ⟨fun b hb => ?_, fun _ => trivial⟩
    rcases b.waitingQueue with _ | _ | ⟨d, queue⟩
    · exact trivial
    · exact trivial
    · simp only [wp_bind]
      exact hupdate hr (fun _ hb => hb) fun _ hr' => ⟨trivial, hr'⟩
  | copy p d =>
    simp only [exec, wp_bind, wp_load_iff, wp_ite, wp_modify]
    refine ⟨fun b hb => ⟨fun _ => trivial, fun _ => ⟨fun _ => trivial, fun _ => ?_⟩⟩, fun _ => trivial⟩
    exact hupdate (r := r.record _) hr (fun _ hb => hb) fun _ hr' => ⟨trivial, hr'⟩
  | addWritten p n =>
    simp only [exec, wp_bind]
    refine hupdate hr (fun _ hb => hb) fun r' hr' => ?_
    simp only [wp_load_iff]
    exact ⟨fun _ _ => ⟨trivial, hr'⟩, fun _ => trivial⟩
  | handler p => exact h.elim
  | stop e => exact trivial

/-! ## The invariant -/

/-- The queues allocated before the place where the loop is, which is in bounds. -/
def Accepting.Reached (n : ℕ) (queues : ℕ → Option (List Block)) : Accepting → Prop
  | .accept i => i ≤ n ∧ ∀ k < i, queues k ≠ none
  | .allocate i => i < n ∧ ∀ k < i, queues k ≠ none
  | .create i => i < n ∧ ∀ k ≤ i, queues k ≠ none

/-- All queues are allocated, or else all buffers are blank, and the readers leave
    them so. -/
structure Server.Inv (n : ℕ) (s : Server) : Prop where
  reached : s.accepting.Reached n s.queues
  quiet : (∀ k < n, s.queues k ≠ none) ∨
    s.reader.Blank ∧ ∀ i x, s.threads i = some x → Quiet x fun _ => True

section

variable {o : ByteOrder} {fuel n : ℕ} {connections : ℕ → List (List UInt8)} {s s' : Server}

theorem Server.Inv.accept (h : s.Inv n) (hs' : s.accept o fuel n connections = some s')
    (hdata : ∀ k < n, k ≠ n - 1 → ∀ block ∈ connections k,
      ∃ d, parseBlock o block = some (.data d)) : s'.Inv n := by
  obtain ⟨hreached, hquiet⟩ := h
  rw [Server.accept] at hs'
  cases haccepting : s.accepting with
  | accept i =>
    simp only [haccepting, Accepting.Reached] at hreached hs'
    obtain ⟨hi, hs'⟩ := Option.ite_none_right_eq_some.1 hs'
    obtain rfl := Option.some.inj hs'
    exact ⟨⟨hi, hreached.2⟩, hquiet⟩
  | allocate i =>
    simp only [haccepting, Accepting.Reached, Option.some.injEq] at hreached hs'
    obtain ⟨hi, hqueues⟩ := hreached
    subst hs'
    -- A queue that is allocated stays so.
    have hkeep : ∀ k, s.queues k ≠ none → Function.update s.queues i (some []) k ≠ none := by
      intro k hk
      by_cases hki : k = i
      · simp [hki]
      · simpa [hki] using hk
    refine ⟨⟨hi, fun k hk => ?_⟩, hquiet.imp_left fun hall k hk => hkeep k (hall k hk)⟩
    rcases hk.lt_or_eq with hk | rfl
    · exact hkeep k (hqueues k hk)
    · simp
  | create i =>
    simp only [haccepting, Accepting.Reached, Option.some.injEq] at hreached hs'
    obtain ⟨hi, hqueues⟩ := hreached
    subst hs'
    refine ⟨⟨hi, fun k hk => hqueues k (Nat.lt_succ_iff.1 hk)⟩, ?_⟩
    by_cases hlast : i = n - 1
    · -- The last reader is created once all queues are there.
      exact .inl fun k hk => hqueues k (by omega)
    · refine hquiet.imp_right fun ⟨hblank, hthreads⟩ => ⟨hblank, fun k x hx => ?_⟩
      by_cases hki : k = i
      · obtain rfl := Option.some.inj (by simpa [hki] using hx)
        exact Thread.quiet_listenForBlock (hdata i hi hlast)
      · exact hthreads k x (by simpa [hki] using hx)

theorem Server.Inv.read {i : ℕ} (h : s.Inv n) (hs' : s.read i = some s') : s'.Inv n := by
  obtain ⟨hreached, hquiet⟩ := h
  unfold Server.read at hs'
  split at hs'
  · rename_i β op next hthread
    split at hs'
    · rename_i b r hexec
      obtain rfl := Option.some.inj hs'
      refine ⟨hreached, hquiet.imp_right fun ⟨hblank, hthreads⟩ => ?_⟩
      have hx := hthreads i _ hthread
      obtain ⟨hread, hr⟩ := (wp_of_ok hexec).1 (Op.wp_exec hx.1 hblank)
      refine ⟨hr, fun k x hk => ?_⟩
      by_cases hki : k = i
      · obtain rfl := Option.some.inj (by simpa [hki] using hk)
        exact hx.2 b hread
      · exact hthreads k x (by simpa [hki] using hk)
    · exact absurd hs' (by simp)
  · exact absurd hs' (by simp)

/-- In every state in which a reader is about to call `bounce_buffer`, all queues are
    allocated. -/
theorem allocated_of_bouncing {i : ℕ}
    (hconnections : ∀ k < n, ∀ block ∈ connections k, ∃ x pad, PutOn n k x ∧ block = x.bytes o pad)
    (hs : (serveClient o fuel n connections).Reachable s) (hi : s.Bouncing i) :
    ∀ k < n, s.queues k ≠ none := by
  have hdata : ∀ k < n, k ≠ n - 1 → ∀ block ∈ connections k,
      ∃ d, parseBlock o block = some (.data d) := by
    intro k hk hlast block hblock
    obtain ⟨x, pad, hx, rfl⟩ := hconnections k hk block hblock
    exact hx.parseBlock_eq_data hlast pad
  have hinv : s.Inv n := by
    refine hs.invariant (fun s hs => ?_) fun s turn s' h hs' => ?_
    · obtain rfl := hs
      refine ⟨⟨Nat.zero_le n, by simp⟩, .inr ⟨fun p b hb => ?_, by simp⟩⟩
      simp [Reader.empty] at hb
    · cases turn with
      | serveClient => exact h.accept hs' hdata
      | reader i => exact h.read hs'
  rcases hinv.quiet with hall | ⟨_, hthreads⟩
  · exact hall
  · obtain ⟨p, next, hthread⟩ := hi
    exact (hthreads i _ hthread).1.elim

end

/-- The blocks of a buffer of two bytes on two queues. -/
def twoQueues (k : ℕ) : List Block :=
  if k = 0 then [.data (dataBlock [7, 8] 2 0 1 0)]
  else [.init (initBlock 2 0 (-1)), .data (dataBlock [7, 8] 2 0 1 1)]

theorem putOn_twoQueues {k : ℕ} (hk : k < 2) {x : Block} (hx : x ∈ twoQueues k) : PutOn 2 k x := by
  have hunif : unifSize .none 2 2 = some 1 := by
    have htwo : Int32.toInt 2 = 2 := rfl
    norm_num [unifSize, findDivisor, quotient, Rounding.none, blockSize, htwo]
  refine ⟨.none, [7, 8], 2, -1, twoQueues k, ?_, hx⟩
  refine finalState_of_wp
    (I := fun w : Writer => ∀ k < 2, w.queues[k]? = some (twoQueues k)) ?_ k hk
  rw [wp_multiplexWriteQueues_iff (by decide) hunif]
  intro k hk
  interval_cases k <;> rfl

/-- The blocks of two connections, as they arrive. -/
def twoConnections (k : ℕ) : List (List UInt8) :=
  (twoQueues k).map fun x => x.bytes .little fun _ => []

/-- The first reader has handled its block before the second queue is allocated. The second
    one completes the buffer, and comes to call `bounce_buffer`. -/
theorem allocated_of_bouncing_two : ∃ s₁ s : Server,
    (serveClient .little 2 2 twoConnections).exec ⟨.accept 0, fun _ => none, .empty, fun _ => none⟩
      (List.replicate 3 .serveClient ++ List.replicate 3 (.reader 0)) = some s₁ ∧
    (s₁.queues 1 = none ∧ s₁.reader.table (intKey 0) = some 0) ∧
    (serveClient .little 2 2 twoConnections).exec s₁
      (List.replicate 3 .serveClient ++ List.replicate 25 (.reader 1)) = some s ∧
    s.Bouncing 1 ∧ ∀ k < 2, s.queues k ≠ none := by
  have hrun : ∃ s₁ s : Server, (serveClient .little 2 2 twoConnections).exec
        ⟨.accept 0, fun _ => none, .empty, fun _ => none⟩
        (List.replicate 3 .serveClient ++ List.replicate 3 (.reader 0)) = some s₁ ∧
      (s₁.queues 1 = none ∧ s₁.reader.table (intKey 0) = some 0) ∧
      (serveClient .little 2 2 twoConnections).exec s₁
        (List.replicate 3 .serveClient ++ List.replicate 25 (.reader 1)) = some s ∧
      s.Bouncing 1 := ⟨_, _, rfl, ⟨rfl, rfl⟩, rfl, _, _, rfl⟩
  obtain ⟨s₁, s, hs₁, hearly, hs, hbouncing⟩ := hrun
  refine ⟨s₁, s, hs₁, hearly, hs, hbouncing, allocated_of_bouncing (fun k hk block hblock => ?_)
    ((System.reachable_of_exec rfl hs₁).exec hs) hbouncing⟩
  obtain ⟨x, hx, rfl⟩ := List.mem_map.1 hblock
  exact ⟨x, _, putOn_twoQueues hk hx, rfl⟩

end Cse461.Multiplex
