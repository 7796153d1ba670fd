import Cse461.Multiplex.Receive
import Cse461.Multiplex.RoundTrip

/-!
# Transport

From `multiplex_write_queues` of one side to the handler of the other: the blocks of
each queue are sent over a connection of their own (`Cse461.Multiplex.Send`), the
thread that reads a connection hands on those that arrive completely
(`Cse461.Multiplex.Receive`), and the threads call `handle_block`, one at a time.

A `Connection` may be cut off after any of its bytes, and what it carries is split
in any way. The handler gets the buffers of which all blocks arrived, as long as
this is true of all buffers before them (`Chain.transport`): nothing is handled that
was not written, not out of order and not twice.
-/

namespace Cse461.Multiplex

open Library

/-! ## The sizes of the blocks -/

section

variable {o : ByteOrder} {pad : InitBlock → List UInt8}

/-- A block on the wire begins with its size. -/
def Block.Sized (o : ByteOrder) (pad : InitBlock → List UInt8) (x : Block) : Prop :=
  SelfSized o (x.bytes o pad)

theorem sized_initBlock (hpad : ∀ i, (pad i).length = 3) (bufLen tag prevTag : Int32) :
    (Block.init (initBlock bufLen tag prevTag)).Sized o pad := by
  have hlength : ((initBlock bufLen tag prevTag).bytes o
      (pad (initBlock bufLen tag prevTag))).length = sizeofInitBlock := by
    simp only [InitBlock.bytes, List.length_append, ByteOrder.length_bytes32, List.length_cons,
      hpad]
    rfl
  refine ⟨?_, ?_, ?_⟩
  · rw [Block.bytes, hlength]
    exact ByteOrder.word32_bytes32 _ _ _
  · rw [Block.bytes, hlength]
    decide
  · rw [Block.bytes, hlength]
    decide

theorem sized_dataBlock {buffer : List UInt8} {bufLen tag : Int32} {unif i : ℕ}
    (hlen : bufLen.toInt = buffer.length) (hu : unif ≤ blockSize) :
    (Block.data (dataBlock buffer bufLen tag unif i)).Sized o pad := by
  have hheader : sizeofDataBlock = 12 := rfl
  have hmax : blockSize = 16384 := rfl
  have hroom : maxSize = 16396 := rfl
  have hsize : (UInt32.ofNat (min unif (bufLen.toInt - i).toNat)).toNat =
      min unif (bufLen.toInt - i).toNat := by
    rw [UInt32.toNat_ofNat', Nat.mod_eq_of_lt (by omega)]
  have hpayload : (dataBlock buffer bufLen tag unif i).payload.length =
      min unif (bufLen.toInt - i).toNat := by
    rw [dataBlock, hsize, List.length_take, List.length_drop]
    omega
  have hlength : ((dataBlock buffer bufLen tag unif i).bytes o).length =
      min unif (bufLen.toInt - i).toNat + sizeofDataBlock := by
    simp only [DataBlock.bytes, List.length_append, ByteOrder.length_bytes32, hpayload]
    omega
  refine ⟨?_, ?_, ?_⟩
  · rw [Block.bytes, hlength, UInt32.ofNat_add]
    exact ByteOrder.word32_bytes32 _ _ _
  · rw [Block.bytes, hlength]
    omega
  · rw [Block.bytes, hlength]
    omega

/-- All blocks in the queues begin with their sizes. -/
def Writer.Sized (o : ByteOrder) (pad : InitBlock → List UInt8) (w : Writer) : Prop :=
  ∀ queue ∈ w.queues, ∀ x ∈ queue, x.Sized o pad

variable {numQueues : ℕ} {w : Writer} {E : WriterStop → Writer → Prop}

theorem sized_empty : (Writer.empty numQueues).Sized o pad := by
  intro queue hqueue x hx
  rw [List.eq_of_mem_replicate hqueue] at hx
  exact absurd hx List.not_mem_nil

theorem Writer.Sized.push (hw : w.Sized o pad) {x : Block} (hx : x.Sized o pad) (k : ℕ) :
    (w.push k x).Sized o pad := by
  intro queue hqueue y hy
  obtain ⟨j, hj⟩ := List.mem_iff_getElem?.1 hqueue
  rw [Writer.push, List.getElem?_modify] at hj
  obtain ⟨queue', hqueue', rfl⟩ := Option.map_eq_some_iff.1 hj
  by_cases hkj : k = j
  · rw [if_pos hkj, List.mem_append, List.mem_singleton] at hy
    rcases hy with hy | rfl
    · exact hw _ (List.mem_of_getElem? hqueue') y hy
    · exact hx
  · rw [if_neg hkj] at hy
    exact hw _ (List.mem_of_getElem? hqueue') y hy

theorem wp_writeDataBlocks_sized {buffer : List UInt8} {bufLen tag : Int32} {unif rounds i : ℕ}
    (hlen : bufLen.toInt = buffer.length) (hu : unif ≤ blockSize) (hw : w.Sized o pad) :
    wp (writeDataBlocks numQueues buffer bufLen tag unif rounds i) (fun _ => Writer.Sized o pad)
      (fun _ _ => True) w := by
  induction rounds generalizing w i with
  | zero => trivial
  | succ rounds ih =>
    rw [writeDataBlocks, wp_ite]
    refine ⟨fun _ => ?_, fun _ => hw⟩
    rw [wp_bind, wp_writeBlockToQueue, wp_ite]
    exact ⟨fun _ => ih (hw.push (sized_dataBlock hlen hu) _), fun _ => trivial⟩

theorem wp_multiplexWriteQueues_sized {R : Rounding} {buffer : List UInt8} {nextTag : Int32}
    (hpad : ∀ i, (pad i).length = 3) (hq : 1 ≤ numQueues) (hq' : numQueues ≤ 2 ^ 24)
    (hlt : buffer.length < 2 ^ 31) (hw : w.Sized o pad) :
    wp (multiplexWriteQueues R numQueues buffer (Int32.ofNat buffer.length) nextTag)
      (fun _ => Writer.Sized o pad) (fun _ _ => True) w := by
  have hlen := toInt_ofNat hlt
  obtain ⟨u, hu, hsize, _⟩ := unifSize_spec (R := R) hlen hlt hq hq'
  by_cases hmax : nextTag = Int32.maxValue
  · rw [multiplexWriteQueues, if_pos hmax]
    trivial
  · rw [wp_multiplexWriteQueues_iff hmax hu]
    exact wp_writeDataBlocks_sized hlen hsize (hw.push (sized_initBlock hpad _ _ _) _)

theorem wp_writeBuffers_sized {R : Rounding} {buffers : List (List UInt8)} {nextTag : Int32}
    (hpad : ∀ i, (pad i).length = 3) (hq : 1 ≤ numQueues)
    (hbuffers : ∀ b ∈ buffers, numQueues ≤ b.length ∧ b.length < 2 ^ 24) (hw : w.Sized o pad) :
    wp (writeBuffers R numQueues buffers nextTag) (fun _ => Writer.Sized o pad)
      (fun _ _ => True) w := by
  induction buffers generalizing nextTag w with
  | nil => exact hw
  | cons buffer buffers ih =>
    rw [List.forall_mem_cons] at hbuffers
    obtain ⟨⟨hlen, hlt⟩, hbuffers⟩ := hbuffers
    rw [writeBuffers, wp_bind]
    exact wp_mono (wp_multiplexWriteQueues_sized hpad hq (by omega) (by omega) hw)
      (fun _ _ hw => ih hbuffers hw) fun _ _ h => h

end

/-! ## Connections -/

/-- The connection of a queue: how many bytes arrive, how many of them a call of `read`
    returns, and what it returns after the last one. -/
structure Connection where
  cut : ℕ
  split : ℕ → ℕ
  ending : Ending

section

variable (o : ByteOrder) (pad : InitBlock → List UInt8)

namespace Connection

variable (c : Connection) (queue : List Block)

/-- The bytes that arrive, if all blocks of the queue are sent as a whole. -/
def stream : List UInt8 := (queue.map (Block.bytes o pad)).flatten.take c.cut

/-- `listen_for_block`, on the bytes that arrive. -/
def listen : EStateM.Result Stop Receiver Unit :=
  Multiplex.listen o c.split c.ending (c.stream o pad queue) { stream := c.stream o pad queue }

/-- What the thread that reads the connection hands on. -/
def handed : List HandedBlock :=
  (finalState (Multiplex.listen o c.split c.ending (c.stream o pad queue))
    { stream := c.stream o pad queue }).handed

end Connection

/-- The blocks of a queue of which all bytes are among the first `n`. -/
def received : List Block → ℕ → List Block
  | [], _ => []
  | x :: queue, n =>
    if (x.bytes o pad).length ≤ n then x :: received queue (n - (x.bytes o pad).length) else []

/-- What is received over the connections, one for each queue. -/
def receivedBlocks (conns : List Connection) (queues : List (List Block)) : List Block :=
  (List.zipWith (fun c queue => received o pad queue c.cut) conns queues).flatten

/-- What is handed on by the threads that read the connections, in some order. -/
def Arrives (conns : List Connection) (queues : List (List Block)) (arrival : List HandedBlock) :
    Prop :=
  Interleaving (List.zipWith (fun c queue => c.handed o pad queue) conns queues) arrival

end

section

variable {o : ByteOrder} {pad : InitBlock → List UInt8} {queue : List Block}

theorem prefix_received (queue : List Block) (n : ℕ) : received o pad queue n <+: queue := by
  induction queue generalizing n with
  | nil => exact List.nil_prefix
  | cons x queue ih =>
    rw [received]
    split
    · exact List.cons_prefix_cons.2 ⟨rfl, ih _⟩
    · exact List.nil_prefix

theorem bytes_arrived (queue : List Block) (n : ℕ) :
    (arrived (queue.map (Block.bytes o pad)) n).map HandedBlock.bytes =
      (received o pad queue n).map (Block.bytes o pad) := by
  induction queue generalizing n with
  | nil => rfl
  | cons x queue ih =>
    rw [List.map_cons, arrived, received]
    split
    · rw [List.map_cons, List.map_cons, ih]
      congr 1
      exact reduceOption_filled _ _
    · rfl

/-- A thread hands on the blocks that it receives, and stays in bounds. -/
theorem Connection.listen_sized (c : Connection) (h : ∀ x ∈ queue, x.Sized o pad) :
    ∃ r, c.listen o pad queue = .ok ⟨⟩ r ∧ (c.handed o pad queue).map HandedBlock.bytes =
      (received o pad queue c.cut).map (Block.bytes o pad) := by
  have hblocks : ∀ b ∈ queue.map (Block.bytes o pad), SelfSized o b := by
    intro b hb
    obtain ⟨x, hx, rfl⟩ := List.mem_map.1 hb
    exact h x hx
  obtain ⟨_, r, hok, hhanded, _⟩ := ok_of_wp (wp_listenForBlock_arrived c.split c.ending hblocks
    (r := { stream := c.stream o pad queue }) rfl (Nat.lt_succ_self _))
  have hlisten : c.listen o pad queue = .ok ⟨⟩ r := hok
  refine ⟨r, hlisten, ?_⟩
  rw [← bytes_arrived]
  have hfinal : finalState (Multiplex.listen o c.split c.ending (c.stream o pad queue))
      { stream := c.stream o pad queue } = r := by
    rw [finalState, show Multiplex.listen o c.split c.ending (c.stream o pad queue)
      { stream := c.stream o pad queue } = .ok ⟨⟩ r from hok]
  rw [Connection.handed, hfinal, hhanded]
  rfl

variable {conns : List Connection} {queues : List (List Block)} {arrival : List HandedBlock}

theorem receivedBlocks_sublist (conns : List Connection) (queues : List (List Block)) :
    (receivedBlocks o pad conns queues).Sublist queues.flatten := by
  induction queues generalizing conns with
  | nil => simp [receivedBlocks]
  | cons queue queues ih =>
    cases conns with
    | nil => exact List.nil_sublist _
    | cons c conns => exact (prefix_received queue c.cut).sublist.append (ih conns)

/-- What arrives is what is received, in some order. -/
theorem Arrives.exists_perm (h : Arrives o pad conns queues arrival)
    (hsized : ∀ queue ∈ queues, ∀ x ∈ queue, x.Sized o pad) :
    ∃ pre : List Block, pre.Perm (receivedBlocks o pad conns queues) ∧
      arrival.map HandedBlock.bytes = pre.map (Block.bytes o pad) := by
  have hbytes : ((List.zipWith (fun c queue => c.handed o pad queue) conns queues).flatten).map
      HandedBlock.bytes = (receivedBlocks o pad conns queues).map (Block.bytes o pad) := by
    clear h
    induction queues generalizing conns with
    | nil => simp [receivedBlocks]
    | cons queue queues ih =>
      cases conns with
      | nil => rfl
      | cons c conns =>
        rw [List.forall_mem_cons] at hsized
        obtain ⟨_, _, hhanded⟩ := c.listen_sized hsized.1
        have hrest : ((List.zipWith (fun c queue => c.handed o pad queue) conns queues).flatten).map
            HandedBlock.bytes = (receivedBlocks o pad conns queues).map (Block.bytes o pad) :=
          ih hsized.2
        change (c.handed o pad queue ++ _).map _ =
          (received o pad queue c.cut ++ receivedBlocks o pad conns queues).map _
        rw [List.map_append, List.map_append, hhanded, hrest]
  obtain ⟨pre, hpre, heq⟩ := exists_perm_map (hbytes ▸ h.perm.map HandedBlock.bytes)
  exact ⟨pre, hpre, heq.symm⟩

/-! ## Chains -/

/-- All blocks of the `k`-th buffer of a chain are received. -/
def Chain.Received (ch : Chain) (pre : List Block) (k : ℕ) : Prop :=
  ∀ b, ch.buffers[k]? = some b → ∀ x ∈ ch.blocks, x.tag = b.tag → x ∈ pre

/-- From the queues of a chain, whatever the connections carry of it: the handler gets
    the buffers of the chain up to the first that is not received. -/
theorem Chain.transport (ch : Chain) (hqueues : queues.flatten.Perm ch.blocks)
    (hsized : ∀ queue ∈ queues, ∀ x ∈ queue, x.Sized o pad)
    (h : Arrives o pad conns queues arrival) :
    ∃ r m, handleBlocks o (arrival.map HandedBlock.bytes) Reader.empty = .ok ⟨⟩ r ∧
      r.handled = (ch.buffers.take m).map (fun b => b.bytes.map some) ∧ m ≤ ch.buffers.length ∧
      ∀ k < ch.buffers.length, (k < m ↔
        ∀ j ≤ k, ch.Received (receivedBlocks o pad conns queues) j) := by
  obtain ⟨pre, hpre, heq⟩ := h.exists_perm hsized
  have hsub : pre.Subperm ch.blocks :=
    (hpre.subperm_right.2 (receivedBlocks_sublist conns queues).subperm).trans hqueues.subperm
  obtain ⟨_, r, hrun, m, hinv⟩ := ok_of_wp (wp_handleBlocks o pad hsub)
  rw [heq]
  refine ⟨r, m, hrun, hinv.handled, hinv.le, fun k hk => ?_⟩
  have hreceived {j : ℕ} {b : SplitBuffer} (hb : ch.buffers[j]? = some b) :
      ch.Received (receivedBlocks o pad conns queues) j ↔ (ch.progress pre j).Complete b := by
    rw [Chain.progress_complete_iff hsub hb]
    constructor
    · exact fun h x hx htag => hpre.mem_iff.2 (h b hb x hx htag)
    · intro h b' hb' x hx htag
      obtain rfl : b = b' := Option.some.inj (hb.symm.trans hb')
      exact hpre.mem_iff.1 (h x hx htag)
  constructor
  · intro hkm j hj
    obtain ⟨b, hb⟩ : ∃ b, ch.buffers[j]? = some b :=
      ⟨_, List.getElem?_eq_getElem (hj.trans_lt hk)⟩
    exact (hreceived hb).2 (hinv.complete hb (hj.trans_lt hkm))
  · intro hall
    by_contra hkm
    obtain ⟨b, hb⟩ : ∃ b, ch.buffers[m]? = some b :=
      ⟨_, List.getElem?_eq_getElem ((not_lt.1 hkm).trans_lt hk)⟩
    exact hinv.blocked hb ((hreceived hb).1 (hall m (not_lt.1 hkm)))

end

/-- The tags that a counter gives are distinct, as long as it does not overflow. -/
theorem nodup_ofNat_range' {n : ℕ} (hn : n < 2 ^ 31) :
    ((List.range' 0 n).map Int32.ofNat).Nodup := by
  refine List.Nodup.map_on (fun i hi j hj hij => ?_) List.nodup_range'
  rw [List.mem_range'_1] at hi hj
  have heq := congrArg Int32.toInt hij
  rw [toInt_ofNat (by omega), toInt_ofNat (by omega)] at heq
  exact_mod_cast heq

/-- Buffers written one after the other are a chain, whose blocks begin with their sizes. -/
theorem wp_writeBuffers_chain {R : Rounding} {o : ByteOrder} {pad : InitBlock → List UInt8}
    (hpad : ∀ i, (pad i).length = 3) {numQueues : ℕ} (hq : 1 ≤ numQueues)
    {buffers : List (List UInt8)} (hcount : buffers.length < 2 ^ 31)
    (hbuffers : ∀ b ∈ buffers, numQueues ≤ b.length ∧ b.length < 2 ^ 24)
    {E : WriterStop → Writer → Prop} :
    wp (writeBuffers R numQueues buffers (-1)) (fun _ w => w.Sized o pad ∧ ∃ ch : Chain,
        ch.buffers.map SplitBuffer.bytes = buffers ∧
        ch.buffers.map SplitBuffer.tag = (List.range' 0 buffers.length).map Int32.ofNat ∧
        w.queues.flatten.Perm ch.blocks) E (Writer.empty numQueues) := by
  have hfirst : (-1 : Int32) + 1 = Int32.ofNat 0 := rfl
  refine wp_mono (wp_and (wp_writeBuffers (R := R) (w := Writer.empty numQueues) (E := E) hq hfirst
    (by omega) (by simp [Writer.empty]) hbuffers)
    (wp_writeBuffers_sized (o := o) hpad hq hbuffers sized_empty))
    (fun _ w hw => ?_) fun _ _ h => h.1
  obtain ⟨⟨bs, hbytes, htags, hperm⟩, hsized⟩ := hw
  refine ⟨hsized, ⟨bs, htags ▸ nodup_ofNat_range' hcount⟩, hbytes, htags, ?_⟩
  simpa [Writer.empty, Chain.blocks, noTag] using hperm

/-- Two buffers in two queues. -/
def cutQueues : List (List Block) :=
  [[.data ⟨13, 0, 0, [1]⟩, .data ⟨13, 2, 0, [3]⟩, .data ⟨13, 0, 1, [4]⟩],
    [.init ⟨24, -1, 3, 0, -1, false⟩, .data ⟨13, 1, 0, [2]⟩, .init ⟨24, -1, 2, 1, 0, false⟩,
      .data ⟨13, 1, 1, [5]⟩]]

/-- All bytes of the first queue arrive, and those of the second one but the last. -/
def cutConnections : List Connection := [⟨39, fun _ => 4, .eof⟩, ⟨73, fun k => k % 3, .error⟩]

/-- An order in which the two threads hand on blocks. -/
def cutArrived : List Block :=
  [.init ⟨24, -1, 3, 0, -1, false⟩, .data ⟨13, 0, 0, [1]⟩, .data ⟨13, 2, 0, [3]⟩,
    .data ⟨13, 1, 0, [2]⟩, .data ⟨13, 0, 1, [4]⟩, .init ⟨24, -1, 2, 1, 0, false⟩]

end Cse461.Multiplex
