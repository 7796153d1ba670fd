import Cse461.Multiplex.Arrival

/-!
# Completion

Between two calls of `handle_block`, a valid entry of the table is to have counted
the payload of the data blocks that were handled of it, and to be marked as
completed when that makes its size (`Settled`); then no buffer whose blocks all
arrived holds back those after it.

The flag is set where a data block is copied, and nowhere else. A buffer of no
bytes has no data blocks, so it is never completed: the reader keeps this
invariant for the chains without such buffers only (`settles_iff`).

A `CutBuffer` is a buffer that may be empty, of which the writer sends the init
block alone; one that is not empty is a `SplitBuffer`.
-/

namespace Cse461.Multiplex

open Library Reader

/-- A buffer of any size, cut into data blocks. -/
structure CutBuffer where
  tag : Int32
  bytes : List UInt8
  blocks : List DataBlock
  tag_nonneg : 0 ≤ tag
  length_lt : bytes.length < 2 ^ 32
  block_tag : ∀ d ∈ blocks, d.tag = tag
  block_size : ∀ d ∈ blocks, d.blockSize.toNat = sizeofDataBlock + d.payload.length
  payload_ne_nil : ∀ d ∈ blocks, d.payload ≠ []
  cut : ∀ d ∈ blocks, d.piece.CutFrom bytes
  tiles : Tiles (blocks.map DataBlock.piece) bytes.length

/-- A buffer that is not empty. -/
def CutBuffer.split (b : CutBuffer) (h : b.bytes ≠ []) : SplitBuffer :=
  { b with bytes_ne_nil := h }

/-- A list of buffers of any sizes, with distinct tags. -/
structure CutChain where
  buffers : List CutBuffer
  nodup : (buffers.map CutBuffer.tag).Nodup

/-- The init block of `b`, after the buffer with the tag `prev`. -/
def CutBuffer.initBlock (b : CutBuffer) (prev : Int32) : InitBlock where
  blockSize := UInt32.ofNat sizeofInitBlock
  flag := -1
  bufferSize := UInt32.ofNat b.bytes.length
  tag := b.tag
  prevTag := prev
  lastBlock := false

/-- The blocks of the buffers `bs`, the first of which comes after the buffer
    with the tag `prev`. -/
def cutBlocks : Int32 → List CutBuffer → List Block
  | _, [] => []
  | prev, b :: bs => .init (b.initBlock prev) :: (b.blocks.map .data ++ cutBlocks b.tag bs)

namespace CutChain

variable (c : CutChain)

/-- The blocks of the chain: the first buffer comes after no other. -/
def blocks : List Block := cutBlocks noTag c.buffers

/-- The buffers before the first one some of whose blocks are not in `pre`. -/
def arrivedBuffers (pre : List Block) : List CutBuffer :=
  c.buffers.takeWhile fun b => ∀ x ∈ c.blocks, x.tag = b.tag → x ∈ pre

end CutChain

/-- What a valid entry is to be after the blocks `pre`. -/
structure Settled (pre : List Block) (b : BufferInfo) : Prop where
  count : b.nWritten.toNat =
    payloadBytes ((pre.filter fun x => x.tag = b.tag).filterMap Block.data?)
  queue : b.waitingQueue.getD [] = []
  completed : b.completed = true ↔ b.nWritten = b.bufferSize

/-- Whatever order the blocks of the chain arrive in, and however many of them did:
    the valid entries are settled, and the buffers that all arrived are passed to
    the handler, up to the first that did not. -/
def Settles (o : ByteOrder) (pad : InitBlock → List UInt8) (c : CutChain) : Prop :=
  ∀ arrival : List Block, arrival.Perm c.blocks → ∀ pre : List Block, pre <+: arrival →
    ∃ r, handleBlocks o (pre.map (Block.bytes o pad)) Reader.empty = .ok ⟨⟩ r ∧
      (∀ key b, r.entry key = some b → b.valid = true → Settled pre b) ∧
      r.handled = (c.arrivedBuffers pre).map fun b => b.bytes.map some

/-! ## Chains without empty buffers -/

section

variable {c : Chain} {m : ℕ} {r : Reader} {pre : List Block}

/-- Once the init block of a buffer arrived, all its data blocks that did are copied. -/
theorem Chain.progress_of_init {k : ℕ} {b : SplitBuffer} (hb : c.buffers[k]? = some b)
    (hinit : (c.progress pre k).init = true) : (c.progress pre k).queue = none ∧
      (c.progress pre k).copied = (pre.filter fun x => x.tag = b.tag).filterMap Block.data? := by
  obtain ⟨harrived, _, hqueue, _⟩ := Progress.arrived_foldl (pre.filter fun x => x.tag = b.tag)
  have hdef : (pre.filter fun x => x.tag = b.tag).foldl Progress.receive .start =
      c.progress pre k := by simp [progress, hb]
  rw [hdef] at harrived hqueue
  refine ⟨hqueue hinit, ?_⟩
  rw [← harrived, Progress.arrived, hqueue hinit, Option.getD_none, List.append_nil]

/-- The entry of a buffer whose init block arrived is settled. -/
theorem Chain.settled_info {k : ℕ} {b : SplitBuffer} (hpre : pre.Subperm c.blocks)
    (hb : c.buffers[k]? = some b) (hinit : (c.progress pre k).init = true) :
    Settled pre (c.info (c.progress pre) k b) := by
  obtain ⟨hqueue, hcopied⟩ := Chain.progress_of_init hb hinit
  have hof := Chain.progress_of hpre hb
  have hle := hof.payloadBytes_le
  have hlt := b.length_lt
  refine ⟨?_, by simp [info, hqueue], ?_⟩
  · rw [info, UInt32.toNat_ofNat', Nat.mod_eq_of_lt (by omega), hcopied]
  · rw [nWritten_eq_bufferSize_iff hof hinit]
    simp [info]

/-- Between two calls every valid entry is settled. -/
theorem Inv.settled (hpre : pre.Subperm c.blocks) (h : Inv c (c.progress pre) m r) {key : UInt64}
    {i : BufferInfo} (hi : r.entry key = some i) (hvalid : i.valid = true) : Settled pre i := by
  by_cases hkey : ∃ b ∈ c.buffers, key = intKey b.tag
  · obtain ⟨b, hb, rfl⟩ := hkey
    obtain ⟨k, hk⟩ := List.mem_iff_getElem?.1 hb
    rcases lt_trichotomy (k + 1) m with hlt | heq | hgt
    · exact absurd (hi.symm.trans (h.gone hk hlt)) (by simp)
    · -- The last buffer delivered.
      have hinit := (h.complete hk (by omega)).1
      obtain rfl := Option.some.inj (hi.symm.trans (h.last hk heq))
      obtain ⟨hcount, hqueue, hcompleted⟩ := Chain.settled_info hpre hk hinit
      exact ⟨hcount, hqueue, hcompleted⟩
    · have he := hi.symm.trans (h.ahead hk (by omega))
      by_cases hinit : (c.progress pre k).init = true
      · rw [Chain.expected, if_pos hinit] at he
        obtain rfl := Option.some.inj he
        exact Chain.settled_info hpre hk hinit
      · -- A dummy is not valid.
        rw [Chain.expected, if_neg hinit] at he
        split at he
        · obtain rfl := Option.some.inj he
          exact absurd hvalid (by simp)
        · exact absurd he (by simp)
  · have hnone := h.other fun b hb he => hkey ⟨b, hb, he⟩
    exact absurd (hi.symm.trans hnone) (by simp)

end

/-! ## Any chain -/

namespace CutChain

/-- A chain without empty buffers. -/
def split (c : CutChain) (h : ∀ b ∈ c.buffers, b.bytes ≠ []) : Chain where
  buffers := c.buffers.pmap CutBuffer.split h
  nodup := by
    have htags : (c.buffers.pmap CutBuffer.split h).map SplitBuffer.tag =
        c.buffers.map CutBuffer.tag := by
      rw [List.map_pmap]
      exact List.pmap_eq_map ..
    rw [htags]
    exact c.nodup

variable {c : CutChain} {pre : List Block}

theorem chainBlocks_split {bs : List CutBuffer} (h : ∀ b ∈ bs, b.bytes ≠ []) (prev : Int32) :
    chainBlocks prev (bs.pmap CutBuffer.split h) = cutBlocks prev bs := by
  induction bs generalizing prev with
  | nil => rfl
  | cons b bs ih =>
    rw [List.pmap_cons, chainBlocks, cutBlocks, ← ih]
    rfl

theorem blocks_split (h : ∀ b ∈ c.buffers, b.bytes ≠ []) : (c.split h).blocks = c.blocks :=
  chainBlocks_split h noTag

/-- The same buffers arrived. -/
theorem bytes_arrivedBuffers_split (pre : List Block) (h : ∀ b ∈ c.buffers, b.bytes ≠ []) :
    ((c.split h).arrivedBuffers pre).map SplitBuffer.bytes =
      (c.arrivedBuffers pre).map CutBuffer.bytes := by
  have hpairs : ((c.split h).buffers.map fun b => (b.tag, b.bytes)) =
      c.buffers.map fun b => (b.tag, b.bytes) := by
    rw [split, List.map_pmap]
    exact List.pmap_eq_map (f := fun b : CutBuffer => (b.tag, b.bytes)) h
  have htake := congrArg (List.takeWhile fun b : Int32 × List UInt8 =>
    decide (∀ x ∈ c.blocks, x.tag = b.1 → x ∈ pre)) hpairs
  rw [List.takeWhile_map, List.takeWhile_map] at htake
  have hbytes := congrArg (List.map Prod.snd) htake
  rw [List.map_map, List.map_map] at hbytes
  rw [Chain.arrivedBuffers, blocks_split h]
  exact hbytes

theorem mem_blocks_of_mem (prev : Int32) {bs : List CutBuffer} {b : CutBuffer} (hb : b ∈ bs) :
    ∃ prev', .init (b.initBlock prev') ∈ cutBlocks prev bs := by
  induction bs generalizing prev with
  | nil => simp at hb
  | cons b' bs ih =>
    rcases List.mem_cons.1 hb with rfl | hb
    · exact ⟨prev, by simp [cutBlocks]⟩
    · obtain ⟨prev', hmem⟩ := ih b'.tag hb
      exact ⟨prev', by simp [cutBlocks, hmem]⟩

/-- If there is an empty buffer, let its init block arrive first. -/
theorem not_settles {o : ByteOrder} {pad : InitBlock → List UInt8} {b : CutBuffer}
    (hb : b ∈ c.buffers) (hempty : b.bytes = []) : ¬Settles o pad c := by
  intro h
  obtain ⟨prev, hmem⟩ := mem_blocks_of_mem noTag hb
  obtain ⟨r, hrun, hsettled, _⟩ := h (.init (b.initBlock prev) :: c.blocks.erase _)
    (List.perm_cons_erase hmem).symm [.init (b.initBlock prev)] ⟨_, rfl⟩
  have hr : r = Reader.empty.fileNew (intKey b.tag)
      (.init { nextTag := noTag } (b.initBlock prev)) :=
    (wp_of_ok (Q := fun _ r => r = _) (E := fun _ _ => True) hrun).1
      ((wp_handleBlocks_init (by rfl)).2 rfl)
  have hentry : r.entry (intKey b.tag) = some (.init { nextTag := noTag } (b.initBlock prev)) := by
    rw [hr, wellFormed_empty.entry_fileNew, Function.update_self]
  have hcompleted := (hsettled _ _ hentry rfl).completed.2
    (by simp [BufferInfo.init, CutBuffer.initBlock, hempty])
  exact absurd hcompleted (by simp [BufferInfo.init])

end CutChain

/-- Every chain is settled, in whatever order its blocks arrive, exactly if it has no
    empty buffer. -/
theorem settles_iff (o : ByteOrder) (pad : InitBlock → List UInt8) (c : CutChain) :
    Settles o pad c ↔ ∀ b ∈ c.buffers, b.bytes ≠ [] := by
  constructor
  · intro h b hb hempty
    exact CutChain.not_settles hb hempty h
  · intro h arrival harrival pre hpre
    rw [← CutChain.blocks_split h] at harrival
    have hsub := hpre.sublist.subperm.trans harrival.subperm
    obtain ⟨_, r, hrun, m, hinv⟩ := ok_of_wp (wp_handleBlocks o pad hsub)
    refine ⟨r, hrun, fun key b hb hvalid => hinv.settled hsub hb hvalid, ?_⟩
    have hbytes := congrArg (List.map (List.map some))
      (CutChain.bytes_arrivedBuffers_split pre h)
    rw [List.map_map, List.map_map] at hbytes
    rw [hinv.handled, ← hinv.take_eq hsub]
    exact hbytes

theorem zero_tag_nonneg : (0 : Int32) ≤ 0 := by decide

theorem one_tag_nonneg : (0 : Int32) ≤ 1 := by decide

/-- A buffer of no bytes, and one of one byte. -/
def emptyAndOne : CutChain where
  buffers := [
    { tag := 0, bytes := [], blocks := [], tag_nonneg := zero_tag_nonneg, length_lt := by decide,
      block_tag := by simp, block_size := by simp, payload_ne_nil := by simp, cut := by simp,
      tiles := fun i => by simp },
    { tag := 1, bytes := [7], blocks := [⟨13, 0, 1, [7]⟩], tag_nonneg := one_tag_nonneg
      length_lt := by decide, block_tag := by simp, block_size := by simp [sizeofDataBlock]
      payload_ne_nil := by simp, cut := by simp [DataBlock.piece, Piece.CutFrom]
      tiles := fun i => by simp [DataBlock.piece, Piece.Covers, List.countP_singleton] }]
  nodup := by decide

/-- The buffer of no bytes is not completed. -/
theorem not_settles_emptyAndOne : ¬Settles .little (fun _ => [0, 0, 0]) emptyAndOne :=
  CutChain.not_settles (b := emptyAndOne.buffers[0]) (by simp [emptyAndOne]) rfl

end Cse461.Multiplex
