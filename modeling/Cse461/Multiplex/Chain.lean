import Cse461.Multiplex.Entries

/-!
# Chains of buffers

What a writer sends, and how far a reader got with it, without the reader's
data structures.

* A `SplitBuffer` is a buffer cut into data blocks that tile it.
* A `Chain` is a list of such buffers with distinct tags. The blocks of a chain
  (`Chain.blocks`) are the data blocks of its buffers and an init block for each,
  which names the tag of the buffer before it.
* The `Progress` of a buffer is what arrived of it: whether the init block did,
  the data blocks copied since, and those waiting for it. The buffer is
  `Complete` when the init block is there and all data blocks are copied.
* `Chain.progress`: the progress after some blocks arrived.

`SplitBuffer.chop` cuts a buffer into blocks of one size, as the writer does.
-/

namespace Cse461.Multiplex

open Library

/-- The payload of a data block, as a piece of its buffer. -/
def DataBlock.piece (d : DataBlock) : Piece UInt8 := ⟨d.seqNumber.toNat, d.payload⟩

/-- A buffer cut into data blocks. -/
structure SplitBuffer where
  tag : Int32
  bytes : List UInt8
  blocks : List DataBlock
  tag_nonneg : 0 ≤ tag
  bytes_ne_nil : bytes ≠ []
  length_lt : bytes.length < 2 ^ 32
  block_tag : ∀ d ∈ blocks, d.tag = tag
  block_size : ∀ d ∈ blocks, d.blockSize.toNat = sizeofDataBlock + d.payload.length
  payload_ne_nil : ∀ d ∈ blocks, d.payload ≠ []
  cut : ∀ d ∈ blocks, d.piece.CutFrom bytes
  tiles : Tiles (blocks.map DataBlock.piece) bytes.length

/-- The number of bytes in the payloads of data blocks. -/
def payloadBytes (ds : List DataBlock) : ℕ := (ds.map fun d => d.payload.length).sum

@[simp] theorem payloadBytes_nil : payloadBytes [] = 0 := rfl

@[simp] theorem payloadBytes_append (ds es : List DataBlock) :
    payloadBytes (ds ++ es) = payloadBytes ds + payloadBytes es := by
  simp [payloadBytes]

theorem payloadBytes_perm {ds es : List DataBlock} (h : ds.Perm es) :
    payloadBytes ds = payloadBytes es := (h.map _).sum_eq

namespace SplitBuffer

variable (b : SplitBuffer)

theorem tag_ne_noTag : b.tag ≠ noTag := by
  intro h
  have := b.tag_nonneg
  rw [h] at this
  exact absurd this (by decide)

theorem payloadBytes_blocks : payloadBytes b.blocks = b.bytes.length := by
  have h := b.tiles.sum_length fun p hp => by
    obtain ⟨d, hd, rfl⟩ := List.mem_map.1 hp
    exact (b.cut d hd).1
  rw [List.map_map] at h
  exact h

/-- The blocks are distinct, as no two cover the same index. -/
theorem nodup_blocks : b.blocks.Nodup := by
  rw [List.nodup_iff_sublist]
  intro d hsub
  have hd : d ∈ b.blocks := hsub.subset (by simp)
  have hpos := List.length_pos_iff.2 (b.payload_ne_nil d hd)
  have hcovers : d.piece.Covers d.piece.start := ⟨le_rfl, by simp [DataBlock.piece]; omega⟩
  have htwo : 2 ≤ (b.blocks.map DataBlock.piece).countP fun p => p.Covers d.piece.start := by
    have := (hsub.map DataBlock.piece).countP_le (p := fun p => p.Covers d.piece.start)
    simpa [List.countP_cons, hcovers] using this
  have hone := b.tiles d.piece.start
  split at hone <;> omega

theorem blocks_ne_nil : b.blocks ≠ [] := by
  intro h
  have := b.payloadBytes_blocks
  rw [h, payloadBytes_nil] at this
  exact b.bytes_ne_nil (List.length_eq_zero_iff.1 this.symm)

variable {b} {d : DataBlock} (hd : d ∈ b.blocks)
include hd

theorem payload_lt : d.payload.length < 2 ^ 32 := by
  have := (b.cut d hd).1
  have := b.length_lt
  simp only [DataBlock.piece] at *
  omega

/-- The data size `handle_block` computes is the length of the payload. -/
theorem dataSize_eq : d.dataSize = UInt32.ofNat d.payload.length := by
  have hlt := payload_lt hd
  have hsize := b.block_size d hd
  have hheader : sizeofDataBlock = 12 := rfl
  apply UInt32.toNat.inj
  rw [DataBlock.dataSize, UInt32.toNat_sub, UInt32.toNat_ofNat', UInt32.toNat_ofNat', hsize]
  omega

theorem toNat_dataSize : d.dataSize.toNat = d.payload.length := by
  rw [dataSize_eq hd, UInt32.toNat_ofNat', Nat.mod_eq_of_lt (payload_lt hd)]

/-- The sequence number leaves room for the payload, so it is no flag. -/
theorem plain : d.Plain := by
  have hcut := (b.cut d hd).1
  have hlt := b.length_lt
  have hpos := List.length_pos_iff.2 (b.payload_ne_nil d hd)
  refine DataBlock.plain_of_lt ?_
  simp only [DataBlock.piece] at *
  omega

end SplitBuffer

/-! ### Cutting -/

/-- The data block that carries a piece of the buffer `tag`. -/
def DataBlock.ofPiece (tag : Int32) (p : Piece UInt8) : DataBlock where
  blockSize := UInt32.ofNat (sizeofDataBlock + p.data.length)
  seqNumber := UInt32.ofNat p.start
  tag := tag
  payload := p.data

theorem DataBlock.piece_ofPiece {tag : Int32} {p : Piece UInt8} (hp : p.start < 2 ^ 32) :
    (ofPiece tag p).piece = p := by
  simp only [piece, ofPiece, UInt32.toNat_ofNat', Nat.mod_eq_of_lt hp]

theorem start_lt_of_mem_chop {bytes : List UInt8} {u : ℕ} {p : Piece UInt8} (hu : 0 < u)
    (hlt : bytes.length < 2 ^ 32) (hp : p ∈ chop u bytes) : p.start < 2 ^ 32 := by
  have hcut := (cutFrom_of_mem_chop hu hp).1.1
  omega

theorem DataBlock.map_piece_ofPiece (tag : Int32) {bytes : List UInt8} {u : ℕ} (hu : 0 < u)
    (hlt : bytes.length < 2 ^ 32) :
    ((chop u bytes).map (ofPiece tag)).map DataBlock.piece = chop u bytes := by
  rw [List.map_map]
  conv_rhs => rw [← List.map_id (chop u bytes)]
  exact List.map_congr_left fun p hp => piece_ofPiece (start_lt_of_mem_chop hu hlt hp)

theorem DataBlock.toNat_blockSize_ofPiece {tag : Int32} {p : Piece UInt8}
    (hp : p.data.length ≤ Multiplex.blockSize) :
    (ofPiece tag p).blockSize.toNat = sizeofDataBlock + p.data.length := by
  have hheader : sizeofDataBlock = 12 := rfl
  have hmax : Multiplex.blockSize = 16384 := rfl
  rw [ofPiece, UInt32.toNat_ofNat', Nat.mod_eq_of_lt (by omega)]

/-- `bytes`, cut into blocks with a payload of `u` bytes. -/
def SplitBuffer.chop (tag : Int32) (bytes : List UInt8) (u : ℕ) (htag : 0 ≤ tag)
    (hne : bytes ≠ []) (hlt : bytes.length < 2 ^ 32) (hu : 0 < u) (hsize : u ≤ blockSize) :
    SplitBuffer where
  tag := tag
  bytes := bytes
  blocks := (Library.chop u bytes).map (DataBlock.ofPiece tag)
  tag_nonneg := htag
  bytes_ne_nil := hne
  length_lt := hlt
  block_tag d hd := by
    obtain ⟨p, _, rfl⟩ := List.mem_map.1 hd
    rfl
  block_size d hd := by
    obtain ⟨p, hp, rfl⟩ := List.mem_map.1 hd
    exact DataBlock.toNat_blockSize_ofPiece ((length_le_of_mem_chop hp).trans hsize)
  payload_ne_nil d hd := by
    obtain ⟨p, hp, rfl⟩ := List.mem_map.1 hd
    exact (cutFrom_of_mem_chop hu hp).2
  cut d hd := by
    obtain ⟨p, hp, rfl⟩ := List.mem_map.1 hd
    rw [DataBlock.piece_ofPiece (start_lt_of_mem_chop hu hlt hp)]
    exact (cutFrom_of_mem_chop hu hp).1
  tiles := by
    rw [DataBlock.map_piece_ofPiece _ hu hlt]
    exact chop_tiles hu

/-! ## Progress -/

/-- What arrived of a buffer. -/
structure Progress where
  /-- The init block arrived. -/
  init : Bool
  /-- The data blocks copied to the buffer. -/
  copied : List DataBlock
  /-- The waiting queue. -/
  queue : Option (List DataBlock)

namespace Progress

variable (g : Progress)

/-- The progress before the first block. -/
def start : Progress := ⟨false, [], none⟩

/-- The progress after one more block of the buffer. The init block lets the
    waiting blocks in; a data block waits for it if it did not arrive yet. -/
def receive : Block → Progress
  | .init _ => ⟨true, g.copied ++ g.queue.getD [], none⟩
  | .data d =>
    if g.init then { g with copied := g.copied ++ [d] }
    else { g with queue := some (g.queue.getD [] ++ [d]) }

/-- The data blocks that arrived. -/
def arrived : List DataBlock := g.copied ++ g.queue.getD []

/-- The progress is one of the buffer `b`: each block arrived once at most, and
    none is copied before the init block is there. -/
structure Of (b : SplitBuffer) : Prop where
  subperm : g.arrived.Subperm b.blocks
  copied_eq_nil : g.init = false → g.copied = []

/-- Everything of `b` arrived and is copied. -/
def Complete (b : SplitBuffer) : Prop := g.init = true ∧ g.copied.Perm b.blocks

instance (b : SplitBuffer) : Decidable (g.Complete b) := inferInstanceAs (Decidable (_ ∧ _))

variable {g} {b : SplitBuffer}

theorem Of.copied_subperm (hg : g.Of b) : g.copied.Subperm b.blocks :=
  (List.sublist_append_left _ _).subperm.trans hg.subperm

theorem Of.copied_mem (hg : g.Of b) {d : DataBlock} (hd : d ∈ g.copied) : d ∈ b.blocks :=
  hg.copied_subperm.subset hd

theorem Of.cutFrom (hg : g.Of b) : ∀ p ∈ g.copied.map DataBlock.piece, p.CutFrom b.bytes := by
  intro p hp
  obtain ⟨d, hd, rfl⟩ := List.mem_map.1 hp
  exact b.cut d (hg.copied_mem hd)

/-- What is not copied yet. -/
theorem Of.exists_rest (hg : g.Of b) : ∃ rest, b.blocks.Perm (g.copied ++ rest) := by
  obtain ⟨l, hl, hsub⟩ := hg.copied_subperm
  obtain ⟨rest, hrest⟩ := hsub.exists_perm_append
  exact ⟨rest, hrest.trans (hl.append_right rest)⟩

theorem Of.payloadBytes_le (hg : g.Of b) : payloadBytes g.copied ≤ b.bytes.length := by
  obtain ⟨rest, hrest⟩ := hg.exists_rest
  rw [← b.payloadBytes_blocks, payloadBytes_perm hrest, payloadBytes_append]
  omega

/-- The bytes copied are as many as those of the buffer only if it is complete. -/
theorem Of.payloadBytes_eq_iff (hg : g.Of b) :
    payloadBytes g.copied = b.bytes.length ↔ g.copied.Perm b.blocks := by
  refine ⟨fun h => ?_, fun h => by rw [payloadBytes_perm h, b.payloadBytes_blocks]⟩
  obtain ⟨rest, hrest⟩ := hg.exists_rest
  have hsum : payloadBytes g.copied + payloadBytes rest = b.bytes.length := by
    rw [← payloadBytes_append, ← payloadBytes_perm hrest, b.payloadBytes_blocks]
  cases rest with
  | nil => simpa using hrest.symm
  | cons d rest =>
    -- A block that is missing has a payload, so bytes are missing as well.
    have hd : d ∈ b.blocks := hrest.symm.subset (by simp)
    have hpos := List.length_pos_iff.2 (b.payload_ne_nil d hd)
    have : payloadBytes (d :: rest) = d.payload.length + payloadBytes rest := rfl
    omega

/-- What the blocks `xs` of one buffer come to. -/
theorem arrived_foldl (xs : List Block) : (xs.foldl receive start).arrived =
    xs.filterMap Block.data? ∧ ((xs.foldl receive start).init = true ↔ ∃ i, .init i ∈ xs) ∧
    ((xs.foldl receive start).init = true → (xs.foldl receive start).queue = none) ∧
    ((xs.foldl receive start).init = false → (xs.foldl receive start).copied = []) := by
  induction xs using List.reverseRecOn with
  | nil => simp [start, arrived]
  | append_singleton xs x ih =>
    rw [List.foldl_append, List.foldl_cons, List.foldl_nil, List.filterMap_append]
    set g := xs.foldl receive start
    obtain ⟨harrived, hinit, hqueue, hcopied⟩ := ih
    cases x with
    | init i => simpa [receive, Block.data?, arrived, List.filterMap_cons] using harrived
    | data d =>
      by_cases hg : g.init = true
      · have hq := hqueue hg
        have hi := hinit.1 hg
        simpa [receive, hg, arrived, Block.data?, hq, hi] using harrived
      · have hc := hcopied (by simpa using hg)
        have hi : ¬∃ i, Block.init i ∈ xs := fun h => hg (hinit.2 h)
        simpa [receive, hg, arrived, Block.data?, hc, hi] using harrived

/-- Nothing more arrives of a complete buffer. -/
theorem Complete.not_subperm (hc : g.Complete b) (d : DataBlock) :
    ¬(g.copied ++ [d]).Subperm b.blocks := by
  intro h
  have := h.length_le
  rw [List.length_append, hc.2.length_eq] at this
  simp at this

end Progress

/-! ## Chains -/

/-- A list of buffers with distinct tags. -/
structure Chain where
  buffers : List SplitBuffer
  nodup : (buffers.map SplitBuffer.tag).Nodup

/-- The init block of `b`, after the buffer with the tag `prev`. -/
def SplitBuffer.initBlock (b : SplitBuffer) (prev : Int32) : InitBlock where
  blockSize := UInt32.ofNat sizeofInitBlock
  flag := -1
  bufferSize := UInt32.ofNat b.bytes.length
  tag := b.tag
  prevTag := prev
  lastBlock := false

/-- The blocks of the buffers `bs`, the first of which comes after the buffer
    with the tag `prev`. -/
def chainBlocks : Int32 → List SplitBuffer → List Block
  | _, [] => []
  | prev, b :: bs => .init (b.initBlock prev) :: (b.blocks.map .data ++ chainBlocks b.tag bs)

namespace Chain

variable (c : Chain)

/-- The blocks of the chain: the first buffer comes after no other. -/
def blocks : List Block := chainBlocks noTag c.buffers

/-- The tag that the init block of the `k`-th buffer names. -/
def prevTag : ℕ → Int32
  | 0 => noTag
  | k + 1 => (c.buffers[k]?.map SplitBuffer.tag).getD noTag

/-- The progress of the `k`-th buffer after the blocks `pre` arrived. -/
def progress (pre : List Block) (k : ℕ) : Progress :=
  match c.buffers[k]? with
  | some b => (pre.filter fun x => x.tag = b.tag).foldl Progress.receive .start
  | none => .start

/-- The buffers before the first one some of whose blocks are not in `pre`. -/
def arrivedBuffers (pre : List Block) : List SplitBuffer :=
  c.buffers.takeWhile fun b => ∀ x ∈ c.blocks, x.tag = b.tag → x ∈ pre

variable {c} {k : ℕ} {b : SplitBuffer}

theorem tag_mem_chainBlocks {prev : Int32} {bs : List SplitBuffer} {x : Block}
    (hx : x ∈ chainBlocks prev bs) : x.tag ∈ bs.map SplitBuffer.tag := by
  induction bs generalizing prev with
  | nil => simp [chainBlocks] at hx
  | cons b bs ih =>
    simp only [chainBlocks, List.mem_cons, List.mem_append, List.mem_map] at hx
    rcases hx with rfl | ⟨d, hd, rfl⟩ | hx
    · exact List.mem_cons_self
    · simp [Block.tag, b.block_tag d hd]
    · exact List.mem_cons_of_mem _ (ih hx)

/-- The blocks of a chain are read as what they are. -/
theorem parseBlock_of_mem_chainBlocks (o : ByteOrder) (pad : InitBlock → List UInt8) {prev : Int32}
    {bs : List SplitBuffer} {x : Block} (hx : x ∈ chainBlocks prev bs) :
    parseBlock o (x.bytes o pad) = some x := by
  induction bs generalizing prev with
  | nil => simp [chainBlocks] at hx
  | cons b bs ih =>
    simp only [chainBlocks, List.mem_cons, List.mem_append, List.mem_map] at hx
    rcases hx with rfl | ⟨d, hd, rfl⟩ | hx
    · exact parseBlock_initBytes rfl _
    · exact parseBlock_dataBytes (SplitBuffer.plain hd)
    · exact ih hx

theorem filter_data_blocks (t : Int32) : (b.blocks.map Block.data).filter (fun x => x.tag = t) =
    if b.tag = t then b.blocks.map Block.data else [] := by
  by_cases ht : b.tag = t
  · rw [if_pos ht, List.filter_eq_self]
    intro x hx
    obtain ⟨d, hd, rfl⟩ := List.mem_map.1 hx
    simp [Block.tag, b.block_tag d hd, ht]
  · rw [if_neg ht, List.filter_eq_nil_iff]
    intro x hx
    obtain ⟨d, hd, rfl⟩ := List.mem_map.1 hx
    simp [Block.tag, b.block_tag d hd, ht]

theorem filter_chainBlocks {prev : Int32} {bs : List SplitBuffer}
    (hbs : (bs.map SplitBuffer.tag).Nodup) (hb : bs[k]? = some b) :
    (chainBlocks prev bs).filter (fun x => x.tag = b.tag) =
      .init (b.initBlock (if k = 0 then prev else (bs[k - 1]?.map SplitBuffer.tag).getD noTag)) ::
        b.blocks.map .data := by
  induction bs generalizing prev k with
  | nil => simp at hb
  | cons b' bs ih =>
    obtain ⟨hmem, hbs⟩ := List.nodup_cons.1 hbs
    cases k with
    | zero =>
      obtain rfl : b' = b := by simpa using hb
      have hrest : (chainBlocks b'.tag bs).filter (fun x => x.tag = b'.tag) = [] := by
        rw [List.filter_eq_nil_iff]
        intro x hx he
        exact hmem (of_decide_eq_true he ▸ tag_mem_chainBlocks hx)
      rw [chainBlocks, List.filter_cons_of_pos (by simp [Block.tag, SplitBuffer.initBlock]),
        List.filter_append, filter_data_blocks, if_pos rfl, hrest, if_pos rfl, List.append_nil]
    | succ k =>
      have hb' : bs[k]? = some b := by simpa using hb
      have hne : b'.tag ≠ b.tag := fun he =>
        hmem (he ▸ List.mem_map_of_mem (List.mem_of_getElem? hb'))
      rw [chainBlocks, List.filter_cons_of_neg (by simp [Block.tag, SplitBuffer.initBlock, hne]),
        List.filter_append, filter_data_blocks, if_neg hne, List.nil_append, ih hbs hb']
      cases k <;> simp

/-- The blocks of one buffer of the chain. -/
theorem filter_blocks (hb : c.buffers[k]? = some b) :
    c.blocks.filter (fun x => x.tag = b.tag) =
      .init (b.initBlock (c.prevTag k)) :: b.blocks.map .data := by
  rw [blocks, filter_chainBlocks c.nodup hb]
  cases k <;> simp [prevTag]

theorem exists_of_mem_blocks {x : Block} (hx : x ∈ c.blocks) :
    ∃ (k : ℕ) (b : SplitBuffer), c.buffers[k]? = some b ∧ x.tag = b.tag := by
  obtain ⟨b, hb, htag⟩ := List.mem_map.1 (tag_mem_chainBlocks hx)
  obtain ⟨k, hk⟩ := List.mem_iff_getElem?.1 hb
  exact ⟨k, b, hk, htag.symm⟩

/-! ### Progress of a chain -/

theorem progress_nil : c.progress [] = fun _ => .start := by
  funext k
  cases h : c.buffers[k]? <;> simp [progress, h]

/-- A block is progress of the buffer it is about. -/
theorem progress_concat {pre : List Block} {x : Block} (hb : c.buffers[k]? = some b)
    (hx : x.tag = b.tag) : c.progress (pre ++ [x]) =
      Function.update (c.progress pre) k ((c.progress pre k).receive x) := by
  funext j
  by_cases hj : j = k
  · subst hj
    simp [progress, hb, hx]
  · rw [Function.update_of_ne hj]
    cases hb' : c.buffers[j]? with
    | none => simp [progress, hb']
    | some b' =>
      have hne : b.tag ≠ b'.tag := by
        intro he
        have hlt : k < (c.buffers.map SplitBuffer.tag).length := by
          rw [List.length_map]
          exact (List.getElem?_eq_some_iff.1 hb).1
        exact hj ((List.getElem?_inj hlt c.nodup).1 (by simp [hb, hb', he])).symm
      simp [progress, hb', hx, hne]

variable {pre : List Block} (hpre : pre.Subperm c.blocks)
include hpre

/-- What arrived of a buffer is part of its blocks. -/
theorem filter_subperm (hb : c.buffers[k]? = some b) :
    (pre.filter fun x => x.tag = b.tag).Subperm
      (.init (b.initBlock (c.prevTag k)) :: b.blocks.map .data) :=
  filter_blocks hb ▸ hpre.filter _

theorem filterMap_subperm (hb : c.buffers[k]? = some b) :
    ((pre.filter fun x => x.tag = b.tag).filterMap Block.data?).Subperm b.blocks := by
  obtain ⟨l, hl, hsub⟩ := filter_subperm hpre hb
  refine ⟨_, hl.filterMap _, ?_⟩
  have := hsub.filterMap Block.data?
  simpa [List.filterMap_cons, List.filterMap_map, Block.data?, Function.comp_def] using this

theorem progress_of (hb : c.buffers[k]? = some b) : (c.progress pre k).Of b := by
  obtain ⟨harrived, _, _, hcopied⟩ := Progress.arrived_foldl (pre.filter fun x => x.tag = b.tag)
  simp only [progress, hb]
  exact ⟨harrived ▸ filterMap_subperm hpre hb, hcopied⟩

/-- A buffer is complete when all its blocks arrived. -/
theorem progress_complete_iff (hb : c.buffers[k]? = some b) : (c.progress pre k).Complete b ↔
    ∀ x ∈ c.blocks, x.tag = b.tag → x ∈ pre := by
  have hof := progress_of hpre hb
  obtain ⟨harrived, hinit, hqueue, _⟩ :=
    Progress.arrived_foldl (pre.filter fun x => x.tag = b.tag)
  have hdef : (pre.filter fun x => x.tag = b.tag).foldl Progress.receive .start =
      c.progress pre k := by simp [progress, hb]
  rw [hdef] at harrived hinit hqueue
  -- The blocks of the buffer are its init block and its data blocks.
  have hmem : (∀ x ∈ c.blocks, x.tag = b.tag → x ∈ pre) ↔
      .init (b.initBlock (c.prevTag k)) ∈ pre ∧ ∀ d ∈ b.blocks, .data d ∈ pre := by
    have hfilter : ∀ x, x ∈ c.blocks ∧ x.tag = b.tag ↔
        x = .init (b.initBlock (c.prevTag k)) ∨ ∃ d ∈ b.blocks, .data d = x := by
      intro x
      simpa using congrArg (x ∈ ·) (filter_blocks hb)
    constructor
    · intro h
      refine ⟨?_, fun d hd => ?_⟩
      · exact (fun hx => h _ hx.1 hx.2) ((hfilter _).2 (.inl rfl))
      · exact (fun hx => h _ hx.1 hx.2) ((hfilter _).2 (.inr ⟨d, hd, rfl⟩))
    · rintro ⟨h, h'⟩ x hx htag
      rcases (hfilter x).1 ⟨hx, htag⟩ with rfl | ⟨d, hd, rfl⟩
      · exact h
      · exact h' d hd
  have hinit' : (c.progress pre k).init = true ↔ .init (b.initBlock (c.prevTag k)) ∈ pre := by
    rw [hinit]
    constructor
    · rintro ⟨i, hi⟩
      have hi' := (filter_subperm hpre hb).subset hi
      obtain rfl : i = b.initBlock (c.prevTag k) := by simpa using hi'
      exact List.mem_of_mem_filter hi
    · intro hi
      exact ⟨_, List.mem_filter.2 ⟨hi, by simp [Block.tag, SplitBuffer.initBlock]⟩⟩
  have hdata : ∀ {d}, d ∈ b.blocks → (d ∈ (c.progress pre k).arrived ↔ .data d ∈ pre) := by
    intro d hd
    rw [harrived, List.mem_filterMap]
    constructor
    · rintro ⟨x, hx, hxd⟩
      cases x with
      | init i => simp [Block.data?] at hxd
      | data d' =>
        obtain rfl : d' = d := by simpa [Block.data?] using hxd
        exact List.mem_of_mem_filter hx
    · intro hpre
      exact ⟨_, List.mem_filter.2 ⟨hpre, by simp [Block.tag, b.block_tag d hd]⟩, rfl⟩
  rw [hmem, Progress.Complete, hinit']
  refine and_congr_right fun hi => ?_
  have hqueue' := hqueue (hinit'.2 hi)
  have hcopied : (c.progress pre k).arrived = (c.progress pre k).copied := by
    simp [Progress.arrived, hqueue']
  rw [hcopied] at hdata
  constructor
  · intro hperm d hd
    exact (hdata hd).1 (hperm.symm.subset hd)
  · intro h
    exact hof.copied_subperm.antisymm
      (b.nodup_blocks.subperm fun d hd => (hdata hd).2 (h d hd))

end Chain

end Cse461.Multiplex
