import Cse461.Multiplex.Chain
import Cse461.Multiplex.Replay

/-!
# Bounds

The offset, the length and the size of the buffer of a data block come from
fields of two blocks that the peer fills in. `handle_block` checks none of them:
a block that does not end inside its buffer is copied out of bounds
(`not_runInBounds_pastEnd`).

The calls keep to the bounds of the blocks and of the buffers if every block has the
header it is read with, and the blocks of each tag agree on the buffer (`Measured`): its
data blocks lie within the size that the init block states, and have no more bytes
than that (`runInBounds_of_measured`).

The invariant (`Reader.Bounded`) is one of the single buffers, and of the shares that
the buffers of a tag have in the bytes of its data blocks: what is written to a buffer,
or waits for its init block, and what is left to be handled is no more than all of
them. A data block that is handled moves its bytes from what is left to a buffer. An
init block moves what waits to what is left, as the queue is replayed; it does so for
the only buffer of its tag, as a dummy of a negative tag is not found again.
-/

namespace Cse461.Multiplex

open Library Reader

/-! ## Received blocks -/

/-- The size that the block says it has is that of the block. -/
def Received (o : ByteOrder) (block : List UInt8) : Prop :=
  ∀ size, o.word32 block = some size → size.toNat = block.length

instance (o : ByteOrder) (block : List UInt8) : Decidable (Received o block) :=
  match h : o.word32 block with
  | none => isTrue (by simp [Received, h])
  | some size => decidable_of_iff (size.toNat = block.length) (by simp [Received, h])

/-- The block has its header, and `data_size` is the length of its payload. -/
def DataBlock.WellSized (d : DataBlock) : Prop :=
  sizeofDataBlock ≤ d.blockSize.toNat ∧ d.dataSize.toNat = d.payload.length

/-- The fields that a data block is read to have are in the block. -/
theorem parseBlock_eq_data {o : ByteOrder} {block : List UInt8} {d : DataBlock}
    (hd : parseBlock o block = some (.data d)) : o.word32 block = some d.blockSize ∧
      d.payload = block.drop sizeofDataBlock ∧ sizeofDataBlock ≤ block.length := by
  simp only [parseBlock, Option.bind_eq_bind, Option.bind_eq_some_iff] at hd
  obtain ⟨head, _, hd⟩ := hd
  split at hd
  · simp [Option.bind_eq_some_iff] at hd
  · simp only [Option.bind_eq_some_iff] at hd
    obtain ⟨tag, htag, size, hsize, hd⟩ := hd
    have hlen : ¬(block.drop 8).length < 4 := fun hlt => by
      simp [wordAt, ByteOrder.word32_eq_none_iff.2 hlt] at htag
    obtain rfl := Block.data.inj (Option.some.inj hd)
    refine ⟨by simpa [wordAt] using hsize, rfl, ?_⟩
    rw [List.length_drop] at hlen
    rw [sizeofDataBlock]
    omega

/-- What is received is as long as it says. -/
theorem Received.wellSized {o : ByteOrder} {block : List UInt8} {d : DataBlock}
    (h : Received o block) (hd : parseBlock o block = some (.data d)) : d.WellSized := by
  obtain ⟨hsize, hpayload, hle⟩ := parseBlock_eq_data hd
  have hlen : d.blockSize.toNat = block.length := h _ hsize
  have hle' : UInt32.ofNat sizeofDataBlock ≤ d.blockSize :=
    UInt32.le_iff_toNat_le.2 (by simpa [sizeofDataBlock, hlen] using hle)
  refine ⟨hlen ▸ hle, ?_⟩
  rw [DataBlock.dataSize, UInt32.toNat_sub_of_le _ _ hle', hpayload, List.length_drop, hlen]
  rfl

/-! ## Keeping to the bounds -/

/-- A copy reads bytes of the payload, writes to bytes of the buffer, and counts no
    more of them than there are. -/
def Event.InBounds : Event → Prop
  | .copied _ before d => sizeofDataBlock ≤ d.blockSize.toNat ∧
      d.dataSize.toNat ≤ d.payload.length ∧
      d.seqNumber.toNat + d.dataSize.toNat ≤ before.bufferSize.toNat ∧
      before.nWritten + d.dataSize ≤ before.bufferSize
  | .handled _ _ => True

/-- What the calls copied is in bounds, and so is the count of every buffer. -/
structure Reader.InBounds (r : Reader) : Prop where
  copies : ∀ e ∈ r.log, e.InBounds
  count : ∀ {p b}, r.heap p = some b → b.nWritten ≤ b.bufferSize

/-- Whether the calls return or stop, they kept to the bounds. -/
def RunInBounds (o : ByteOrder) (blocks : List (List UInt8)) : Prop :=
  wp (handleBlocks o blocks) (fun _ r => r.InBounds) (fun e r => e.InBounds ∧ r.InBounds) .empty

/-- The bytes of the data blocks of the tag. -/
def bytesOf (tag : Int32) (ds : List DataBlock) : ℕ := payloadBytes (ds.filter fun d => d.tag = tag)

/-- The data blocks lie in the buffers that the init blocks of their tags announce, and
    those of one tag have no more bytes than the buffer. -/
structure Measured (inits : List InitBlock) (ds : List DataBlock) : Prop where
  place : ∀ i ∈ inits, ∀ d ∈ ds, d.tag = i.tag →
    d.seqNumber.toNat + d.payload.length ≤ i.bufferSize.toNat
  bytes : ∀ i ∈ inits, bytesOf i.tag ds ≤ i.bufferSize.toNat

instance (inits : List InitBlock) (ds : List DataBlock) : Decidable (Measured inits ds) :=
  decidable_of_iff ((∀ i ∈ inits, ∀ d ∈ ds, d.tag = i.tag →
      d.seqNumber.toNat + d.payload.length ≤ i.bufferSize.toNat) ∧
    ∀ i ∈ inits, bytesOf i.tag ds ≤ i.bufferSize.toNat)
    ⟨fun h => ⟨h.1, h.2⟩, fun h => ⟨h.place, h.bytes⟩⟩

section BytesOf

variable {tag : Int32} {d : DataBlock}

@[simp] theorem bytesOf_nil : bytesOf tag [] = 0 := rfl

theorem bytesOf_cons_of_eq (h : d.tag = tag) (ds : List DataBlock) :
    bytesOf tag (d :: ds) = d.payload.length + bytesOf tag ds := by
  simp [bytesOf, payloadBytes, h]

theorem bytesOf_cons_of_ne (h : d.tag ≠ tag) (ds : List DataBlock) :
    bytesOf tag (d :: ds) = bytesOf tag ds := by
  simp [bytesOf, h]

theorem bytesOf_le_cons (ds : List DataBlock) : bytesOf tag ds ≤ bytesOf tag (d :: ds) := by
  by_cases h : d.tag = tag
  · rw [bytesOf_cons_of_eq h]
    exact Nat.le_add_left _ _
  · rw [bytesOf_cons_of_ne h]

theorem bytesOf_append (ds es : List DataBlock) :
    bytesOf tag (ds ++ es) = bytesOf tag ds + bytesOf tag es := by
  rw [bytesOf, List.filter_append, payloadBytes_append]
  rfl

/-- Blocks of another tag have no bytes of this one. -/
theorem bytesOf_eq_zero {ds : List DataBlock} (h : ∀ d ∈ ds, d.tag ≠ tag) : bytesOf tag ds = 0 := by
  rw [bytesOf, List.filter_eq_nil_iff.2 fun d hd => by simpa using h d hd]
  rfl

end BytesOf

/-! ## The invariant -/

/-- What holds of every buffer. -/
structure BufferInfo.Bounded (inits : List InitBlock) (ds : List DataBlock) (b : BufferInfo) :
    Prop where
  length : b.valid = true → b.buffer.length = b.bufferSize.toNat
  announced : b.valid = true → ∃ i ∈ inits, i.tag = b.tag ∧ i.bufferSize = b.bufferSize
  blank : b.valid = false → b.nWritten = 0
  count : b.nWritten ≤ b.bufferSize
  waiting : ∀ {queue}, b.waitingQueue = some queue →
    ∀ d ∈ queue, d ∈ ds ∧ d.WellSized ∧ d.tag = b.tag

/-- The blocks that wait for the init block. -/
def BufferInfo.waiting (b : BufferInfo) : List DataBlock :=
  if b.valid then [] else b.waitingQueue.getD []

/-- The bytes of its tag that are written to the buffer, or wait for its init block. -/
def BufferInfo.share (b : BufferInfo) : ℕ := b.nWritten.toNat + bytesOf b.tag b.waiting

/-- The copies were in bounds, the buffers are bounded, and a dummy has the key of its tag
    as a `uint32_t`. -/
structure Reader.Bounded (inits : List InitBlock) (ds : List DataBlock) (r : Reader) :
    Prop extends r.Filed where
  copies : ∀ e ∈ r.log, e.InBounds
  at_heap : ∀ {p b}, r.heap p = some b → b.Bounded inits ds
  dummyKey : ∀ {key p b}, r.table key = some p → r.heap p = some b → b.valid = false →
    key = wordKey b.tag.toUInt32

/-- The buffers in the table have their shares in the bytes of `ds`, of which the blocks
    `left` are left to be handled. -/
structure Reader.Shares (ds left : List DataBlock) (r : Reader) : Prop where
  received : ∀ d ∈ left, d ∈ ds ∧ d.WellSized
  left_le : ∀ tag, bytesOf tag left ≤ bytesOf tag ds
  share_le : ∀ {key p b}, r.table key = some p → r.heap p = some b →
    b.share + bytesOf b.tag left ≤ bytesOf b.tag ds

/-- The block has its place in the buffer, and is no more than is left to write. -/
def BufferInfo.HasRoom (b : BufferInfo) (d : DataBlock) : Prop :=
  d.seqNumber.toNat + d.dataSize.toNat ≤ b.bufferSize.toNat ∧ b.nWritten + d.dataSize ≤ b.bufferSize

variable {inits : List InitBlock} {ds left : List DataBlock} {r r' : Reader} {p : Ptr}
  {b b' : BufferInfo} {d : DataBlock} {i : InitBlock}

theorem Reader.Bounded.inBounds (h : r.Bounded inits ds) : r.InBounds :=
  ⟨h.copies, fun hb => (h.at_heap hb).count⟩

theorem bounded_empty : Reader.empty.Bounded inits ds where
  toFiled := filed_empty
  copies e he := by simp [empty] at he
  at_heap h := by simp [empty] at h
  dummyKey h := by simp [empty] at h

/-! ### Buffers -/

theorem bounded_dummy {tag nextTag : UInt32} {queue : Option (List DataBlock)}
    (h : ∀ q, queue = some q → ∀ d ∈ q, d ∈ ds ∧ d.WellSized ∧ d.tag = tag.toInt32) :
    (dummy tag nextTag queue).Bounded inits ds where
  length h := by simp [dummy] at h
  announced h := by simp [dummy] at h
  blank _ := rfl
  count := UInt32.le_refl _
  waiting hq := h _ hq

theorem BufferInfo.Bounded.enqueue (h : b.Bounded inits ds)
    (hd : d ∈ ds ∧ d.WellSized ∧ d.tag = b.tag) : (b.enqueue d).Bounded inits ds where
  length := h.length
  announced := h.announced
  blank := h.blank
  count := h.count
  waiting {queue} hqueue d' hd' := by
    obtain rfl : b.waitingQueue.getD [] ++ [d] = queue := Option.some.inj hqueue
    rcases List.mem_append.1 hd' with hd' | hd'
    · cases hq : b.waitingQueue with
      | none => simp [hq] at hd'
      | some queue => exact h.waiting hq d' (by simpa [hq] using hd')
    · obtain rfl : d' = d := by simpa using hd'
      exact hd

/-- A block that the buffer has room for is copied. -/
theorem BufferInfo.Bounded.copy (h : b.Bounded inits ds) (hvalid : b.valid = true)
    (hd : d.WellSized) (hroom : b.HasRoom d) : (b.copy d).Bounded inits ds where
  length _ := by
    have hlen := h.length hvalid
    have hroom := hroom.1
    have htake : (d.payload.take d.dataSize.toNat).length = d.dataSize.toNat := by simp [hd.2]
    exact (length_write (by omega)).trans hlen
  announced := h.announced
  blank hvalid' := absurd hvalid (by simp [show b.valid = false from hvalid'])
  count := hroom.2
  waiting := h.waiting

/-- The init block makes a dummy a buffer with nothing written. -/
theorem BufferInfo.Bounded.init (h : b.Bounded inits ds) (hvalid : b.valid = false)
    (hi : i ∈ inits) (htag : ∀ queue, b.waitingQueue = some queue → b.tag = i.tag) :
    (b.init i).Bounded inits ds where
  length _ := length_fresh _
  announced _ := ⟨i, hi, rfl, rfl⟩
  blank hvalid' := by simp [BufferInfo.init] at hvalid'
  count := by simp [BufferInfo.init, h.blank hvalid]
  waiting {queue} hqueue d hd := by
    have hd := h.waiting hqueue d hd
    exact ⟨hd.1, hd.2.1, hd.2.2.trans (htag queue hqueue)⟩

theorem BufferInfo.HasRoom.fits (hroom : b.HasRoom d) (h : b.Bounded inits ds)
    (hvalid : b.valid = true) (hd : d.WellSized) : b.Fits d :=
  ⟨hd.2.le, by rw [h.length hvalid]; exact hroom.1⟩

namespace Reader.Bounded

theorem set (hr : r.Bounded inits ds) (hb : r.heap p = some b) (hb' : b'.Bounded inits ds)
    (hdummy : b'.valid = false → b.valid = false ∧ b'.tag = b.tag) (hset : (r.set p b').Filed) :
    (r.set p b').Bounded inits ds where
  toFiled := hset
  copies := hr.copies
  at_heap {q c} hc := by
    by_cases hq : q = p
    · subst hq
      obtain rfl : b' = c := by simpa using hc
      exact hb'
    · exact hr.at_heap (p := q) (by simpa [hq] using hc)
  dummyKey {key q c} hkey hc hc' := by
    by_cases hq : q = p
    · subst hq
      obtain rfl : b' = c := by simpa using hc
      obtain ⟨hvalid, htag⟩ := hdummy hc'
      exact htag ▸ hr.dummyKey hkey hb hvalid
    · exact hr.dummyKey (p := q) hkey (by simpa [hq] using hc) hc'

theorem fileNew {key : UInt64} (hr : r.Bounded inits ds) (hb : b.Bounded inits ds)
    (hkey : b.valid = false → key = wordKey b.tag.toUInt32) (hfiled : (r.fileNew key b).Filed) :
    (r.fileNew key b).Bounded inits ds where
  toFiled := hfiled
  copies := hr.copies
  at_heap {q c} hc := by
    by_cases hq : q = r.next
    · subst hq
      obtain rfl : b = c := by simpa using hc
      exact hb
    · exact hr.at_heap (p := q) (by simpa [hq] using hc)
  dummyKey {key' q c} hq hc hc' := by
    by_cases hk : key' = key
    · obtain rfl : r.next = q := by simpa [hk] using hq
      obtain rfl : b = c := by simpa using hc
      exact hk.trans (hkey hc')
    · have hq' : r.table key' = some q := by simpa [hk] using hq
      exact hr.dummyKey hq' (by simpa [hr.table_ne_next hq'] using hc) hc'

/-- A dummy is filed under the key of its tag as a `uint32_t`. -/
theorem fileDummy {tag nextTag : UInt32} {queue : Option (List DataBlock)}
    (hr : r.Bounded inits ds)
    (hqueue : ∀ q, queue = some q → ∀ d ∈ q, d ∈ ds ∧ d.WellSized ∧ d.tag = tag.toInt32)
    (hfiled : (r.fileNew (wordKey tag) (dummy tag nextTag queue)).Filed) :
    (r.fileNew (wordKey tag) (dummy tag nextTag queue)).Bounded inits ds :=
  hr.fileNew (bounded_dummy hqueue) (fun _ => by simp [dummy]) hfiled

theorem copied (hr : r.Bounded inits ds) (hb : r.heap p = some b) (hvalid : b.valid = true)
    (hd : d.WellSized) (hroom : b.HasRoom d) (completed : Bool)
    (hfiled : ((r.record (.copied p b d)).set p { b.copy d with completed }).Filed) :
    ((r.record (.copied p b d)).set p { b.copy d with completed }).Bounded inits ds := by
  have hcopy := (hr.at_heap hb).copy hvalid hd hroom
  have hrecord : (r.record (.copied p b d)).Bounded inits ds := by
    refine ⟨⟨hr.toWellFormed.record _, hr.key, hr.blank⟩, fun e he => ?_, hr.at_heap, hr.dummyKey⟩
    rcases List.mem_append.1 he with he | he
    · exact hr.copies e he
    · obtain rfl : e = .copied p b d := by simpa using he
      exact ⟨hd.1, hd.2.le, hroom⟩
  exact hrecord.set hb ⟨hcopy.length, hcopy.announced, hcopy.blank, hcopy.count, hcopy.waiting⟩
    (fun hvalid' => ⟨hvalid', rfl⟩) hfiled

/-- Finishing a buffer copies nothing, and counts nothing. -/
theorem finishes (hr : r.Bounded inits ds) (h : r.Finishes b r') (hr' : r'.Filed) :
    r'.Bounded inits ds := by
  cases h with
  | frame h =>
    refine ⟨hr', fun e he => ?_, fun hc => ?_, fun hkey hc hc' => ?_⟩
    · cases e with
      | copied q c d => exact hr.copies _ (h.log he)
      | handled q c => trivial
    · obtain ⟨b, hb, hc⟩ := h.heap hc
      obtain ⟨hlength, hannounced, hblank, hcount, hwaiting⟩ := hr.at_heap hb
      rw [hc]
      exact ⟨hlength, hannounced, hblank, hcount, hwaiting⟩
    · obtain ⟨c, hc₀, he⟩ := h.heap hc
      rw [he] at hc' ⊢
      have hkey' := hr.dummyKey (h.table hkey) hc₀ hc'
      exact hkey'
  | file => exact hr.fileDummy (by simp) hr'

/-- A data block that finds room. -/
theorem takes (hr : r.Bounded inits ds) (h : r.Takes d r') (hr' : r'.Filed) (hds : d ∈ ds)
    (hd : d.WellSized)
    (hroom : ∀ {b}, r.entry (intKey d.tag) = some b → b.valid = true → b.HasRoom d) :
    r'.Bounded inits ds := by
  cases h with
  | file _ _ => exact hr.fileDummy (by simpa using ⟨hds, hd⟩) hr'
  | @wait q c r' hc hvalid htag hheap htable hlog =>
    have h := hr.set hc ((hr.at_heap hc).enqueue ⟨hds, hd, htag.symm⟩) (fun _ => ⟨hvalid, rfl⟩)
      (Step.filed (.queue hc) hr.toFiled)
    change r'.heap = (r.set q (c.enqueue d)).heap at hheap
    exact ⟨hr', hlog ▸ h.copies, fun hc' => h.at_heap (hheap ▸ hc'),
      fun hkey hc' => h.dummyKey (htable ▸ hkey) (hheap ▸ hc')⟩
  | copy hp hb hvalid _ hne =>
    exact hr.copied hb hvalid hd (hroom (entry_of_table hp hb) hvalid) _ hr'
  | complete hp hb hvalid hfits hw h =>
    have hcopied := Step.copied hp hb hvalid hfits
    rw [decide_eq_true hw, Bool.or_true] at hcopied
    exact (hr.copied hb hvalid hd (hroom (entry_of_table hp hb) hvalid) true
      (hcopied.filed hr.toFiled)).finishes h hr'

end Reader.Bounded

/-! ### Shares -/

theorem share_of_valid (h : b.valid = true) : b.share = b.nWritten.toNat := by
  simp [BufferInfo.share, BufferInfo.waiting, h]

/-- The bytes of the blocks that wait, as long as the init block did not come. -/
theorem share_of_not_valid (h : b.valid = false) (hblank : b.nWritten = 0) :
    b.share = bytesOf b.tag (b.waitingQueue.getD []) := by
  simp [BufferInfo.share, BufferInfo.waiting, h, hblank]

/-- A data block that is copied is written. -/
theorem share_copy_le (hvalid : b.valid = true) (hd : d.WellSized) (completed : Bool) :
    ({ b.copy d with completed } : BufferInfo).share ≤ b.share + d.payload.length := by
  rw [share_of_valid (b := { b.copy d with completed }) hvalid, share_of_valid hvalid, ← hd.2]
  change (b.nWritten + d.dataSize).toNat ≤ _
  rw [UInt32.toNat_add]
  exact Nat.mod_le _ _

/-- A data block that is queued waits. -/
theorem share_enqueue (hvalid : b.valid = false) (htag : b.tag = d.tag) :
    (b.enqueue d).share = b.share + d.payload.length := by
  simp [BufferInfo.share, BufferInfo.waiting, BufferInfo.enqueue, hvalid, bytesOf_append,
    bytesOf_cons_of_eq htag.symm, Nat.add_assoc]

namespace Reader.Shares

theorem start (h : ∀ d ∈ ds, d.WellSized) : Reader.empty.Shares ds ds where
  received d hd := ⟨hd, h d hd⟩
  left_le _ := Nat.le_refl _
  share_le h := by simp [empty] at h

/-- A block that is taken from those that are left takes up no share. -/
theorem tail (h : r.Shares ds (d :: left)) : r.Shares ds left where
  received d' hd' := h.received d' (List.mem_cons_of_mem _ hd')
  left_le tag := (bytesOf_le_cons left).trans (h.left_le tag)
  share_le hp hb := (Nat.add_le_add_left (bytesOf_le_cons left) _).trans (h.share_le hp hb)

theorem set (h : r.Shares ds left)
    (hb' : ∀ key, r.table key = some p → b'.share + bytesOf b'.tag left ≤ bytesOf b'.tag ds) :
    (r.set p b').Shares ds left where
  received := h.received
  left_le := h.left_le
  share_le {key q c} hq hc := by
    by_cases hqp : q = p
    · subst hqp
      obtain rfl : b' = c := by simpa using hc
      exact hb' key hq
    · exact h.share_le hq (by simpa [hqp] using hc)

theorem fileNew {key : UInt64} (h : r.Shares ds left) (hr : r.WellFormed)
    (hb : b.share + bytesOf b.tag left ≤ bytesOf b.tag ds) : (r.fileNew key b).Shares ds left where
  received := h.received
  left_le := h.left_le
  share_le {key' q c} hq hc := by
    by_cases hk : key' = key
    · obtain rfl : r.next = q := by simpa [hk] using hq
      obtain rfl : b = c := by simpa using hc
      exact hb
    · have hq' : r.table key' = some q := by simpa [hk] using hq
      exact h.share_le hq' (by simpa [hr.table_ne_next hq'] using hc)

/-- A buffer that is filed anew has no share. -/
theorem fileBlank {key : UInt64} (h : r.Shares ds left) (hr : r.WellFormed) (hb : b.share = 0) :
    (r.fileNew key b).Shares ds left :=
  h.fileNew hr (by rw [hb, Nat.zero_add]; exact h.left_le b.tag)

theorem finishes (h : r.Shares ds left) (hr : r.WellFormed) (hfinishes : r.Finishes b r') :
    r'.Shares ds left := by
  cases hfinishes with
  | frame hframe =>
    refine ⟨h.received, h.left_le, fun hp hc => ?_⟩
    obtain ⟨c, hc₀, he⟩ := hframe.heap hc
    have hshare := h.share_le (hframe.table hp) hc₀
    rw [he]
    exact hshare
  | file => exact h.fileBlank hr (by simp [BufferInfo.share, BufferInfo.waiting, dummy])

theorem copied (h : r.Shares ds (d :: left)) (hr : r.Filed) (hp : r.table (intKey d.tag) = some p)
    (hb : r.heap p = some b) (hvalid : b.valid = true) (completed : Bool) :
    ((r.record (.copied p b d)).set p { b.copy d with completed }).Shares ds left := by
  have hrecord : (r.record (.copied p b d)).Shares ds left :=
    ⟨h.tail.received, h.tail.left_le, h.tail.share_le⟩
  refine hrecord.set fun key hkey => ?_
  have hshare := h.share_le hp hb
  rw [bytesOf_cons_of_eq (hr.tag_eq hp hb).symm] at hshare
  have hcopy := share_copy_le hvalid (h.received d List.mem_cons_self).2 completed
  change _ + bytesOf b.tag left ≤ bytesOf b.tag ds
  omega

/-- The block that is handled is copied, or waits. -/
theorem takes (h : r.Shares ds (d :: left)) (hr : r.Filed) (htakes : r.Takes d r') :
    r'.Shares ds left := by
  cases htakes with
  | file _ _ =>
    refine h.tail.fileNew hr.toWellFormed ?_
    have hleft := h.left_le d.tag
    rw [bytesOf_cons_of_eq rfl] at hleft
    simpa [BufferInfo.share, BufferInfo.waiting, dummy, bytesOf_cons_of_eq] using hleft
  | @wait q c r' hc hvalid htag hheap htable _ =>
    have hset : (r.set q (c.enqueue d)).Shares ds left := by
      refine h.tail.set fun key hkey => ?_
      have hshare := h.share_le hkey hc
      rw [bytesOf_cons_of_eq htag.symm] at hshare
      rw [share_enqueue hvalid htag]
      exact (Nat.add_assoc _ _ _).trans_le hshare
    change r'.heap = (r.set q (c.enqueue d)).heap at hheap
    exact ⟨hset.received, hset.left_le,
      fun hkey hc' => hset.share_le (htable ▸ hkey) (hheap ▸ hc')⟩
  | @copy q c hq hc hvalid _ _ => exact h.copied hr hq hc hvalid c.completed
  | @complete q c r' hq hc hvalid hfits hw hfinishes =>
    have hcopied := Step.copied hq hc hvalid hfits
    rw [decide_eq_true hw, Bool.or_true] at hcopied
    exact (h.copied hr hq hc hvalid true).finishes (hcopied.filed hr).toWellFormed hfinishes

/-- The init block of a dummy: what waits for it is left to be handled. No other buffer in
    the table has its tag. -/
theorem init (h : r.Shares ds left) (hr : r.Bounded inits ds)
    (hp : r.table (intKey i.tag) = some p) (hb : r.heap p = some b) (hvalid : b.valid = false) :
    (r.set p (b.init i)).Shares ds (b.waitingQueue.getD [] ++ left) := by
  have hwaiting : ∀ d ∈ b.waitingQueue.getD [], d ∈ ds ∧ d.WellSized ∧ d.tag = b.tag := by
    intro d hd
    cases hqueue : b.waitingQueue with
    | none => simp [hqueue] at hd
    | some queue => exact (hr.at_heap hb).waiting hqueue d (by simpa [hqueue] using hd)
  have htag : b.tag = i.tag := hr.tag_eq hp hb
  have hshare := h.share_le hp hb
  rw [share_of_not_valid hvalid ((hr.at_heap hb).blank hvalid)] at hshare
  have hother : ∀ {tag : Int32}, b.tag ≠ tag → bytesOf tag (b.waitingQueue.getD []) = 0 :=
    fun hne => bytesOf_eq_zero fun d hd heq => hne ((hwaiting d hd).2.2.symm.trans heq)
  refine ⟨fun d hd => ?_, fun tag => ?_, fun {key q c} hq hc => ?_⟩
  · rcases List.mem_append.1 hd with hd | hd
    · exact ⟨(hwaiting d hd).1, (hwaiting d hd).2.1⟩
    · exact h.received d hd
  · rw [bytesOf_append]
    by_cases heq : b.tag = tag
    · exact heq ▸ hshare
    · rw [hother heq, Nat.zero_add]
      exact h.left_le tag
  · rw [bytesOf_append]
    by_cases hqp : q = p
    · subst hqp
      obtain rfl : b.init i = c := by simpa using hc
      rw [share_of_valid (b := b.init i) rfl]
      change b.nWritten.toNat + (bytesOf i.tag _ + bytesOf i.tag left) ≤ bytesOf i.tag ds
      rw [(hr.at_heap hb).blank hvalid, ← htag]
      simpa using hshare
    · have hc : r.heap q = some c := by simpa [hqp] using hc
      -- Another buffer of the tag would have the key of the tag, or that of the dummy; these
      -- are the same, as the dummy was found.
      have hne : b.tag ≠ c.tag := by
        intro heq
        have hdummy : intKey i.tag = wordKey b.tag.toUInt32 := hr.dummyKey hp hb hvalid
        have hkey : key = intKey i.tag := by
          rcases hr.key hq hc with hkey | ⟨hkey, -⟩
          · rw [hkey, ← heq, htag]
          · rw [hkey, ← heq, hdummy]
        exact hqp (Option.some.inj (hq.symm.trans (hkey ▸ hp)))
      rw [hother hne, Nat.zero_add]
      exact h.share_le hq hc

/-- The buffer of its tag has room for the next block. -/
theorem hasRoom (h : r.Shares ds (d :: left)) (hr : r.Bounded inits ds)
    (hmeasured : Measured inits ds) (hb : r.entry (intKey d.tag) = some b)
    (hvalid : b.valid = true) : b.HasRoom d := by
  obtain ⟨p, hp, hb⟩ := entry_eq_some.1 hb
  obtain ⟨hds, hd⟩ := h.received d List.mem_cons_self
  obtain ⟨i, hi, htag, hsize⟩ := (hr.at_heap hb).announced hvalid
  have hbtag : b.tag = d.tag := hr.tag_eq hp hb
  have hplace := hmeasured.place i hi d hds (hbtag.symm.trans htag.symm)
  have hbytes := hmeasured.bytes i hi
  have hshare := h.share_le hp hb
  rw [share_of_valid hvalid, bytesOf_cons_of_eq hbtag.symm] at hshare
  rw [htag] at hbytes
  rw [hsize] at hplace hbytes
  refine ⟨hd.2 ▸ hplace, UInt32.le_iff_toNat_le.2 ?_⟩
  -- The count may wrap around, but then it is even smaller.
  have hmod := Nat.mod_le (b.nWritten.toNat + d.dataSize.toNat) (2 ^ 32)
  rw [UInt32.toNat_add, hd.2] at *
  omega

end Reader.Shares

/-! ## The calls -/

/-- A data block is handled in bounds. -/
theorem wp_handleDataBlock_bounded (hr : r.Bounded inits ds) (hmeasured : Measured inits ds)
    (h : r.Shares ds (d :: left)) :
    wp (handleDataBlock d) (fun _ r' => (r'.Bounded inits ds ∧ r'.Shares ds left) ∧ r.Takes d r')
      (fun e r' => e.InBounds ∧ r'.InBounds) r := by
  obtain ⟨hds, hd⟩ := h.received d List.mem_cons_self
  have hroom : ∀ {b}, r.entry (intKey d.tag) = some b → b.valid = true → b.HasRoom d :=
    h.hasRoom hr hmeasured
  have htakes : wp (handleDataBlock d) (fun _ => r.Takes d)
      (fun e r' => e.InBounds ∧ r.Takes d r') r :=
    wp_handleDataBlock hr.toFiled fun hp hb hvalid =>
      (hroom (entry_of_table hp hb) hvalid).fits (hr.at_heap hb) hvalid hd
  have hfiled := filedFrom hr.toFiled (stepsFrom_handleDataBlock d .refl hr.toFiled)
  exact wp_mono (wp_and htakes hfiled) (fun _ _ ⟨htakes, hr'⟩ =>
      ⟨⟨hr.takes htakes hr' hds hd hroom, h.takes hr.toFiled htakes⟩, htakes⟩)
    fun _ _ ⟨⟨he, htakes⟩, hr'⟩ => ⟨he, (hr.takes htakes hr' hds hd hroom).inBounds⟩

/-- The calls keep the buffers bounded, and their shares. -/
theorem kept_bounded (hmeasured : Measured inits ds) :
    Kept (fun left r => r.Bounded inits ds ∧ r.Shares ds left) (· ∈ inits) (fun _ _ => True)
      fun e r => e.InBounds ∧ r.InBounds where
  filed h := h.1.toFiled
  stop h he := ⟨he, h.1.inBounds⟩
  fileInit {left r i} h hi hp := by
    have hblank : ({ nextTag := noTag } : BufferInfo).Bounded inits ds :=
      ⟨by simp, by simp, by simp, UInt32.le_refl _, by simp⟩
    exact ⟨h.1.fileNew (hblank.init rfl hi (by simp)) (by simp [BufferInfo.init])
      (Step.filed (.fileInit hp) h.1.toFiled), h.2.fileBlank h.1.toWellFormed rfl⟩
  init {left r p b i} h hi hp hb hvalid :=
    ⟨h.1.set hb ((h.1.at_heap hb).init hvalid hi fun _ _ => h.1.tag_eq hp hb)
      (by simp [BufferInfo.init]) (Step.filed (.init hp hb hvalid) h.1.toFiled),
      h.2.init h.1 hp hb hvalid⟩
  queue {left r p b ds' queue} h hb hvalid hqueue hsub := by
    obtain ⟨hlength, hannounced, hblank, hcount, hwaiting⟩ := h.1.at_heap hb
    have hb' : ({ b with waitingQueue := queue } : BufferInfo).Bounded inits ds :=
      ⟨hlength, hannounced, hblank, hcount, fun hq d hd => hwaiting hqueue d (hsub _ hq hd)⟩
    refine ⟨h.1.set hb hb' (fun hvalid' => ⟨hvalid', rfl⟩) (Step.filed (.queue hb) h.1.toFiled),
      h.2.set fun key hkey => ?_⟩
    have hshare := h.2.share_le hkey hb
    rw [share_of_valid hvalid] at hshare
    rw [share_of_valid (b := { b with waitingQueue := queue }) hvalid]
    exact hshare
  data h _ := wp_handleDataBlock_bounded h.1 hmeasured h.2

/-- A data block among the blocks is read from one of them. -/
theorem mem_dataBlocks {o : ByteOrder} {blocks : List (List UInt8)} :
    d ∈ dataBlocks o blocks ↔ ∃ block ∈ blocks, parseBlock o block = some (.data d) := by
  simp only [dataBlocks, List.mem_filterMap]
  constructor
  · rintro ⟨x, ⟨block, hblock, hx⟩, hd⟩
    cases x with
    | init i => exact absurd hd (by simp [Block.data?])
    | data d' =>
      obtain rfl : d' = d := Option.some.inj hd
      exact ⟨block, hblock, hx⟩
  · rintro ⟨block, hblock, hd⟩
    exact ⟨_, ⟨block, hblock, hd⟩, rfl⟩

/-- The calls keep to the bounds if every block has its header, and the blocks of each tag
    agree on the buffer. -/
theorem runInBounds_of_measured {o : ByteOrder} {blocks : List (List UInt8)}
    (hreceived : ∀ block ∈ blocks, Received o block)
    (hheader : ∀ block ∈ blocks, parseBlock o block ≠ none)
    (hmeasured : Measured (initBlocks o blocks) (dataBlocks o blocks)) : RunInBounds o blocks := by
  have hsized : ∀ d ∈ dataBlocks o blocks, d.WellSized := by
    intro d hd
    obtain ⟨block, hblock, hd⟩ := mem_dataBlocks.1 hd
    exact (hreceived block hblock).wellSized hd
  have hinit : ∀ block ∈ blocks, ∀ i, parseBlock o block = some (.init i) →
      i ∈ initBlocks o blocks := fun block hblock i hi =>
    List.mem_filterMap.2 ⟨_, List.mem_filterMap.2 ⟨block, hblock, hi⟩, rfl⟩
  exact wp_mono ((kept_bounded hmeasured).wp_handleBlocks ⟨bounded_empty, .start hsized⟩
    (fun block hblock hnone => absurd hnone (hheader block hblock)) hinit
    (meets_of_forall (fun _ _ => trivial) o blocks .empty))
    (fun _ _ h => h.1.inBounds) fun _ _ h => h

/-- Two data blocks that wait for their init block, and are replayed, and a third one. -/
def waitingFirst : List (List UInt8) :=
  [[14, 0, 0, 0, 1, 0, 0, 0, 5, 0, 0, 0, 7, 8],
   [13, 0, 0, 0, 3, 0, 0, 0, 5, 0, 0, 0, 9],
   [24, 0, 0, 0, 255, 255, 255, 255, 4, 0, 0, 0, 5, 0, 0, 0, 255, 255, 255, 255, 1, 0, 0, 0],
   [13, 0, 0, 0, 0, 0, 0, 0, 5, 0, 0, 0, 6]]

theorem runInBounds_waitingFirst : RunInBounds .little waitingFirst :=
  runInBounds_of_measured (by decide) (by decide) (by decide)

/-- A buffer of two bytes, and a block that is to be copied to the third. -/
def pastEnd : List (List UInt8) :=
  [[24, 0, 0, 0, 255, 255, 255, 255, 2, 0, 0, 0, 5, 0, 0, 0, 255, 255, 255, 255, 1, 0, 0, 0],
   [13, 0, 0, 0, 2, 0, 0, 0, 5, 0, 0, 0, 7]]

/-- `handle_block` copies out of bounds what the peer says is to be copied there. -/
theorem not_runInBounds_pastEnd :
    (∀ block ∈ pastEnd, Received .little block) ∧ ¬RunInBounds .little pastEnd := by
  refine ⟨by decide, fun h => ?_⟩
  have hrun : ∃ r, handleBlocks .little pastEnd .empty = .error .outOfBounds r := ⟨_, rfl⟩
  obtain ⟨r, hr⟩ := hrun
  simp [RunInBounds, wp, hr, Stop.InBounds] at h

end Cse461.Multiplex
