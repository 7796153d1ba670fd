import Cse461.Multiplex.Steps

/-!
# Coverage

`handle_block` takes a buffer for complete when the payloads copied to it have as
many bytes as it has. It counts the bytes of every block, so a block that comes
twice counts twice, and a buffer can be passed to the handler with bytes that
nothing was written to (`handled_uncovered`).

The count is that of the written bytes as long as no block writes to a byte that
was written before (`CopiesApart`). Buffers whose blocks keep to this are passed
to the handler fully covered (`handled_covered`).
-/

namespace Cse461.Multiplex

open Library Reader

/-- No block was copied to the buffer at `p`, as long as that was not complete,
    over bytes that were written before. -/
def CopiesApart (log : List Event) (p : Ptr) : Prop :=
  ∀ before d, .copied p before d ∈ log → before.completed = false →
    Unwritten before.buffer d.seqNumber.toNat d.dataSize.toNat

/-- A data block of the tag was copied to the buffer at `p`, over the index `i`. -/
def CopiedOver (log : List Event) (p : Ptr) (tag : Int32) (i : ℕ) : Prop :=
  ∃ before d, .copied p before d ∈ log ∧ d.tag = tag ∧ d.seqNumber.toNat ≤ i ∧
    i < d.seqNumber.toNat + d.dataSize.toNat

/-- Every byte of the buffer `b`, at `p`, was written, by a data block of its tag. -/
def Covered (log : List Event) (p : Ptr) (b : BufferInfo) : Prop :=
  ∀ i < b.bufferSize.toNat,
    (∃ a, b.buffer[i]? = some (some a)) ∧ CopiedOver log p b.tag i

/-- The state of the buffer `b`, at `p`, tells what was copied to it. -/
structure AccountedAt (log : List Event) (p : Ptr) (b : BufferInfo) : Prop where
  length : b.valid = true → b.buffer.length = b.bufferSize.toNat
  nothing : b.valid = false → b.buffer = [] ∧ b.nWritten = 0
  count : b.completed = false → CopiesApart log p → b.nWritten.toNat = written b.buffer
  full : b.completed = true → CopiesApart log p → ∀ c ∈ b.buffer, c.isSome
  source : ∀ {i a}, b.buffer[i]? = some (some a) → CopiedOver log p b.tag i

/-- Every buffer is accounted for, and those passed to the handler were covered. -/
structure Accounted (r : Reader) : Prop extends r.Filed where
  at_heap : ∀ {p b}, r.heap p = some b → AccountedAt r.log p b
  covered : ∀ {l₁ p b l₂}, r.log = l₁ ++ .handled p b :: l₂ → CopiesApart l₁ p → Covered l₁ p b

variable {r r' : Reader} {p : Ptr} {b b' : BufferInfo} {log log' : List Event}

theorem CopiesApart.mono (h : CopiesApart log' p) (hlog : log <+: log') : CopiesApart log p :=
  fun before d hd => h before d (hlog.subset hd)

theorem CopiedOver.mono {tag : Int32} {i : ℕ} (h : CopiedOver log p tag i) (hlog : log <+: log') :
    CopiedOver log' p tag i := by
  obtain ⟨before, d, hd, hover⟩ := h
  exact ⟨before, d, hlog.subset hd, hover⟩

theorem AccountedAt.mono (h : AccountedAt log p b) (hlog : log <+: log') :
    AccountedAt log' p b where
  length := h.length
  nothing := h.nothing
  count hb hapart := h.count hb (hapart.mono hlog)
  full hb hapart := h.full hb (hapart.mono hlog)
  source hi := (h.source hi).mono hlog

/-- Only the bytes, the count, the size and the tag are accounted for. -/
theorem AccountedAt.congr (h : AccountedAt log p b) (hbuffer : b'.buffer = b.buffer)
    (hsize : b'.bufferSize = b.bufferSize) (hvalid : b'.valid = b.valid) (htag : b'.tag = b.tag)
    (hwritten : b'.nWritten = b.nWritten) (hcompleted : b'.completed = b.completed) :
    AccountedAt log p b' where
  length := by rw [hvalid, hbuffer, hsize]; exact h.length
  nothing := by rw [hvalid, hbuffer, hwritten]; exact h.nothing
  count := by rw [hcompleted, hwritten, hbuffer]; exact h.count
  full := by rw [hcompleted, hbuffer]; exact h.full
  source := by rw [hbuffer, htag]; exact h.source

theorem accountedAt_dummy (tag nextTag : UInt32) (queue : Option (List DataBlock)) :
    AccountedAt log p (dummy tag nextTag queue) where
  length h := by simp [dummy] at h
  nothing _ := ⟨rfl, rfl⟩
  count _ _ := rfl
  full h := by simp [dummy] at h
  source h := by simp [dummy] at h

/-- The init block makes a dummy a buffer to which nothing was written. -/
theorem accountedAt_init {i : InitBlock} (hwritten : b.nWritten = 0) (hcompleted : b.completed = false) :
    AccountedAt log p (b.init i) where
  length _ := length_fresh _
  nothing h := by simp [BufferInfo.init] at h
  count _ _ := by simp [BufferInfo.init, hwritten]
  full h := by simp [BufferInfo.init, hcompleted] at h
  source {j a} h := by
    have hmem : some a ∈ (fresh i.bufferSize.toNat : List (Option UInt8)) :=
      List.mem_of_getElem? h
    simp [fresh] at hmem

/-- A data block that is copied is accounted for. -/
theorem AccountedAt.copied {d : DataBlock} (h : AccountedAt log p b) (hvalid : b.valid = true)
    (hfits : b.Fits d) (htag : d.tag = b.tag) : AccountedAt (log ++ [.copied p b d]) p
      { b.copy d with completed := b.completed || (b.copy d).nWritten = b.bufferSize } := by
  obtain ⟨hpayload, hplace⟩ := hfits
  have hlength := h.length hvalid
  set xs := d.payload.take d.dataSize.toNat with hxs
  have hxlen : xs.length = d.dataSize.toNat := by simp [hxs, hpayload]
  have hlen : (write b.buffer d.seqNumber.toNat xs).length = b.bufferSize.toNat := by
    rw [length_write (by omega), hlength]
  have hold : log <+: log ++ [.copied p b d] := List.prefix_append _ _
  -- The count, if the block keeps apart.
  have hcount : b.completed = false → CopiesApart (log ++ [.copied p b d]) p →
      (b.nWritten + d.dataSize).toNat = written (write b.buffer d.seqNumber.toNat xs) := by
    intro hcompleted hapart
    have hunwritten := hapart b d (by simp) hcompleted
    rw [← hxlen] at hunwritten
    have hwritten := written_write hunwritten
    have hle := written_le (write b.buffer d.seqNumber.toNat xs)
    have hlt := b.bufferSize.toNat_lt
    rw [UInt32.toNat_add, h.count hcompleted (hapart.mono hold), Nat.mod_eq_of_lt (by omega)]
    omega
  refine ⟨fun _ => hlen, fun hv => ?_, fun hc hapart => ?_, fun hc hapart => ?_, fun {i a} hi => ?_⟩
  · exact absurd (hvalid.symm.trans hv) (by simp)
  · exact hcount (Bool.or_eq_false_iff.1 hc).1 hapart
  · cases hcompleted : b.completed with
    | true => exact all_isSome_write (h.full hcompleted (hapart.mono hold))
    | false =>
      have hsize : b.nWritten + d.dataSize = b.bufferSize := by
        simpa [hcompleted, BufferInfo.copy] using hc
      refine written_eq_length.1 ?_
      change written (write b.buffer d.seqNumber.toNat xs) =
        (write b.buffer d.seqNumber.toNat xs).length
      rw [hlen, ← hcount hcompleted hapart, hsize]
  · have hi' : (write b.buffer d.seqNumber.toNat xs)[i]? = some (some a) := hi
    rw [getElem?_write (by omega)] at hi'
    split at hi'
    · next hin => exact ⟨b, d, by simp, htag, hin.1, by omega⟩
    · exact (h.source hi').mono hold

/-- One buffer is overwritten, and the log stays. -/
theorem Accounted.set (hr : Accounted r) (hfiled : (r.set p b').Filed)
    (hat : AccountedAt r.log p b') : Accounted (r.set p b') where
  toFiled := hfiled
  at_heap {q c} hc := by
    by_cases hqp : q = p
    · subst hqp
      obtain rfl : b' = c := by simpa using hc
      exact hat
    · exact hr.at_heap (by simpa [hqp] using hc)
  covered := hr.covered

theorem Accounted.fileNew {key : UInt64} (hr : Accounted r) (hfiled : (r.fileNew key b).Filed)
    (hat : AccountedAt r.log r.next b) : Accounted (r.fileNew key b) where
  toFiled := hfiled
  at_heap {q c} hc := by
    by_cases hq : q = r.next
    · subst hq
      obtain rfl : b = c := by simpa using hc
      exact hat
    · exact hr.at_heap (by simpa [hq] using hc)
  covered := hr.covered

/-- A step keeps the accounts. -/
theorem Reader.Step.accounted (h : r.Step r') (hr : Accounted r) : Accounted r' := by
  have hfiled := h.filed hr.toFiled
  cases h with
  | fileDummy _ => exact hr.fileNew hfiled (accountedAt_dummy _ _ _)
  | fileInit _ => exact hr.fileNew hfiled (accountedAt_init rfl rfl)
  | reserve => exact ⟨hfiled, hr.at_heap, hr.covered⟩
  | init _ hb hvalid =>
    exact hr.set hfiled (accountedAt_init ((hr.at_heap hb).nothing hvalid).2 (hr.blank hb hvalid).1)
  | queue hb => exact hr.set hfiled ((hr.at_heap hb).congr rfl rfl rfl rfl rfl rfl)
  | link hb _ => exact hr.set hfiled ((hr.at_heap hb).congr rfl rfl rfl rfl rfl rfl)
  | sent hb _ _ => exact hr.set hfiled ((hr.at_heap hb).congr rfl rfl rfl rfl rfl rfl)
  | remove => exact ⟨hfiled, hr.at_heap, hr.covered⟩
  | @free p _ =>
    refine ⟨hfiled, fun {q c} hc => hr.at_heap (p := q) ?_, hr.covered⟩
    by_cases hqp : q = p
    · simp [Reader.free, hqp] at hc
    · simpa [Reader.free, hqp] using hc
  | @copied p b d hp hb hvalid hfits =>
    have htag := (hr.tag_eq hp hb).symm
    have hold : r.log <+: r.log ++ [.copied p b d] := List.prefix_append _ _
    refine ⟨hfiled, fun {q c} hc => ?_, fun {l₁ q c l₂} hlog hapart => ?_⟩
    · by_cases hqp : q = p
      · subst hqp
        obtain rfl : _ = c := by simpa using hc
        exact (hr.at_heap hb).copied hvalid hfits htag
      · exact (hr.at_heap (by simpa [hqp] using hc)).mono hold
    · rcases append_singleton_eq_append_cons hlog with ⟨_, he, _⟩ | ⟨l₃, _, hlog'⟩
      · exact absurd he (by simp)
      · exact hr.covered hlog' hapart
  | @handled p b hb hcompleted =>
    have hold : r.log <+: r.log ++ [.handled p b] := List.prefix_append _ _
    refine ⟨hfiled, fun hc => (hr.at_heap hc).mono hold, fun {l₁ q c l₂} hlog hapart => ?_⟩
    rcases append_singleton_eq_append_cons hlog with ⟨rfl, he, _⟩ | ⟨l₃, _, hlog'⟩
    · obtain ⟨rfl, rfl⟩ : p = q ∧ b = c := by simpa using he
      have hat := hr.at_heap hb
      have hvalid : b.valid = true := by
        by_contra hv
        exact absurd (hcompleted.symm.trans (hr.blank hb (by simpa using hv)).1) (by simp)
      intro i hi
      rw [← hat.length hvalid] at hi
      obtain ⟨a, ha⟩ := Option.isSome_iff_exists.1
        (hat.full hcompleted hapart _ (List.getElem_mem hi))
      have hget : b.buffer[i]? = some (some a) := by rw [List.getElem?_eq_getElem hi, ha]
      exact ⟨⟨a, hget⟩, hat.source hget⟩
    · exact hr.covered hlog' hapart

theorem accounted_empty : Accounted Reader.empty where
  toFiled := filed_empty
  at_heap h := by simp [Reader.empty] at h
  covered h := by simp [Reader.empty] at h

/-- Whatever blocks arrive: a buffer that is passed to the handler is fully
    covered by data blocks of its tag, if those that were copied to it before it
    was complete kept apart. -/
theorem handled_covered (o : ByteOrder) (blocks : List (List UInt8)) {l₁ l₂ : List Event} {p : Ptr}
    {b : BufferInfo}
    (hlog : (finalState (handleBlocks o blocks) Reader.empty).log = l₁ ++ .handled p b :: l₂)
    (hapart : CopiesApart l₁ p) : Covered l₁ p b := by
  have hsteps := finalState_of_wp (stepsFrom_handleBlocks o blocks filed_empty)
  exact (hsteps.invariant Step.accounted accounted_empty).covered hlog hapart

/-- The init block of a buffer of two bytes. -/
def twoBytes : List UInt8 := InitBlock.bytes .little [0, 0, 0] ⟨24, -1, 2, 0, -1, false⟩

/-- The data block with the byte at the index `i`. -/
def oneByte (i : UInt32) : DataBlock := ⟨13, i, 0, [7]⟩

/-- The buffer of `twoBytes`, with the cells `buffer`, `n` of them counted. -/
def twoBytesInfo (buffer : List (Option UInt8)) (n : UInt32) : BufferInfo :=
  { buffer, bufferSize := 2, completed := n = 2, nWritten := n, prevTag := -1, valid := true,
    nextTag := -1 }

/-- Both bytes once each. -/
theorem handled_covered_two :
    Covered [.copied 0 (twoBytesInfo [none, none] 0) (oneByte 1),
      .copied 0 (twoBytesInfo [none, some 7] 1) (oneByte 0)] 0
      (twoBytesInfo [some 7, some 7] 2) := by
  have hlog : (finalState (handleBlocks .little
      [twoBytes, (oneByte 1).bytes .little, (oneByte 0).bytes .little]) Reader.empty).log =
      [.copied 0 (twoBytesInfo [none, none] 0) (oneByte 1),
        .copied 0 (twoBytesInfo [none, some 7] 1) (oneByte 0)] ++
      .handled 0 (twoBytesInfo [some 7, some 7] 2) :: [] := by decide
  refine handled_covered .little _ hlog fun before d hd _ => ?_
  simp only [List.mem_cons, List.not_mem_nil, or_false, Event.copied.injEq, true_and] at hd
  rcases hd with ⟨rfl, rfl⟩ | ⟨rfl, rfl⟩
  · decide +kernel
  · decide +kernel

/-- The second byte twice: the first is passed to the handler as it was allocated. -/
theorem handled_uncovered : ∃ l₁ p b l₂,
    (finalState (handleBlocks .little [twoBytes, (oneByte 1).bytes .little,
      (oneByte 1).bytes .little]) Reader.empty).log = l₁ ++ .handled p b :: l₂ ∧
    ¬Covered l₁ p b := by
  refine ⟨[.copied 0 (twoBytesInfo [none, none] 0) (oneByte 1),
    .copied 0 (twoBytesInfo [none, some 7] 1) (oneByte 1)], 0, twoBytesInfo [none, some 7] 2, [],
    by decide, fun h => ?_⟩
  obtain ⟨⟨a, ha⟩, _⟩ := h 0 (by decide)
  simp [twoBytesInfo] at ha

end Cse461.Multiplex
