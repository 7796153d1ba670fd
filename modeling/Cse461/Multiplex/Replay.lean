import Cse461.Multiplex.Steps

/-!
# What a call leaves alone

The cases of a data block, each with the state it comes to, and what finishing a
buffer leaves alone (`Reader.Frame`): the fields of the buffers but `sent` and
`next_tag`, and the entries, of which it removes some. If the buffer before is
not known, a dummy is made for it instead (`Reader.Finishes`). What a data block
comes to is `Reader.Takes`.

A data block is handled when it is received, or out of a waiting queue. `Meets` is
the condition that every data block is handled in a state as it should be, and
`Kept.wp_handleBlocks` the rule for such runs: an invariant has to be kept by the
handling of one data block, and by an init block before the queue is replayed. It may
speak of the data blocks that are left to be handled.
-/

namespace Cse461.Multiplex

open Library Reader

/-- Add a block to the waiting queue of a buffer. -/
def BufferInfo.enqueue (b : BufferInfo) (d : DataBlock) : BufferInfo :=
  { b with waitingQueue := some (b.waitingQueue.getD [] ++ [d]) }

/-- The next address is used up. -/
def Reader.reserve (r : Reader) : Reader := { r with next := r.next + 1 }

variable {r r₁ r' : Reader} {p q : Ptr} {b c : BufferInfo} {d : DataBlock}
  {Q : PUnit → Reader → Prop} {E : Stop → Reader → Prop}

/-! ## Data blocks -/

/-- The first block of a tag makes a dummy. -/
theorem wp_handleDataBlock_file (hnone : r.table (intKey d.tag) = none)
    (hnone' : r.table (wordKey d.tag.toUInt32) = none) :
    wp (handleDataBlock d) Q E r ↔ Q ⟨⟩ (r.fileNew (wordKey d.tag.toUInt32)
      (dummy d.tag.toUInt32 noTag.toUInt32 (some [d]))) := by
  rw [handleDataBlock, wp_bind, wp_lookupHashTable, hnone]
  simp only [wp_bind]
  rw [wp_insertDummyBuffer hnone']
  exact Iff.rfl

theorem wp_insertDummyBuffer_reserve {tag nextTag : UInt32} {queue : Option (List DataBlock)}
    {Q : Bool × Ptr → Reader → Prop} (hr : r.WellFormed) (hq : r.table (wordKey tag) = some q) :
    wp (insertDummyBuffer tag nextTag queue) Q E r ↔ Q (false, q) r.reserve :=
  wp_insertDummyBuffer_of_some hr hq

/-- A dummy that is found only where one is to be made gets the block. -/
theorem wp_handleDataBlock_join (hr : r.WellFormed) (hnone : r.table (intKey d.tag) = none)
    (hq : r.table (wordKey d.tag.toUInt32) = some q) (hc : r.heap q = some c)
    (hvalid : c.valid = false) :
    wp (handleDataBlock d) Q E r ↔ Q ⟨⟩ (r.reserve.set q (c.enqueue d)) := by
  rw [handleDataBlock, wp_bind, wp_lookupHashTable, hnone]
  simp only [wp_bind]
  rw [wp_insertDummyBuffer_reserve hr hq, if_neg (by simp)]
  dsimp only
  rw [wp_bind, wp_load (r := r.reserve) hc, if_neg (by simp [hvalid]),
    wp_update (r := r.reserve) _ hc]
  exact Iff.rfl

/-- A dummy that is found gets the block. -/
theorem wp_handleDataBlock_wait (hp : r.table (intKey d.tag) = some p) (hb : r.heap p = some b)
    (hvalid : b.valid = false) :
    wp (handleDataBlock d) Q E r ↔ Q ⟨⟩ (r.set p (b.enqueue d)) := by
  rw [handleDataBlock, wp_bind, wp_lookupHashTable, hp]
  simp only [wp_bind]
  rw [wp_load hb, if_neg (by simp [hvalid]), wp_update _ hb]
  exact Iff.rfl

/-- To a buffer whose init block arrived, the block is copied. -/
theorem wp_handleDataBlock_copy (hp : r.table (intKey d.tag) = some p) (hb : r.heap p = some b)
    (hvalid : b.valid = true) :
    wp (handleDataBlock d) Q E r ↔ wp (copyData p (some p) d) Q E r := by
  rw [handleDataBlock, wp_bind, wp_lookupHashTable, hp]
  simp only [wp_bind]
  rw [wp_load hb, if_pos hvalid]

/-! ## Finishing -/

/-- Nothing is new, and a buffer that is left is as it was, but for `sent` and
    `next_tag`. -/
structure Reader.Frame (r r' : Reader) : Prop where
  heap : ∀ {p b'}, r'.heap p = some b' →
    ∃ b, r.heap p = some b ∧ b' = { b with sent := b'.sent, nextTag := b'.nextTag }
  table : ∀ {key p}, r'.table key = some p → r.table key = some p
  log : ∀ {p b d}, .copied p b d ∈ r'.log → .copied p b d ∈ r.log

namespace Reader.Frame

theorem refl (r : Reader) : r.Frame r := ⟨fun h => ⟨_, h, rfl⟩, fun h => h, fun h => h⟩

theorem trans (h : r.Frame r₁) (h' : r₁.Frame r') : r.Frame r' where
  heap hb' := by
    obtain ⟨b₁, hb₁, he'⟩ := h'.heap hb'
    obtain ⟨b, hb, he⟩ := h.heap hb₁
    refine ⟨b, hb, ?_⟩
    rw [he', he]
  table hp := h.table (h'.table hp)
  log hd := h.log (h'.log hd)

theorem set (hb : r.heap p = some b) (sent : Bool) (nextTag : Int32) :
    r.Frame (r.set p { b with sent, nextTag }) where
  heap {q c} hc := by
    by_cases hq : q = p
    · subst hq
      obtain rfl : { b with sent, nextTag } = c := by simpa using hc
      exact ⟨b, hb, rfl⟩
    · exact ⟨c, by simpa [hq] using hc, rfl⟩
  table hp := hp
  log hd := hd

theorem handled (p : Ptr) (b : BufferInfo) : r.Frame (r.record (.handled p b)) where
  heap h := ⟨_, h, rfl⟩
  table h := h
  log h := by simpa using h

theorem remove (key : UInt64) : r.Frame (r.remove key) where
  heap h := ⟨_, h, rfl⟩
  table {key' p} h := by
    by_cases hk : key' = key
    · simp [hk] at h
    · simpa [hk] using h
  log h := h

theorem free (p : Ptr) : r.Frame (r.free p) where
  heap {q c} hc := by
    by_cases hq : q = p
    · simp [Reader.free, hq] at hc
    · exact ⟨c, by simpa [Reader.free, hq] using hc, rfl⟩
  table h := h
  log h := h

end Reader.Frame

/-- The reason is no access out of bounds. -/
def Stop.InBounds (e : Stop) : Prop := e ≠ .outOfBounds ∧ e ≠ .truncated

instance (e : Stop) : Decidable e.InBounds := inferInstanceAs (Decidable (_ ∧ _))

/-- Whether it returns or stops, the call keeps to the frame, and to the bounds. -/
abbrev FrameFrom {α : Type} (r : Reader) (x : ReaderM α) (s : Reader) : Prop :=
  wp x (fun _ => r.Frame) (fun e s' => e.InBounds ∧ r.Frame s') s

theorem FrameFrom.trans {α : Type} {x : ReaderM α} (h : r.Frame r₁) (hx : FrameFrom r₁ x r₁) :
    FrameFrom r x r₁ :=
  wp_mono hx (fun _ _ => h.trans) fun _ _ ⟨he, h'⟩ => ⟨he, h.trans h'⟩

theorem FrameFrom.load {α : Type} {f : BufferInfo → ReaderM α} (h : r.Frame r₁)
    (hf : ∀ b, r₁.heap p = some b → FrameFrom r (f b) r₁) :
    FrameFrom r (Multiplex.load p >>= f) r₁ := by
  rw [FrameFrom, wp_bind, wp_load_iff]
  exact ⟨hf, fun _ => ⟨by decide, h⟩⟩

theorem frameFrom_markSent (h : r.Frame r₁) (p : Ptr) : FrameFrom r (markSent p) r₁ :=
  .load h fun b hb => h.trans (.set hb true b.nextTag)

theorem frameFrom_handleFinishedBufferNext (depth : ℕ) (r : Reader) (p : Ptr) :
    FrameFrom r (handleFinishedBufferNext depth p) r := by
  induction depth generalizing p r with
  | zero => exact ⟨by decide, .refl r⟩
  | succ depth ih =>
    rw [handleFinishedBufferNext, callHandler]
    simp only [bind_assoc]
    refine .load (.refl r) fun b _ => ?_
    have h₁ : r.Frame (r.record (.handled p b)) := .handled p b
    rw [FrameFrom, wp_bind, wp_modify]
    refine FrameFrom.load h₁ fun b' _ => ?_
    rw [FrameFrom, wp_bind, wp_lookupNext]
    cases (r.record (.handled p b)).follow b' with
    | none => exact frameFrom_markSent h₁ p
    | some q =>
      refine FrameFrom.load h₁ fun c _ => ?_
      by_cases hcompleted : c.completed = true
      · rw [if_pos hcompleted, FrameFrom, wp_bind]
        refine wp_mono (ih _ q) (fun _ r₂ h₂ => ?_) fun _ _ h => ⟨h.1, h₁.trans h.2⟩
        refine FrameFrom.load (h₁.trans h₂) fun b'' _ => ?_
        rw [FrameFrom, wp_bind, wp_removeFromHashTable]
        exact frameFrom_markSent ((h₁.trans h₂).trans (.remove _)) p
      · rw [if_neg hcompleted]
        exact frameFrom_markSent h₁ p

theorem frameFrom_sendBuffer (h : r.Frame r₁) (p : Ptr) : FrameFrom r (sendBuffer p) r₁ :=
  .trans h (frameFrom_handleFinishedBufferNext _ r₁ p)

/-- If the buffer before is known, or there is none, nothing is new. -/
theorem frameFrom_handleFinishedBufferPrev (hb : r.heap p = some b)
    (hprev : b.prevTag = noTag ∨ r.table (intKey b.prevTag) = some q) :
    FrameFrom r (handleFinishedBufferPrev p) r := by
  rw [FrameFrom, handleFinishedBufferPrev, wp_bind, wp_load hb]
  by_cases hno : b.prevTag = noTag
  · rw [if_neg (by simp [hno])]
    exact frameFrom_sendBuffer (.refl r) p
  · rw [if_pos hno, wp_bind, wp_lookupPrev (hprev.resolve_left hno)]
    refine FrameFrom.load (.refl r) fun c hc => ?_
    by_cases hsent : c.sent = true
    · rw [if_pos hsent, FrameFrom, wp_bind, wp_removeFromHashTable, wp_bind]
      rw [wp_free (r := r.remove _) hc]
      exact frameFrom_sendBuffer ((Frame.remove _).trans (.free q)) p
    · rw [if_neg hsent, FrameFrom, wp_update _ hc]
      exact .set hc c.sent b.tag

/-- For a buffer before that is not known, a dummy is filed. -/
theorem wp_handleFinishedBufferPrev_file (hb : r.heap p = some b) (hno : b.prevTag ≠ noTag)
    (hnone : r.table (intKey b.prevTag) = none)
    (hnone' : r.table (wordKey b.prevTag.toUInt32) = none) :
    wp (handleFinishedBufferPrev p) Q E r ↔ Q ⟨⟩ (r.fileNew (wordKey b.prevTag.toUInt32)
      (dummy b.prevTag.toUInt32 b.tag.toUInt32 none)) := by
  have hfiled : ∀ key d, (r.fileNew key d).heap r.next = some d := by simp
  have hself : (r.fileNew (wordKey b.prevTag.toUInt32)
      (dummy b.prevTag.toUInt32 b.tag.toUInt32 none)).set r.next
        { dummy b.prevTag.toUInt32 b.tag.toUInt32 none with nextTag := b.tag } =
      r.fileNew (wordKey b.prevTag.toUInt32) (dummy b.prevTag.toUInt32 b.tag.toUInt32 none) := by
    simp [Reader.set, fileNew, alloc, Reader.insert, dummy]
  rw [handleFinishedBufferPrev, wp_bind, wp_load hb, if_pos hno, wp_bind, lookupPrev, wp_bind,
    wp_lookupHashTable, hnone, wp_bind, wp_insertDummyBuffer hnone', wp_pure, wp_bind,
    wp_load (hfiled _ _), if_neg (by simp [dummy]), wp_update _ (hfiled _ _), hself]

/-- A dummy that is found only where one is to be made gets to know this one. -/
theorem wp_handleFinishedBufferPrev_join (hr : r.WellFormed) (hb : r.heap p = some b)
    (hno : b.prevTag ≠ noTag) (hnone : r.table (intKey b.prevTag) = none)
    (hq : r.table (wordKey b.prevTag.toUInt32) = some q) (hc : r.heap q = some c)
    (hsent : c.sent = false) :
    wp (handleFinishedBufferPrev p) Q E r ↔
      Q ⟨⟩ (r.reserve.set q { c with nextTag := b.tag }) := by
  rw [handleFinishedBufferPrev, wp_bind, wp_load hb, if_pos hno, wp_bind, lookupPrev, wp_bind,
    wp_lookupHashTable, hnone, wp_bind, wp_insertDummyBuffer_reserve hr hq, wp_pure]
  dsimp only
  rw [wp_bind, wp_load (r := r.reserve) hc, if_neg (by simp [hsent]),
    wp_update (r := r.reserve) _ hc]

/-- What finishing the buffer `b` comes to: nothing new, or else a dummy for the
    buffer before. -/
inductive Reader.Finishes (r : Reader) (b : BufferInfo) : Reader → Prop
  | frame {r' : Reader} : r.Frame r' → Finishes r b r'
  | file : b.prevTag ≠ noTag → r.table (intKey b.prevTag) = none →
      r.table (wordKey b.prevTag.toUInt32) = none →
      Finishes r b (r.fileNew (wordKey b.prevTag.toUInt32)
        (dummy b.prevTag.toUInt32 b.tag.toUInt32 none))

theorem wp_handleFinishedBufferPrev (hr : r.Filed) (hb : r.heap p = some b) :
    wp (handleFinishedBufferPrev p) (fun _ => r.Finishes b)
      (fun e r' => e.InBounds ∧ r.Finishes b r') r := by
  have hframe : FrameFrom r (handleFinishedBufferPrev p) r →
      wp (handleFinishedBufferPrev p) (fun _ => r.Finishes b)
        (fun e r' => e.InBounds ∧ r.Finishes b r') r := fun h =>
    wp_mono h (fun _ _ => .frame) fun _ _ ⟨he, h⟩ => ⟨he, .frame h⟩
  by_cases hno : b.prevTag = noTag
  · exact hframe (frameFrom_handleFinishedBufferPrev (q := p) hb (.inl hno))
  cases hq : r.table (intKey b.prevTag) with
  | some q => exact hframe (frameFrom_handleFinishedBufferPrev hb (.inr hq))
  | none =>
    cases hq' : r.table (wordKey b.prevTag.toUInt32) with
    | none =>
      rw [wp_handleFinishedBufferPrev_file hb hno hq hq']
      exact .file hno hq hq'
    | some q =>
      obtain ⟨c, hc⟩ := hr.live hq'
      have hvalid := hr.valid_eq_false hq hq' hc
      rw [wp_handleFinishedBufferPrev_join hr.toWellFormed hb hno hq hq' hc (hr.blank hc hvalid).2]
      obtain ⟨hheap, htable, hlog⟩ := Frame.set hc c.sent b.tag
      exact .frame ⟨hheap, htable, hlog⟩

/-- Only the tags of the buffer matter. -/
theorem Reader.Finishes.congr (h : r.Finishes b r') (htag : c.tag = b.tag)
    (hprev : c.prevTag = b.prevTag) : r.Finishes c r' := by
  cases h with
  | frame h => exact .frame h
  | file hno hnone hnone' =>
    rw [← htag, ← hprev]
    rw [← hprev] at hno hnone hnone'
    exact .file hno hnone hnone'

/-- What a data block comes to. -/
inductive Reader.Takes (r : Reader) (d : DataBlock) : Reader → Prop
  /-- A dummy is made for it. -/
  | file : r.table (intKey d.tag) = none → r.table (wordKey d.tag.toUInt32) = none →
      Takes r d (r.fileNew (wordKey d.tag.toUInt32)
        (dummy d.tag.toUInt32 noTag.toUInt32 (some [d])))
  /-- It is added to the queue of a dummy. -/
  | wait {q : Ptr} {c : BufferInfo} {r' : Reader} : r.heap q = some c → c.valid = false →
      c.tag = d.tag → r'.heap = Function.update r.heap q (some (c.enqueue d)) →
      r'.table = r.table → r'.log = r.log → Takes r d r'
  /-- It is copied to the buffer of its tag. -/
  | copy {p : Ptr} {b : BufferInfo} : r.table (intKey d.tag) = some p → r.heap p = some b →
      b.valid = true → b.Fits d → (b.copy d).nWritten ≠ b.bufferSize →
      Takes r d ((r.record (.copied p b d)).set p (b.copy d))
  /-- It is copied to the buffer of its tag, which it completes. -/
  | complete {p : Ptr} {b : BufferInfo} {r' : Reader} : r.table (intKey d.tag) = some p →
      r.heap p = some b → b.valid = true → b.Fits d → (b.copy d).nWritten = b.bufferSize →
      ((r.record (.copied p b d)).set p { b.copy d with completed := true }).Finishes (b.copy d) r' →
      Takes r d r'

/-- The call on a data block, if it fits the buffer it is copied to. -/
theorem wp_handleDataBlock (hr : r.Filed) (hfits : ∀ {p b}, r.table (intKey d.tag) = some p →
      r.heap p = some b → b.valid = true → b.Fits d) :
    wp (handleDataBlock d) (fun _ => r.Takes d) (fun e r' => e.InBounds ∧ r.Takes d r') r := by
  cases hp : r.table (intKey d.tag) with
  | none =>
    cases hq : r.table (wordKey d.tag.toUInt32) with
    | none =>
      rw [wp_handleDataBlock_file hp hq]
      exact .file hp hq
    | some q =>
      obtain ⟨c, hc⟩ := hr.live hq
      have hvalid := hr.valid_eq_false hp hq hc
      have htag : c.tag = d.tag := by
        rcases hr.key hq hc with h | ⟨h, _⟩
        · exact (wordKey_eq_intKey_iff.1 h).1.symm
        · exact (by simpa using congrArg UInt32.toInt32 (wordKey_injective h) : d.tag = c.tag).symm
      rw [wp_handleDataBlock_join hr.toWellFormed hp hq hc hvalid]
      exact .wait hc hvalid htag rfl rfl rfl
  | some p =>
    obtain ⟨b, hb⟩ := hr.live hp
    by_cases hvalid : b.valid = true
    · have hd := hfits hp hb hvalid
      rw [wp_handleDataBlock_copy hp hb hvalid, wp_copyData hb hd]
      refine ⟨fun hw => ?_, fun hw => .copy hp hb hvalid hd hw⟩
      have hset : r.Steps ((r.record (.copied p b d)).set p { b.copy d with completed := true }) := by
        have hcopied := Step.copied hp hb hvalid hd
        rw [decide_eq_true hw, Bool.or_true] at hcopied
        exact .single hcopied
      exact wp_mono (wp_handleFinishedBufferPrev (hset.filed hr) (heap_set_self _ _ _))
        (fun _ _ h => .complete hp hb hvalid hd hw (h.congr rfl rfl))
        fun _ _ ⟨he, h⟩ => ⟨he, .complete hp hb hvalid hd hw (h.congr rfl rfl)⟩
    · have hvalid' : b.valid = false := by simpa using hvalid
      rw [wp_handleDataBlock_wait hp hb hvalid']
      exact .wait hb hvalid' (hr.tag_eq hp hb) rfl rfl rfl

/-- Where steps lead to, the table is in order. -/
theorem filedFrom {α : Type} {x : ReaderM α} (hr : r.Filed) (h : StepsFrom r x r) :
    wp x (fun _ => Filed) (fun _ => Filed) r :=
  wp_mono h (fun _ _ h => h.filed hr) fun _ _ h => h.filed hr

/-- The queue of a buffer whose init block arrived is left alone. -/
theorem Reader.Finishes.waitingQueue_eq {done : BufferInfo} (h : r.Finishes done r') (hr : r.WellFormed)
    (hb : r.heap p = some b) (hc : r'.heap p = some c) :
    c.valid = b.valid ∧ c.waitingQueue = b.waitingQueue := by
  cases h with
  | frame h =>
    obtain ⟨b', hb', hc'⟩ := h.heap hc
    obtain rfl : b = b' := Option.some.inj (hb.symm.trans hb')
    rw [hc']
    exact ⟨rfl, rfl⟩
  | file =>
    obtain rfl : b = c := by simpa [(hr.below hb).ne, hb] using hc
    exact ⟨rfl, rfl⟩

theorem Reader.Takes.waitingQueue_eq (h : r.Takes d r') (hr : r.WellFormed)
    (hb : r.heap p = some b) (hvalid : b.valid = true) (hc : r'.heap p = some c) :
    c.valid = true ∧ c.waitingQueue = b.waitingQueue := by
  cases h with
  | file =>
    obtain rfl : b = c := by simpa [(hr.below hb).ne, hb] using hc
    exact ⟨hvalid, rfl⟩
  | @wait q b' r' hq hvalid' _ hheap =>
    have hne : p ≠ q := by
      rintro rfl
      obtain rfl : b = b' := Option.some.inj (hb.symm.trans hq)
      exact absurd hvalid (by simp [hvalid'])
    obtain rfl : b = c := by simpa [hheap, hne, hb] using hc
    exact ⟨hvalid, rfl⟩
  | @copy q b' _ hq hvalid' =>
    by_cases hpq : p = q
    · subst hpq
      obtain rfl : b = b' := Option.some.inj (hb.symm.trans hq)
      obtain rfl : b.copy d = c := by simpa using hc
      exact ⟨hvalid, rfl⟩
    · obtain rfl : b = c := by simpa [hpq, hb] using hc
      exact ⟨hvalid, rfl⟩
  | @complete q b' r' _ hq _ _ _ h =>
    have hr' := (hr.record (.copied q b' d)).set (b := { b'.copy d with completed := true }) hq
    by_cases hpq : p = q
    · subst hpq
      obtain rfl : b = b' := Option.some.inj (hb.symm.trans hq)
      obtain ⟨hv, hw⟩ := h.waitingQueue_eq hr' (heap_set_self _ _ _) hc
      exact ⟨hv.trans hvalid, hw⟩
    · obtain ⟨hv, hw⟩ := h.waitingQueue_eq hr' (b := b) (by simp [hpq, hb]) hc
      exact ⟨hv.trans hvalid, hw⟩

/-! ## Waiting queues -/

/-- The rule for the loop over the waiting queue of the buffer at `p`: an invariant
    of the blocks that are left, which handling the next of them keeps. -/
theorem wp_drainQueue {K : List DataBlock → Reader → Prop}
    (hqueue : ∀ ds r, K ds r → ∀ b, r.heap p = some b → b.waitingQueue = some ds)
    (hstep : ∀ d ds r b, K (d :: ds) r → r.heap p = some b →
      wp (handleDataBlock d) (fun _ => K ds) E (r.set p { b with waitingQueue := some ds }))
    (hfreed : ∀ ds r, K ds r → r.heap p = none → E .dangling r) {ds : List DataBlock} {rounds : ℕ}
    (hrounds : ds.length < rounds) (h : K ds r) :
    wp (drainQueue rounds p) (fun _ => K []) E r := by
  induction ds generalizing r rounds with
  | nil =>
    obtain ⟨rounds, rfl⟩ := Nat.exists_eq_succ_of_ne_zero (by omega : rounds ≠ 0)
    rw [drainQueue, wp_bind, wp_load_iff]
    refine ⟨fun b hb => ?_, hfreed [] r h⟩
    rw [hqueue [] r h b hb]
    exact h
  | cons d ds ih =>
    obtain ⟨rounds, rfl⟩ := Nat.exists_eq_succ_of_ne_zero (by omega : rounds ≠ 0)
    rw [drainQueue, wp_bind, wp_load_iff]
    refine ⟨fun b hb => ?_, hfreed _ r h⟩
    rw [hqueue _ r h b hb]
    simp only [wp_bind]
    rw [wp_update _ hb]
    refine wp_mono (hstep d ds r b h hb) (fun _ r' h' => ?_) fun _ _ h => h
    exact ih (by simpa using hrounds) h'

/-! ## Runs -/

/-- `P` holds of the blocks `ds` out of the queue of the buffer at `p`, each in the
    state in which it is handled. -/
def Replays (P : DataBlock → Reader → Prop) (p : Ptr) : List DataBlock → Reader → Prop
  | [], _ => True
  | d :: ds, r => ∀ b, r.heap p = some b →
      P d (r.set p { b with waitingQueue := some ds }) ∧
        wp (handleDataBlock d) (fun _ => Replays P p ds) (fun _ _ => True)
          (r.set p { b with waitingQueue := some ds })

/-- `P` holds of the block, or of those that wait for it. -/
def Block.Meets (P : DataBlock → Reader → Prop) (r : Reader) : Block → Prop
  | .data d => P d r
  | .init i => ∀ p b ds, r.table (intKey i.tag) = some p → r.heap p = some b → b.valid = false →
      b.waitingQueue = some ds → Replays P p ds (r.set p (b.init i))

/-- `P` holds of every data block, received or replayed, and the state in which it is
    handled. -/
def Meets (P : DataBlock → Reader → Prop) (o : ByteOrder) : List (List UInt8) → Reader → Prop
  | [], _ => True
  | block :: blocks, r => (∀ x, parseBlock o block = some x → x.Meets P r) ∧
      wp (handleBlock o block) (fun _ => Meets P o blocks) (fun _ _ => True) r

/-- The data blocks among the blocks, in order. -/
def dataBlocks (o : ByteOrder) (blocks : List (List UInt8)) : List DataBlock :=
  (blocks.filterMap (parseBlock o)).filterMap Block.data?

/-- The init blocks among the blocks, in order. -/
def initBlocks (o : ByteOrder) (blocks : List (List UInt8)) : List InitBlock :=
  (blocks.filterMap (parseBlock o)).filterMap Block.init?

section

variable {o : ByteOrder} {block : List UInt8} {i : InitBlock}

theorem dataBlocks_cons_data (blocks : List (List UInt8))
    (hx : parseBlock o block = some (.data d)) :
    dataBlocks o (block :: blocks) = d :: dataBlocks o blocks := by
  simp [dataBlocks, hx, Block.data?]

theorem dataBlocks_cons_init (blocks : List (List UInt8))
    (hx : parseBlock o block = some (.init i)) :
    dataBlocks o (block :: blocks) = dataBlocks o blocks := by
  rw [dataBlocks, List.filterMap_cons_some hx, List.filterMap_cons_none rfl, dataBlocks]

end

/-- The calls keep `I`, of the data blocks that are left to be handled and the state, and
    stop with `E`, if `V` holds of the init blocks and `P` of the data blocks handled. An
    init block adds the blocks that wait for it to those that are left. -/
structure Kept (I : List DataBlock → Reader → Prop) (V : InitBlock → Prop)
    (P : DataBlock → Reader → Prop) (E : Stop → Reader → Prop) : Prop where
  filed : ∀ {left r}, I left r → r.Filed
  stop : ∀ {left r e}, I left r → e.InBounds → E e r
  fileInit : ∀ {left r i}, I left r → V i → r.table (intKey i.tag) = none →
    I left (r.fileNew (intKey i.tag) (.init { nextTag := noTag } i))
  init : ∀ {left r p b i}, I left r → V i → r.table (intKey i.tag) = some p →
    r.heap p = some b → b.valid = false → I (b.waitingQueue.getD [] ++ left) (r.set p (b.init i))
  queue : ∀ {left r p b ds queue}, I left r → r.heap p = some b → b.valid = true →
    b.waitingQueue = some ds → (∀ ds', queue = some ds' → ds' ⊆ ds) →
      I left (r.set p { b with waitingQueue := queue })
  data : ∀ {left r d}, I (d :: left) r → P d r →
    wp (handleDataBlock d) (fun _ r' => I left r' ∧ r.Takes d r') E r

namespace Kept

variable {I : List DataBlock → Reader → Prop} {V : InitBlock → Prop}
  {P : DataBlock → Reader → Prop} {left : List DataBlock}

/-- The state while the queue of the buffer at `p`, with `ds` in it, is replayed. -/
private structure Replaying (I : List DataBlock → Reader → Prop) (P : DataBlock → Reader → Prop)
    (p : Ptr) (left ds : List DataBlock) (r : Reader) : Prop where
  kept : I (ds ++ left) r
  replays : Replays P p ds r
  queue : ∀ b, r.heap p = some b → b.valid = true ∧ b.waitingQueue = some ds

variable (h : Kept I V P E)
include h

/-- The next block is taken out of the queue, and handled. -/
private theorem wp_replay {ds : List DataBlock} (hr : Replaying I P p left (d :: ds) r)
    (hb : r.heap p = some b) :
    wp (handleDataBlock d) (fun _ => Replaying I P p left ds) E
      (r.set p { b with waitingQueue := some ds }) := by
  obtain ⟨hvalid, hqueue⟩ := hr.queue b hb
  obtain ⟨hP, hrest⟩ := hr.replays b hb
  have hr₁ : I (d :: (ds ++ left)) (r.set p { b with waitingQueue := some ds }) := by
    refine h.queue hr.kept hb hvalid hqueue fun ds' hds' => ?_
    obtain rfl := Option.some.inj hds'
    exact List.subset_cons_self d ds
  refine wp_mono (wp_and (h.data hr₁ hP) hrest)
    (fun _ r' ⟨⟨hr', htakes⟩, hrest⟩ => ⟨hr', hrest, fun c hc => ?_⟩) fun _ _ h => h.1
  exact htakes.waitingQueue_eq (h.filed hr₁).toWellFormed (heap_set_self _ _ _) hvalid hc

theorem wp_handleWaiting (hr : I (b.waitingQueue.getD [] ++ left) r) (hb : r.heap p = some b)
    (hvalid : b.valid = true) (hP : ∀ ds, b.waitingQueue = some ds → Replays P p ds r) :
    wp (handleWaiting p) (fun _ => I left) E r := by
  rw [handleWaiting, wp_bind, wp_load hb]
  cases hqueue : b.waitingQueue with
  | none =>
    rw [hqueue] at hr
    exact hr
  | some ds =>
    rw [hqueue] at hr
    have hstart : Replaying I P p left ds r := by
      refine ⟨hr, hP ds hqueue, fun c hc => ?_⟩
      obtain rfl := Option.some.inj (hb.symm.trans hc)
      exact ⟨hvalid, hqueue⟩
    simp only [wp_bind]
    refine wp_mono (wp_drainQueue (K := Replaying I P p left)
      (fun _ _ h b hb => (h.queue b hb).2) (fun _ _ _ _ => h.wp_replay)
      (fun _ _ hr _ => h.stop hr.kept (by decide)) (Nat.lt_succ_self _) hstart)
      (fun _ r' hr' => ?_) fun _ _ h => h
    rw [update, wp_bind, wp_load_iff]
    refine ⟨fun c hc => ?_, fun _ => h.stop hr'.kept (by decide)⟩
    obtain ⟨hvalid', hqueue'⟩ := hr'.queue c hc
    exact h.queue hr'.kept hc hvalid' hqueue' (by simp)

theorem wp_handleInitBlock {i : InitBlock} (hr : I left r) (hi : V i)
    (hP : (Block.init i).Meets P r) : wp (handleInitBlock i) (fun _ => I left) E r := by
  rw [handleInitBlock, wp_bind, wp_lookupHashTable]
  cases hp : r.table (intKey i.tag) with
  | none =>
    simp only [calloc, insertHashTable, wp_bind, wp_get, wp_set, wp_pure]
    rw [show (r.alloc _).table (intKey i.tag) = none from hp, wp_pure]
    exact h.fileInit hr hi hp
  | some p =>
    obtain ⟨b, hb⟩ := (h.filed hr).live hp
    simp only [wp_bind]
    rw [wp_load hb]
    by_cases hvalid : b.valid = true
    · rw [if_pos hvalid]
      exact h.stop hr (by decide)
    · have hvalid' : b.valid = false := by simpa using hvalid
      rw [if_neg hvalid, wp_bind, wp_update _ hb]
      have hinit := h.init hr hi hp hb hvalid'
      exact h.wp_handleWaiting (b := b.init i) hinit (heap_set_self _ _ _) rfl
        fun ds hds => hP p b ds hp hb hvalid' hds

/-- One call. -/
theorem wp_handleBlock {o : ByteOrder} {block : List UInt8} {blocks : List (List UInt8)}
    (hr : I (dataBlocks o (block :: blocks)) r)
    (htruncated : parseBlock o block = none → ∀ left r, I left r → E .truncated r)
    (hV : ∀ i, parseBlock o block = some (.init i) → V i)
    (hP : ∀ x, parseBlock o block = some x → x.Meets P r) :
    wp (handleBlock o block) (fun _ => I (dataBlocks o blocks)) E r := by
  rw [handleBlock]
  match hx : parseBlock o block with
  | none => exact htruncated hx _ _ hr
  | some (.init i) =>
    rw [dataBlocks_cons_init _ hx] at hr
    exact h.wp_handleInitBlock hr (hV i hx) (hP _ hx)
  | some (.data d) =>
    rw [dataBlocks_cons_data _ hx] at hr
    exact wp_mono (h.data hr (hP _ hx)) (fun _ _ h => h.1) fun _ _ h => h

/-- One call after the other. -/
theorem wp_handleBlocks {o : ByteOrder} {blocks : List (List UInt8)}
    (hr : I (dataBlocks o blocks) r)
    (htruncated : ∀ block ∈ blocks, parseBlock o block = none → ∀ left r, I left r → E .truncated r)
    (hV : ∀ block ∈ blocks, ∀ i, parseBlock o block = some (.init i) → V i)
    (hP : Multiplex.Meets P o blocks r) : wp (handleBlocks o blocks) (fun _ => I []) E r := by
  induction blocks generalizing r with
  | nil => exact hr
  | cons block blocks ih =>
    obtain ⟨hblock, hrest⟩ := hP
    rw [List.forall_mem_cons] at htruncated hV
    change wp (handleBlock o block >>= fun _ => handleBlocks o blocks) _ _ r
    rw [wp_bind]
    exact wp_mono (wp_and (h.wp_handleBlock hr htruncated.1 hV.1 hblock) hrest)
      (fun _ r₁ ⟨hr₁, hrest₁⟩ => ih hr₁ htruncated.2 hV.2 hrest₁) fun _ _ h => h.1

end Kept

/-! ### Conditions that always hold -/

section

variable {P : DataBlock → Reader → Prop} (hP : ∀ d r, P d r)
include hP

theorem replays_of_forall (ds : List DataBlock) (r : Reader) : Replays P p ds r := by
  induction ds generalizing r with
  | nil => exact trivial
  | cons d ds ih =>
    exact fun b _ => ⟨hP d _, wp_mono wp_trivial (fun _ r' _ => ih r') fun _ _ h => h⟩

theorem meets_of_forall (o : ByteOrder) (blocks : List (List UInt8)) (r : Reader) :
    Meets P o blocks r := by
  induction blocks generalizing r with
  | nil => exact trivial
  | cons block blocks ih =>
    refine ⟨fun x _ => ?_, wp_mono wp_trivial (fun _ r' _ => ih r') fun _ _ h => h⟩
    cases x with
    | data d => exact hP d r
    | init i => exact fun p b ds _ _ _ _ => replays_of_forall hP ds _

end

end Cse461.Multiplex
