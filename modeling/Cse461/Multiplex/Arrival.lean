import Cse461.Multiplex.Ordering

/-!
# Arrival of the blocks of a chain

The reader delivers the buffers of a chain in order, exactly once, and as early
as it can, in whatever order their blocks arrive (`handleBlocks_in_order`).

Each call of `handle_block` takes one block, and is one step of the progress of
the buffer the block is about (`Inv.wp_handleBlock`). A data block is copied if
the init block is there, and waits otherwise; an init block lets those in that
wait, one by one (`Inv.wp_drainQueue`). From the steps, the invariant holds after
every run (`wp_handleBlocks`), with the progress that the blocks come to.
-/

namespace Cse461.Multiplex

open Library Reader

variable {c : Chain} {G : ℕ → Progress} {m k : ℕ} {r r' : Reader} {b : SplitBuffer}
  {g : Progress}

/-! ## Data blocks -/

/-- A data block for a buffer whose init block arrived. -/
theorem Inv.wp_copyData (h : Inv c G m r) (hb : c.buffers[k]? = some b)
    (hinit : (G k).init = true) {d : DataBlock} (hg : g.Of b) (hinit' : g.init = true)
    (hcopied : g.copied = (G k).copied ++ [d]) (hqueue : g.queue = (G k).queue) {p : Ptr}
    (hp : r.table (intKey b.tag) = some p) (howns : Owns r p b (G k).queue)
    {E : Stop → Reader → Prop} : wp (copyData p (some p) d) (fun _ r' =>
      (∃ m', Inv c (Function.update G k g) m' r') ∧ Owns r' p b (G k).queue) E r := by
  have hd : d ∈ b.blocks := hg.copied_mem (by simp [hcopied])
  have hnot : ¬(G k).Complete b := fun hc => hc.not_subperm d (hcopied ▸ hg.copied_subperm)
  have hk : m ≤ k := by
    by_contra hlt
    exact hnot (h.complete hb (not_le.1 hlt))
  have hentry : r.entry (intKey b.tag) = some (c.info G k b) := by
    rw [h.ahead hb hk, Chain.expected, if_pos hinit]
  obtain ⟨p', hp', hheap⟩ := entry_eq_some.1 hentry
  obtain rfl : p = p' := by simpa [hp] using hp'
  have hcopy := Chain.info_copy (c := c) hd hcopied hqueue
  have hcomplete : ((c.info G k b).copy d).nWritten = (c.info G k b).bufferSize ↔
      g.Complete b := by
    have := Chain.nWritten_eq_bufferSize_iff (c := c) (G := Function.update G k g) (k := k) (b := b)
      (by simpa using hg) (by simpa using hinit')
    rwa [Function.update_self, ← hcopy] at this
  have hwf := (h.wf.record (.copied p (c.info G k b) d)).set
    (b := c.info (Function.update G k g) k b) hheap
  have hentry' := (h.wf.record (.copied p (c.info G k b) d)).entry_set
    (b := c.info (Function.update G k g) k b) hp
  have howns' : Owns ((r.record (.copied p (c.info G k b) d)).set p
      (c.info (Function.update G k g) k b)) p b (G k).queue :=
    ⟨⟨c.info (Function.update G k g) k b, by simp, by simp [Chain.info, hqueue]⟩, howns.filed⟩
  rw [Multiplex.wp_copyData hheap (Chain.info_fits (h.of hb) hd)]
  refine ⟨fun hw => ?_, fun hw => ?_⟩
  · have hc := hcomplete.1 hw
    rw [decide_eq_true hc] at hcopy
    rw [hcopy]
    exact h.wp_handleFinishedBufferPrev hb hnot hg hc hwf hentry' (by simp) hp howns'
  · have hc : ¬g.Complete b := fun hc => hw (hcomplete.2 hc)
    have hcompleted : ((c.info G k b).copy d).completed = false := decide_eq_false hnot
    rw [decide_eq_false hc, ← hcompleted] at hcopy
    rw [show (c.info G k b).copy d = c.info (Function.update G k g) k b from hcopy]
    refine ⟨⟨m, h.advance_entry hb hk hg (iff_of_false hc hnot) hwf ?_ (by simp)⟩, howns'⟩
    rw [hentry', Chain.expected, Function.update_self, if_pos hinit']
    rfl

/-- What is filed under the key of a buffer is its own. -/
theorem Reader.WellFormed.owns (hr : r.WellFormed) {p : Ptr} {i : BufferInfo}
    (hp : r.table (intKey b.tag) = some p) (hi : r.heap p = some i) : Owns r p b i.waitingQueue where
  heap := ⟨i, hi, rfl⟩
  filed {key q} hq := by
    constructor
    · rintro rfl
      simpa [hp] using hq.symm
    · rintro rfl
      exact hr.inj hq hp

/-- `handle_block` on a data block whose init block arrived. -/
theorem Inv.wp_handleDataBlock_of_init (h : Inv c G m r) (hb : c.buffers[k]? = some b)
    (hinit : (G k).init = true) {d : DataBlock} (hg : g.Of b) (hinit' : g.init = true)
    (hcopied : g.copied = (G k).copied ++ [d]) (hqueue : g.queue = (G k).queue) {p : Ptr}
    (howns : Owns r p b (G k).queue) {E : Stop → Reader → Prop} :
    wp (handleDataBlock d) (fun _ r' =>
      (∃ m', Inv c (Function.update G k g) m' r') ∧ Owns r' p b (G k).queue) E r := by
  have hd : d ∈ b.blocks := hg.copied_mem (by simp [hcopied])
  have hnot : ¬(G k).Complete b := fun hc => hc.not_subperm d (hcopied ▸ hg.copied_subperm)
  have hk : m ≤ k := by
    by_contra hlt
    exact hnot (h.complete hb (not_le.1 hlt))
  obtain ⟨q, hq, hheap⟩ := entry_eq_some.1
    (show r.entry (intKey b.tag) = some (c.info G k b) by
      rw [h.ahead hb hk, Chain.expected, if_pos hinit])
  obtain rfl : q = p := (howns.filed hq).1 rfl
  rw [handleDataBlock, wp_bind, wp_lookupHashTable, b.block_tag d hd, hq]
  simp only [wp_bind]
  rw [wp_load hheap, if_pos (by simp [Chain.info])]
  exact h.wp_copyData hb hinit hg hinit' hcopied hqueue hq howns

/-- `handle_block` on a data block whose init block did not arrive: it waits. -/
theorem Inv.wp_handleDataBlock_of_not_init (h : Inv c G m r) (hb : c.buffers[k]? = some b)
    (hinit : (G k).init = false) {d : DataBlock} (hd : d ∈ b.blocks) (hg : g.Of b)
    (hinit' : g.init = false) (hqueue : g.queue = some ((G k).queue.getD [] ++ [d]))
    {E : Stop → Reader → Prop} :
    wp (handleDataBlock d) (fun _ r' => ∃ m', Inv c (Function.update G k g) m' r') E r := by
  have hnot : ¬(G k).Complete b := fun hc => absurd hc.1 (by simp [hinit])
  have hnot' : ¬g.Complete b := fun hc => absurd hc.1 (by simp [hinit'])
  have hk : m ≤ k := by
    by_contra hlt
    exact hnot (h.complete hb (not_le.1 hlt))
  have hlink : c.link (Function.update G k g) k = c.link G k := Chain.link_update_of_ne (by omega)
  have hentry := h.ahead hb hk
  have hexpected : c.expected (Function.update G k g) k b = some
      { tag := b.tag, nextTag := c.link G k, waitingQueue := g.queue } := by
    simp [Chain.expected, hinit', hqueue, hlink]
  have htag : wordKey b.tag.toUInt32 = intKey b.tag := wordKey_eq_intKey_iff.2 ⟨rfl, b.tag_nonneg⟩
  rw [handleDataBlock, wp_bind, wp_lookupHashTable, b.block_tag d hd]
  by_cases hwaiting : (G k).queue.isSome ∨ c.link G k ≠ noTag
  · -- There is a dummy already.
    rw [Chain.expected, if_neg (by simp [hinit]), if_pos hwaiting] at hentry
    obtain ⟨p, hp, hheap⟩ := entry_eq_some.1 hentry
    rw [hp]
    simp only [wp_bind]
    rw [wp_load hheap, if_neg (by simp), wp_update _ hheap]
    refine ⟨m, h.advance_entry hb hk hg (iff_of_false hnot' hnot) (h.wf.set hheap) ?_ rfl⟩
    rw [h.wf.entry_set hp, hexpected, hqueue]
  · rw [Chain.expected, if_neg (by simp [hinit]), if_neg hwaiting, h.wf.entry_eq_none] at hentry
    have hold : c.link G k = noTag := by_contra fun hne => hwaiting (.inr hne)
    have hnone : (G k).queue = none := by
      by_contra hne
      exact hwaiting (.inl (Option.isSome_iff_ne_none.2 hne))
    rw [hentry]
    simp only [wp_bind]
    rw [wp_insertDummyBuffer (htag ▸ hentry), if_pos rfl, htag]
    refine ⟨m, h.advance_entry hb hk hg (iff_of_false hnot' hnot) h.wf.fileNew ?_ rfl⟩
    rw [h.wf.entry_fileNew, hexpected, hqueue, hnone, hold]
    simp [dummy]

/-! ## Init blocks -/

theorem Owns.heap_eq {p : Ptr} {queue : Option (List DataBlock)} {i : BufferInfo}
    (h : Owns r p b queue) (hi : r.heap p = some i) : i.waitingQueue = queue := by
  obtain ⟨i', hi', hq⟩ := h.heap
  obtain rfl : i = i' := by simpa [hi] using hi'
  exact hq

/-- Overwriting a buffer shows in its own entry only, if it has one. -/
theorem Owns.entry_set {p : Ptr} {queue : Option (List DataBlock)} (h : Owns r p b queue)
    (hr : r.WellFormed) (i : BufferInfo) : (r.set p i).entry = Function.update r.entry
      (intKey b.tag) ((r.entry (intKey b.tag)).map fun _ => i) := by
  cases he : r.entry (intKey b.tag) with
  | none =>
    have hnot : ∀ key, r.table key ≠ some p := fun key hp => by
      have hkey := (h.filed hp).2 rfl
      rw [hr.entry_eq_none, ← hkey, hp] at he
      exact absurd he (by simp)
    rw [entry_set_of_not_filed hnot, Option.map_none, ← he, Function.update_eq_self]
  | some i' =>
    obtain ⟨q, hq, _⟩ := entry_eq_some.1 he
    obtain rfl : q = p := (h.filed hq).1 rfl
    rw [hr.entry_set hq, Option.map_some]

/-- The queue of a buffer whose init block arrived does not matter, once it is
    delivered. -/
theorem Inv.advance_delivered (h : Inv c G m r) (hb : c.buffers[k]? = some b) (hk : k < m)
    (hg : g.Of b) (hc : g.Complete b) (hwf : r'.WellFormed) {i : BufferInfo}
    (hentry : r'.entry = Function.update r.entry (intKey b.tag)
      ((r.entry (intKey b.tag)).map fun _ => i))
    (hinfo : r.entry (intKey b.tag) = some { c.info G k b with sent := true } →
      i = { c.info (Function.update G k g) k b with sent := true })
    (hhandled : r'.handled = r.handled) : Inv c (Function.update G k g) m r' := by
  have hother : ∀ {j b'}, c.buffers[j]? = some b' → j ≠ k → intKey b'.tag ≠ intKey b.tag :=
    fun hj hjk he => hjk (Chain.index_unique hj hb he)
  refine ⟨⟨hwf, ?_, h.le, ?_, ?_, ?_, by rw [hhandled, h.handled]⟩, ?_, ?_, ?_⟩
  · intro j b' hj
    by_cases hjk : j = k
    · subst hjk
      obtain rfl : b = b' := by simpa [hb] using hj
      simpa using hg
    · simpa [hjk] using h.of hj
  · intro j b' hj hjm
    by_cases hjk : j = k
    · subst hjk
      obtain rfl : b = b' := by simpa [hb] using hj
      simpa using hc
    · simpa [hjk] using h.complete hj hjm
  · intro j b' hj hmj
    have hjk : j ≠ k := by omega
    rw [hentry, Function.update_of_ne (hother hj hjk), h.ahead hj hmj]
    exact (Chain.expected_congr (by simp [hjk]) (Chain.link_update_of_ne (by omega))).symm
  · intro key hkey
    rw [hentry, Function.update_of_ne (hkey b (List.mem_of_getElem? hb)), h.other hkey]
  · intro j b' hj hjm
    rw [hentry]
    by_cases hjk : j = k
    · subst hjk
      obtain rfl : b = b' := by simpa [hb] using hj
      simp [h.gone hj hjm]
    · rw [Function.update_of_ne (hother hj hjk), h.gone hj hjm]
  · intro j b' hj hjm
    rw [hentry]
    by_cases hjk : j = k
    · subst hjk
      obtain rfl : b = b' := by simpa [hb] using hj
      have hlast := h.last hj hjm
      rw [Function.update_self, hlast, Option.map_some, hinfo hlast]
    · have hsame : c.info (Function.update G k g) j b' = c.info G j b' := by
        simp [Chain.info, hjk, Chain.link_update_of_ne (c := c) (G := G) (k := k) (g := g)
          (show j + 1 ≠ k by omega)]
      rw [Function.update_of_ne (hother hj hjk), hsame]
      exact h.last hj hjm
  · intro b' hb'
    have hmk : m ≠ k := by omega
    simpa [hmk] using h.blocked hb'

/-- The loop over the waiting queue. -/
theorem Inv.wp_drainQueue {queue : List DataBlock} {rounds : ℕ} (hrounds : queue.length < rounds)
    (h : Inv c G m r) (hb : c.buffers[k]? = some b) (hinit : (G k).init = true)
    (hqueue : (G k).queue = some queue) {p : Ptr} (howns : Owns r p b (some queue))
    {E : Stop → Reader → Prop} : wp (drainQueue rounds p) (fun _ r' =>
      (∃ m', Inv c (Function.update G k ⟨true, (G k).copied ++ queue, some []⟩) m' r') ∧
        Owns r' p b (some [])) E r := by
  induction queue generalizing G m r rounds with
  | nil =>
    obtain ⟨rounds, rfl⟩ : ∃ n, rounds = n + 1 := ⟨rounds - 1, by omega⟩
    obtain ⟨i, hi, hq⟩ := howns.heap
    rw [drainQueue, wp_bind, wp_load hi, hq, wp_pure]
    have hself : (⟨true, (G k).copied ++ [], some []⟩ : Progress) = G k := by
      rw [List.append_nil, ← hinit, ← hqueue]
    rw [hself, Function.update_eq_self]
    exact ⟨⟨m, h⟩, howns⟩
  | cons d queue ih =>
    obtain ⟨rounds, rfl⟩ : ∃ n, rounds = n + 1 := ⟨rounds - 1, by simp at hrounds; omega⟩
    have hsub : ((G k).copied ++ d :: queue).Subperm b.blocks := by
      simpa [Progress.arrived, hqueue] using (h.of hb).subperm
    have hsub' : ((G k).copied ++ [d] ++ queue).Subperm b.blocks := by simpa using hsub
    have hnot : ¬(G k).Complete b := fun hc =>
      hc.not_subperm d ((List.sublist_append_left _ _).subperm.trans hsub')
    have hk : m ≤ k := by
      by_contra hlt
      exact hnot (h.complete hb (not_le.1 hlt))
    have hentry : r.entry (intKey b.tag) = some (c.info G k b) := by
      rw [h.ahead hb hk, Chain.expected, if_pos hinit]
    obtain ⟨q, hq, hheap⟩ := entry_eq_some.1 hentry
    obtain rfl : q = p := (howns.filed hq).1 rfl
    rw [drainQueue, wp_bind, wp_load hheap, howns.heap_eq hheap]
    simp only [wp_bind]
    rw [wp_update _ hheap]
    -- The block leaves the queue ...
    have hof₁ : (⟨true, (G k).copied, some queue⟩ : Progress).Of b := by
      refine ⟨List.Subperm.trans ?_ hsub, by simp⟩
      exact ((List.sublist_cons_self d queue).append_left _).subperm
    have hinv₁ : Inv c (Function.update G k ⟨true, (G k).copied, some queue⟩) m
        (r.set q { c.info G k b with waitingQueue := some queue }) := by
      refine h.advance_entry hb hk hof₁ ⟨fun hc => ⟨hinit, hc.2⟩, fun hc => ⟨rfl, hc.2⟩⟩
        (h.wf.set hheap) ?_ rfl
      rw [h.wf.entry_set hq, Chain.expected, Function.update_self, if_pos rfl]
      simp [Chain.info, Chain.link_update_of_ne, Progress.Complete, hinit]
    have howns₁ : Owns (r.set q { c.info G k b with waitingQueue := some queue }) q b
        (some queue) := ⟨⟨_, by simp; rfl, rfl⟩, howns.filed⟩
    -- ... and is copied.
    refine wp_mono (hinv₁.wp_handleDataBlock_of_init hb (by simp)
      (g := ⟨true, (G k).copied ++ [d], some queue⟩) ⟨by simpa [Progress.arrived] using hsub, by simp⟩
      rfl (by simp) (by simp) (p := q) (by simpa using howns₁)) ?_ fun _ _ h => h
    rintro _ r' ⟨⟨m', hinv₂⟩, howns₂⟩
    rw [Function.update_idem] at hinv₂
    have hlt : queue.length < rounds := by simpa using hrounds
    have hrun := ih hlt hinv₂ (by simp) (by simp) (by simpa using howns₂)
    simpa [Function.update_idem] using hrun

/-- The queue of a buffer is freed when it is empty. -/
theorem Inv.freeQueue (h : Inv c G m r) (hb : c.buffers[k]? = some b)
    (hinit : (G k).init = true) {p : Ptr}
    (howns : Owns r p b (some [])) {i : BufferInfo} (hi : r.heap p = some i)
    (hg : g.Of b) (hinit' : g.init = true) (hcopied : g.copied = (G k).copied)
    (hqueue' : g.queue = none) :
    Inv c (Function.update G k g) m (r.set p { i with waitingQueue := none }) := by
  have hentry := howns.entry_set h.wf { i with waitingQueue := none }
  have hc : g.Complete b ↔ (G k).Complete b := by
    simp [Progress.Complete, hinit, hinit', hcopied]
  -- What is filed under the key of the buffer is `i`.
  have hfiled : ∀ {i'}, r.entry (intKey b.tag) = some i' → i' = i := by
    intro i' hi'
    obtain ⟨q, hq, hheap⟩ := entry_eq_some.1 hi'
    obtain rfl : q = p := (howns.filed hq).1 rfl
    simpa [hi] using hheap.symm
  by_cases hk : m ≤ k
  · have he : r.entry (intKey b.tag) = some (c.info G k b) := by
      rw [h.ahead hb hk, Chain.expected, if_pos hinit]
    refine h.advance_entry hb hk hg hc (h.wf.set hi) ?_ rfl
    rw [hentry, he, ← hfiled he, Chain.expected, Function.update_self, if_pos hinit']
    simp [Chain.info, Chain.link_update_of_ne, hcopied, hqueue', hc]
  · have hk' := not_le.1 hk
    refine h.advance_delivered hb hk' hg (hc.2 (h.complete hb hk')) (h.wf.set hi) hentry
      (fun hlast => ?_) rfl
    rw [← hfiled hlast]
    simp [Chain.info, Chain.link_update_of_ne, hcopied, hqueue', hc]

/-- The blocks that wait for a buffer are copied once its init block is there. -/
theorem Inv.wp_handleWaiting (h : Inv c G m r) (hb : c.buffers[k]? = some b)
    (hinit : (G k).init = true) {p : Ptr} (howns : Owns r p b (G k).queue)
    {E : Stop → Reader → Prop} : wp (handleWaiting p) (fun _ r' => ∃ m', Inv c
      (Function.update G k ⟨true, (G k).copied ++ (G k).queue.getD [], none⟩) m' r') E r := by
  obtain ⟨i, hi, hqi⟩ := howns.heap
  rw [handleWaiting, wp_bind, wp_load hi, hqi]
  cases hq : (G k).queue with
  | none =>
    have hself : (⟨true, (G k).copied ++ (none : Option (List DataBlock)).getD [], none⟩ :
        Progress) = G k := by
      rw [Option.getD_none, List.append_nil, ← hinit, ← hq]
    rw [hself, Function.update_eq_self]
    exact ⟨m, h⟩
  | some queue =>
    simp only [wp_bind]
    refine wp_mono (h.wp_drainQueue (Nat.lt_succ_self _) hb hinit hq (hq ▸ howns)) ?_ fun _ _ h => h
    rintro _ r' ⟨⟨m', hinv⟩, howns'⟩
    obtain ⟨i', hi', _⟩ := howns'.heap
    have hof : (⟨true, (G k).copied ++ queue, none⟩ : Progress).Of b := by
      refine ⟨?_, by simp⟩
      simpa [Progress.arrived, hq] using (h.of hb).subperm
    rw [wp_update _ hi', Option.getD_some]
    have hfree := hinv.freeQueue hb (by simp) howns' hi' hof rfl (by simp) rfl
    rw [Function.update_idem] at hfree
    exact ⟨m', hfree⟩

/-- `handle_block` on an init block. -/
theorem Inv.wp_handleInitBlock (h : Inv c G m r) (hb : c.buffers[k]? = some b)
    (hinit : (G k).init = false) {E : Stop → Reader → Prop} :
    wp (handleInitBlock (b.initBlock (c.prevTag k))) (fun _ r' => ∃ m', Inv c
      (Function.update G k ((G k).receive (.init (b.initBlock (c.prevTag k))))) m' r') E r := by
  have hnot : ¬(G k).Complete b := fun hc => absurd hc.1 (by simp [hinit])
  have hk : m ≤ k := by
    by_contra hlt
    exact hnot (h.complete hb (not_le.1 hlt))
  have hcopied : (G k).copied = [] := (h.of hb).copied_eq_nil hinit
  have hsub : ((G k).queue.getD []).Subperm b.blocks := by
    simpa [Progress.arrived, hcopied] using (h.of hb).subperm
  have hentry := h.ahead hb hk
  -- The progress once the init block is there, before the queue is handled.
  set g₁ : Progress := ⟨true, [], (G k).queue⟩ with hg₁
  have hof₁ : g₁.Of b := ⟨by simpa [Progress.arrived, hg₁] using hsub, by simp [hg₁]⟩
  have hnot₁ : ¬g₁.Complete b := fun hc => b.blocks_ne_nil (by simpa [hg₁] using hc.2.symm)
  have hlink : c.link (Function.update G k g₁) k = c.link G k := Chain.link_update_of_ne (by omega)
  have hinfo : c.info (Function.update G k g₁) k b =
      ({ tag := b.tag, nextTag := c.link G k, waitingQueue := (G k).queue } : BufferInfo).init
        (b.initBlock (c.prevTag k)) := by
    have hsize : (UInt32.ofNat b.bytes.length).toNat = b.bytes.length := by
      rw [UInt32.toNat_ofNat', Nat.mod_eq_of_lt b.length_lt]
    simp [Chain.info, hlink, BufferInfo.init, SplitBuffer.initBlock, hsize, hnot₁]
    simp [hg₁, writeAll]
  rw [handleInitBlock, wp_bind, wp_lookupHashTable,
    show (b.initBlock (c.prevTag k)).tag = b.tag from rfl]
  by_cases hwaiting : (G k).queue.isSome ∨ c.link G k ≠ noTag
  · -- There is a dummy, which may have blocks waiting.
    rw [Chain.expected, if_neg (by simp [hinit]), if_pos hwaiting] at hentry
    obtain ⟨p, hp, hheap⟩ := entry_eq_some.1 hentry
    rw [hp]
    simp only [wp_bind]
    rw [wp_load hheap, if_neg (by simp)]
    simp only [wp_bind]
    rw [wp_update _ hheap, ← hinfo]
    have hinv₁ : Inv c (Function.update G k g₁) m (r.set p (c.info (Function.update G k g₁) k b)) := by
      refine h.advance_entry hb hk hof₁ (iff_of_false hnot₁ hnot) (h.wf.set hheap) ?_ rfl
      rw [h.wf.entry_set hp, Chain.expected, Function.update_self, if_pos rfl]
    have howns₁ := hinv₁.wf.owns (b := b) (p := p) hp (heap_set_self r p _)
    have hrun := hinv₁.wp_handleWaiting (E := E) hb (by simp [hg₁]) (by simpa [Chain.info] using howns₁)
    simpa [Function.update_idem, hg₁, Progress.receive, hcopied] using hrun
  · rw [Chain.expected, if_neg (by simp [hinit]), if_neg hwaiting, h.wf.entry_eq_none] at hentry
    have hold : c.link G k = noTag := by_contra fun hne => hwaiting (.inr hne)
    have hnone : (G k).queue = none := by
      by_contra hne
      exact hwaiting (.inl (Option.isSome_iff_ne_none.2 hne))
    have hinit₁ : BufferInfo.init { nextTag := noTag } (b.initBlock (c.prevTag k)) =
        c.info (Function.update G k g₁) k b := by
      rw [hinfo, hold, hnone]
      rfl
    rw [hentry]
    simp only [calloc, insertHashTable, wp_bind, wp_get, wp_set, wp_pure]
    rw [show (r.alloc _).table (intKey b.tag) = none from hentry, wp_pure, hinit₁]
    have hreceive : (G k).receive (.init (b.initBlock (c.prevTag k))) = g₁ := by
      simp [Progress.receive, hg₁, hcopied, hnone]
    rw [hreceive]
    change ∃ m', Inv c _ m' (r.fileNew (intKey b.tag) (c.info (Function.update G k g₁) k b))
    refine ⟨m, h.advance_entry hb hk hof₁ (iff_of_false hnot₁ hnot) h.wf.fileNew ?_ rfl⟩
    rw [h.wf.entry_fileNew, Chain.expected, Function.update_self, if_pos rfl]

/-! ## Runs -/

section Runs

variable {o : ByteOrder} {pad : InitBlock → List UInt8}

/-- A block that is progress of its buffer is one step of the invariant. -/
theorem Inv.wp_handleBlock (h : Inv c G m r) (hb : c.buffers[k]? = some b) {x : Block}
    (hx : x = .init (b.initBlock (c.prevTag k)) ∧ (G k).init = false ∨
      ∃ d ∈ b.blocks, x = .data d)
    (hg : ((G k).receive x).Of b) {E : Stop → Reader → Prop} :
    wp (handleBlock o (x.bytes o pad)) (fun _ r' =>
      ∃ m', Inv c (Function.update G k ((G k).receive x)) m' r') E r := by
  rcases hx with ⟨rfl, hinit⟩ | ⟨d, hd, rfl⟩
  · rw [handleBlock, Block.bytes, parseBlock_initBytes (by rfl)]
    exact h.wp_handleInitBlock hb hinit
  · rw [handleBlock, Block.bytes, parseBlock_dataBytes (SplitBuffer.plain hd)]
    cases hinit : (G k).init with
    | true =>
      have hreceive : (G k).receive (.data d) = { G k with copied := (G k).copied ++ [d] } := by
        simp [Progress.receive, hinit]
      rw [hreceive] at hg ⊢
      have hnot : ¬(G k).Complete b := fun hc => hc.not_subperm d hg.copied_subperm
      have hk : m ≤ k := by
        by_contra hlt
        exact hnot (h.complete hb (not_le.1 hlt))
      obtain ⟨p, hp, hheap⟩ := entry_eq_some.1
        (show r.entry (intKey b.tag) = some (c.info G k b) by
          rw [h.ahead hb hk, Chain.expected, if_pos hinit])
      exact wp_mono (h.wp_handleDataBlock_of_init hb hinit hg hinit rfl rfl (h.wf.owns hp hheap))
        (fun _ _ hinv => hinv.1) fun _ _ h => h
    | false =>
      have hreceive : (G k).receive (.data d) =
          { G k with queue := some ((G k).queue.getD [] ++ [d]) } := by
        simp [Progress.receive, hinit]
      rw [hreceive] at hg ⊢
      exact h.wp_handleDataBlock_of_not_init hb hinit hd hg hinit rfl

theorem inv_empty (c : Chain) : Inv c (c.progress []) 0 Reader.empty := by
  have hentry : ∀ key, Reader.empty.entry key = none := fun _ => rfl
  have hlink : ∀ k, c.link (c.progress []) k = noTag := by
    intro k
    by_contra hne
    obtain ⟨b, _, hc, _⟩ := Chain.link_ne_noTag_iff.1 hne
    exact absurd hc.1 (by simp [Chain.progress_nil, Progress.start])
  refine ⟨⟨wellFormed_empty, ?_, Nat.zero_le _, by simp, ?_, fun _ => hentry _, rfl⟩,
    by simp, by simp, ?_⟩
  · intro k b hb
    exact Chain.progress_of (List.nil_subperm) hb
  · intro k b _ _
    rw [hentry, Chain.expected, hlink]
    simp [Chain.progress_nil, Progress.start]
  · intro b _ hc
    exact absurd hc.1 (by simp [Chain.progress_nil, Progress.start])

/-- The next block is one its buffer can make progress by. -/
theorem Chain.next_block {pre : List Block} {x : Block} (hpre : (pre ++ [x]).Subperm c.blocks)
    (hb : c.buffers[k]? = some b) (hx : x.tag = b.tag) :
    x = .init (b.initBlock (c.prevTag k)) ∧ (c.progress pre k).init = false ∨
      ∃ d ∈ b.blocks, x = .data d := by
  have hsub := Chain.filter_subperm hpre hb
  rw [List.filter_append, List.filter_cons_of_pos (by simp [hx]), List.filter_nil] at hsub
  have hmem := hsub.subset (a := x) (by simp)
  rcases List.mem_cons.1 hmem with rfl | hdata
  · -- There is no second init block.
    refine .inl ⟨rfl, Bool.eq_false_iff.2 fun hinit => ?_⟩
    obtain ⟨i, hi⟩ := (Progress.arrived_foldl (pre.filter fun x => x.tag = b.tag)).2.1.1
      (by simpa [Chain.progress, hb] using hinit)
    obtain rfl : i = b.initBlock (c.prevTag k) := by
      simpa using hsub.subset (List.mem_append_left _ hi)
    have hcount := hsub.count_le (.init (b.initBlock (c.prevTag k)))
    have hpos := List.count_pos_iff.2 hi
    have hnone : (b.blocks.map Block.data).count (.init (b.initBlock (c.prevTag k))) = 0 :=
      List.count_eq_zero.2 (by simp)
    rw [List.count_append, List.count_singleton_self, List.count_cons_self, hnone] at hcount
    omega
  · obtain ⟨d, hd, rfl⟩ := List.mem_map.1 hdata
    exact .inr ⟨d, hd, rfl⟩

/-- An init block that arrives first is filed as a buffer that is not completed. -/
theorem wp_handleBlocks_init {i : InitBlock}
    (hi : i.flag = -1) {Q : PUnit → Reader → Prop} {E : Stop → Reader → Prop} :
    wp (handleBlocks o ([.init i].map (Block.bytes o pad))) Q E Reader.empty ↔
      Q ⟨⟩ (Reader.empty.fileNew (intKey i.tag) (.init { nextTag := noTag } i)) := by
  change wp (handleBlock o _ >>= fun _ => handleBlocks o []) _ _ _ ↔ _
  rw [wp_bind, handleBlock, Block.bytes, parseBlock_initBytes hi]
  exact Iff.rfl

/-- The reader handles every part of the blocks of a chain, in any order, and the
    invariant holds then. -/
theorem wp_handleBlocks (o : ByteOrder) (pad : InitBlock → List UInt8) {pre : List Block}
    (hpre : pre.Subperm c.blocks) {E : Stop → Reader → Prop} :
    wp (handleBlocks o (pre.map (Block.bytes o pad))) (fun _ r => ∃ m, Inv c (c.progress pre) m r) E
      Reader.empty := by
  rw [handleBlocks, List.forM_eq_forM, List.forM_map, ← List.forM_eq_forM]
  refine wp_forM (fun done r => ∃ m, Inv c (c.progress done) m r) ?_ ⟨0, inv_empty c⟩
  rintro done x post rfl r ⟨m, hinv⟩
  have hsub : (done ++ [x]).Subperm c.blocks :=
    (List.prefix_append (done ++ [x]) post).sublist.subperm.trans (by simpa using hpre)
  obtain ⟨k, b, hb, htag⟩ := Chain.exists_of_mem_blocks (hsub.subset (List.mem_concat_self))
  have hof := Chain.progress_of hsub hb
  rw [Chain.progress_concat hb htag] at hof ⊢
  exact hinv.wp_handleBlock hb (Chain.next_block hsub hb htag) (by simpa using hof)

/-- How far the reader is, is determined by what arrived. -/
theorem Inv.take_eq {pre : List Block} (hpre : pre.Subperm c.blocks)
    (h : Inv c (c.progress pre) m r) : c.arrivedBuffers pre = c.buffers.take m := by
  have hbefore : ∀ b ∈ c.buffers.take m, ∀ x ∈ c.blocks, x.tag = b.tag → x ∈ pre := by
    intro b hb
    obtain ⟨k, hk⟩ := List.mem_iff_getElem?.1 hb
    have hkm : k < m := by
      have := (List.getElem?_eq_some_iff.1 hk).1
      rw [List.length_take] at this
      omega
    rw [List.getElem?_take_of_lt hkm] at hk
    exact (Chain.progress_complete_iff hpre hk).1 (h.complete hk hkm)
  rw [Chain.arrivedBuffers]
  conv_lhs => rw [← List.take_append_drop m c.buffers]
  rw [List.takeWhile_append_of_pos fun b hb => decide_eq_true (hbefore b hb)]
  cases hrest : c.buffers[m]? with
  | none => rw [List.drop_eq_nil_of_le (List.getElem?_eq_none_iff.1 hrest)]; simp
  | some b =>
    have hnot := (Chain.progress_complete_iff hpre hrest).not.1 (h.blocked hrest)
    obtain ⟨hlt, rfl⟩ := List.getElem?_eq_some_iff.1 hrest
    rw [List.drop_eq_getElem_cons hlt, List.takeWhile_cons_of_neg (by simpa using hnot),
      List.append_nil]

/-- Of the buffers delivered, the last one has an entry. -/
theorem Inv.isSome_table_iff (h : Inv c G m r) (hb : c.buffers[k]? = some b) (hk : k < m) :
    (r.table (intKey b.tag)).isSome ↔ k + 1 = m := by
  rw [Option.isSome_iff_ne_none, ne_eq, ← h.wf.entry_eq_none]
  constructor
  · intro hne
    by_contra hkm
    exact hne (h.gone hb (by omega))
  · intro hkm
    simp [h.last hb hkm]

/-- When all blocks of a chain arrived, all its buffers are delivered. -/
theorem handleBlocks_of_perm (o : ByteOrder) (pad : InitBlock → List UInt8) {arrival : List Block}
    (harrival : arrival.Perm c.blocks) :
    ∃ r, handleBlocks o (arrival.map (Block.bytes o pad)) Reader.empty = .ok ⟨⟩ r ∧
      r.handled = c.buffers.map fun b => b.bytes.map some := by
  obtain ⟨_, r, hrun, m, hinv⟩ := ok_of_wp (wp_handleBlocks o pad harrival.subperm)
  have hall : c.arrivedBuffers arrival = c.buffers := by
    rw [Chain.arrivedBuffers, List.takeWhile_eq_self_iff]
    exact fun b _ => decide_eq_true fun x hx _ => harrival.mem_iff.2 hx
  refine ⟨r, hrun, ?_⟩
  rw [hinv.handled, ← hinv.take_eq harrival.subperm, hall]

/-- Whatever order the blocks of a chain arrive in, and however many of them did:
    the buffers passed to the handler are those of the chain, from the first on up
    to the first that is not all there, once each and with their bytes; and of
    those only the last one is left in the table. -/
theorem handleBlocks_in_order (o : ByteOrder) (pad : InitBlock → List UInt8) (c : Chain)
    {pre arrival : List Block} (harrival : arrival.Perm c.blocks) (hpre : pre <+: arrival) :
    ∃ r, handleBlocks o (pre.map (Block.bytes o pad)) Reader.empty = .ok ⟨⟩ r ∧
      r.handled = (c.arrivedBuffers pre).map (fun b => b.bytes.map some) ∧
      ∀ k b, (c.arrivedBuffers pre)[k]? = some b →
        ((r.table (intKey b.tag)).isSome ↔ k + 1 = (c.arrivedBuffers pre).length) := by
  have hsub : pre.Subperm c.blocks := hpre.sublist.subperm.trans harrival.subperm
  obtain ⟨_, r, hrun, m, hinv⟩ := ok_of_wp (wp_handleBlocks o pad hsub)
  rw [hinv.take_eq hsub]
  refine ⟨r, hrun, hinv.handled, fun k b hb => ?_⟩
  have hlen : (c.buffers.take m).length = m := by
    rw [List.length_take, min_eq_left hinv.le]
  have hkm : k < m := by
    have := (List.getElem?_eq_some_iff.1 hb).1
    omega
  rw [List.getElem?_take_of_lt hkm] at hb
  rw [hlen]
  exact hinv.isSome_table_iff hb hkm

/-- A chain of a buffer cut in two and a buffer of one byte. -/
def twoBuffers : Chain where
  buffers := [
    .chop 0 [1, 2, 3] 2 (by decide) (by decide) (by decide) (by decide) (by decide),
    .chop 1 [4] 1 (by decide) (by decide) (by decide) (by decide) (by decide)]
  nodup := by decide

/-- The blocks of `twoBuffers`, the last one first. -/
theorem handleBlocks_in_order_reversed :
    ∃ r, handleBlocks .little (twoBuffers.blocks.reverse.map
        (Block.bytes .little fun _ => [0, 0, 0])) Reader.empty = .ok ⟨⟩ r ∧
      r.handled = [[some 1, some 2, some 3], [some 4]] ∧
      (r.table (intKey 0)).isSome = false ∧ (r.table (intKey 1)).isSome = true := by
  obtain ⟨r, hrun, hhandled, htable⟩ := handleBlocks_in_order .little (fun _ => [0, 0, 0])
    twoBuffers twoBuffers.blocks.reverse_perm (List.prefix_refl _)
  have hall : twoBuffers.arrivedBuffers twoBuffers.blocks.reverse = twoBuffers.buffers := rfl
  rw [hall] at hhandled htable
  refine ⟨r, hrun, hhandled, ?_, ?_⟩
  · exact Bool.eq_false_iff.2 fun h => absurd ((htable 0 _ rfl).1 h) (by decide)
  · exact (htable 1 _ rfl).2 rfl

end Runs

end Cse461.Multiplex
