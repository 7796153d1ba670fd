import Cse461.Multiplex.Cascade
import Cse461.Multiplex.Chain

/-!
# In-order delivery

What holds between two calls of a reader that handles the blocks of a chain, in
whatever order they arrive: an invariant of the progress `G` of the buffers of the chain and of
the number `m` of buffers delivered (`Inv`). It determines the table: an entry
for the last delivered buffer, marked as sent, and for every buffer after it the
entry that its progress, and that of the buffer after it, gives (`expected`):

* none, if nothing arrived of it and the next one is not complete;
* a dummy, with the data blocks that came before the init block in its queue;
* a valid entry, with the data blocks copied to it.

A buffer completed out of turn leaves its tag as the `next_tag` of the one before
(`link`). A buffer completed in turn starts a cascade (`exists_cascade`), which
ends at the first buffer that is not complete. `Inv.wp_handleFinishedBufferPrev`
is the step of the invariant in both cases.
-/

namespace Cse461.Multiplex

open Library Reader

namespace Chain

variable (c : Chain) (G : ℕ → Progress)

/-- The `next_tag` of the `k`-th buffer: the tag of the buffer after it, if that
    is complete. -/
def link (k : ℕ) : Int32 :=
  match c.buffers[k + 1]? with
  | some b => if (G (k + 1)).Complete b then b.tag else noTag
  | none => noTag

/-- The entry of the `k`-th buffer `b` once its init block arrived. -/
def info (k : ℕ) (b : SplitBuffer) : BufferInfo where
  buffer := writeAll (fresh b.bytes.length) ((G k).copied.map DataBlock.piece)
  bufferSize := UInt32.ofNat b.bytes.length
  tag := b.tag
  completed := (G k).Complete b
  sent := false
  nWritten := UInt32.ofNat (payloadBytes (G k).copied)
  prevTag := c.prevTag k
  lastBlock := false
  valid := true
  nextTag := c.link G k
  waitingQueue := (G k).queue

/-- The entry of the `k`-th buffer `b` as long as it is not delivered. -/
def expected (k : ℕ) (b : SplitBuffer) : Option BufferInfo :=
  if (G k).init then
    some (c.info G k b)
  else if (G k).queue.isSome ∨ c.link G k ≠ noTag then
    some { tag := b.tag, nextTag := c.link G k, waitingQueue := (G k).queue }
  else
    none

variable {c G} {j k : ℕ} {b b' : SplitBuffer} {g : Progress}

/-- The key of a buffer of the chain is that of no other. -/
theorem index_unique (hj : c.buffers[j]? = some b) (hk : c.buffers[k]? = some b')
    (h : intKey b.tag = intKey b'.tag) : j = k := by
  have hlt : j < (c.buffers.map SplitBuffer.tag).length := by
    rw [List.length_map]
    exact (List.getElem?_eq_some_iff.1 hj).1
  refine List.getElem?_inj hlt c.nodup |>.1 ?_
  simp [hj, hk, intKey_injective h]

theorem link_ne_noTag_iff : c.link G k ≠ noTag ↔
    ∃ b, c.buffers[k + 1]? = some b ∧ (G (k + 1)).Complete b ∧ c.link G k = b.tag := by
  unfold link
  cases h : c.buffers[k + 1]? with
  | none => simp
  | some b =>
    by_cases hc : (G (k + 1)).Complete b
    · simp [hc, b.tag_ne_noTag]
    · simp [hc]

theorem link_of_complete (hb : c.buffers[k + 1]? = some b) (hc : (G (k + 1)).Complete b) :
    c.link G k = b.tag := by
  simp [link, hb, hc]

/-- Progress that completes nothing leaves the links alone. -/
theorem link_update (hb : c.buffers[k]? = some b) (hc : g.Complete b ↔ (G k).Complete b) :
    c.link (Function.update G k g) = c.link G := by
  funext j
  by_cases hj : j + 1 = k
  · subst hj
    simp [link, hb, hc]
  · simp [link, hj]

theorem sent_of_expected {i : BufferInfo} (h : c.expected G k b = some i) : i.sent = false := by
  unfold expected at h
  split at h
  · rw [← Option.some.inj h]
    rfl
  · split at h
    · rw [← Option.some.inj h]
    · exact absurd h (by simp)

/-- Progress of a buffer shows in the link of the one before only. -/
theorem link_update_of_ne (hj : j + 1 ≠ k) : c.link (Function.update G k g) j = c.link G j := by
  simp [link, hj]

/-- Completing a buffer leaves its tag with the one before, which has an entry
    from then on. -/
theorem expected_of_complete_succ (hb : c.buffers[k + 1]? = some b) (hc : g.Complete b) :
    c.expected (Function.update G (k + 1) g) k b' =
      some { (c.expected G k b').getD { tag := b'.tag } with nextTag := b.tag } := by
  have hlink : c.link (Function.update G (k + 1) g) k = b.tag :=
    link_of_complete hb (by simpa using hc)
  by_cases hinit : (G k).init = true
  · simp [expected, info, hinit, hlink]
  · by_cases hq : (G k).queue.isSome ∨ c.link G k ≠ noTag
    · simp [expected, hinit, hq, hlink, b.tag_ne_noTag]
    · have hqueue : (G k).queue = none := by
        by_contra hne
        exact hq (.inl (Option.isSome_iff_ne_none.2 hne))
      have hold : c.link G k = noTag := by_contra fun hne => hq (.inr hne)
      simp [expected, hinit, hold, hlink, b.tag_ne_noTag, hqueue]

/-- Progress of another buffer only shows in the link. -/
theorem expected_congr {G' : ℕ → Progress} (hG : G' k = G k) (hl : c.link G' k = c.link G k) :
    c.expected G' k b = c.expected G k b := by
  simp [expected, info, hG, hl]

theorem toNat_bufferSize : (c.info G k b).bufferSize.toNat = b.bytes.length := by
  rw [info, UInt32.toNat_ofNat', Nat.mod_eq_of_lt b.length_lt]

theorem length_buffer (hg : (G k).Of b) : (c.info G k b).buffer.length = b.bytes.length :=
  length_writeAll (length_fresh _) hg.cutFrom

/-- A complete buffer holds the bytes it was cut from. -/
theorem bytes_info (hg : (G k).Of b) (hc : (G k).Complete b) :
    (c.info G k b).bytes = b.bytes.map some := by
  have hbuffer : (c.info G k b).buffer = b.bytes.map some :=
    writeAll_of_tiles (length_fresh _) hg.cutFrom (b.tiles.perm (hc.2.map _).symm)
  rw [BufferInfo.bytes, hbuffer, toNat_bufferSize, List.take_of_length_le (by simp)]

/-- A data block of the buffer has its place in it. -/
theorem info_fits {d : DataBlock} (hg : (G k).Of b) (hd : d ∈ b.blocks) :
    (c.info G k b).Fits d := by
  have hcut := (b.cut d hd).1
  refine ⟨(SplitBuffer.toNat_dataSize hd).le, ?_⟩
  rw [SplitBuffer.toNat_dataSize hd, length_buffer hg]
  exact hcut

/-- Copying a data block is progress, except that `completed` is not set yet. -/
theorem info_copy {d : DataBlock} (hd : d ∈ b.blocks)
    (hcopied : g.copied = (G k).copied ++ [d]) (hqueue : g.queue = (G k).queue) :
    { (c.info G k b).copy d with completed := g.Complete b } =
      c.info (Function.update G k g) k b := by
  have hpayload : d.payload.take d.dataSize.toNat = d.payload := by
    rw [SplitBuffer.toNat_dataSize hd, List.take_length]
  have hbuffer : write (c.info G k b).buffer d.seqNumber.toNat d.payload =
      writeAll (fresh b.bytes.length) (g.copied.map DataBlock.piece) := by
    simp [info, hcopied, writeAll, DataBlock.piece]
  have hwritten : (c.info G k b).nWritten + d.dataSize =
      UInt32.ofNat (payloadBytes g.copied) := by
    simp [info, hcopied, SplitBuffer.dataSize_eq hd, payloadBytes]
  have hlink : c.link (Function.update G k g) k = c.link G k := link_update_of_ne (by omega)
  rw [BufferInfo.copy, hpayload, hbuffer, hwritten]
  simp [info, hqueue, hlink]

/-- The byte count of a buffer reaches its size when the buffer is complete. -/
theorem nWritten_eq_bufferSize_iff (hg : (G k).Of b) (hinit : (G k).init = true) :
    (c.info G k b).nWritten = (c.info G k b).bufferSize ↔ (G k).Complete b := by
  have hle := hg.payloadBytes_le
  have hlt := b.length_lt
  rw [← UInt32.toNat_inj, toNat_bufferSize, info, UInt32.toNat_ofNat', Nat.mod_eq_of_lt (by omega),
    hg.payloadBytes_eq_iff]
  exact (and_iff_right hinit).symm

end Chain

/-- The entries of the buffers from the `m`-th on are those expected, the buffers
    before are complete, and were passed to the handler. -/
structure Tracks (c : Chain) (G : ℕ → Progress) (m : ℕ) (r : Reader) : Prop where
  wf : r.WellFormed
  of : ∀ {k b}, c.buffers[k]? = some b → (G k).Of b
  le : m ≤ c.buffers.length
  complete : ∀ {k b}, c.buffers[k]? = some b → k < m → (G k).Complete b
  ahead : ∀ {k b}, c.buffers[k]? = some b → m ≤ k → r.entry (intKey b.tag) = c.expected G k b
  other : ∀ {key}, (∀ b ∈ c.buffers, key ≠ intKey b.tag) → r.entry key = none
  handled : r.handled = (c.buffers.take m).map fun b => b.bytes.map some

/-- The `m`-th buffer is the first that is not complete, and the one before is
    the only one delivered that still has an entry. -/
structure Inv (c : Chain) (G : ℕ → Progress) (m : ℕ) (r : Reader) : Prop
    extends Tracks c G m r where
  gone : ∀ {k b}, c.buffers[k]? = some b → k + 1 < m → r.entry (intKey b.tag) = none
  last : ∀ {k b}, c.buffers[k]? = some b → k + 1 = m →
    r.entry (intKey b.tag) = some { c.info G k b with sent := true }
  blocked : ∀ {b}, c.buffers[m]? = some b → ¬(G m).Complete b

variable {c : Chain} {G : ℕ → Progress} {m k : ℕ} {r r' : Reader} {b : SplitBuffer}
  {g : Progress}

/-- Progress of the `k`-th buffer that does not let it be delivered changes the
    entries from the `m`-th on only, to what is expected of them. -/
theorem Inv.advance (h : Inv c G m r) (hb : c.buffers[k]? = some b) (hk : m ≤ k)
    (hg : g.Of b) (hm : m = k → ¬g.Complete b) (hwf : r'.WellFormed)
    (hahead : ∀ {j b'}, c.buffers[j]? = some b' → m ≤ j →
      r'.entry (intKey b'.tag) = c.expected (Function.update G k g) j b')
    (hsame : ∀ {key}, (∀ {j b'}, c.buffers[j]? = some b' → m ≤ j → key ≠ intKey b'.tag) →
      r'.entry key = r.entry key)
    (hhandled : r'.handled = r.handled) : Inv c (Function.update G k g) m r' where
  wf := hwf
  of {j b'} hj := by
    by_cases hjk : j = k
    · subst hjk
      obtain rfl : b = b' := by simpa [hb] using hj
      simpa using hg
    · simpa [hjk] using h.of hj
  le := h.le
  complete {j b'} hj hjm := by
    have hjk : j ≠ k := by omega
    simpa [hjk] using h.complete hj hjm
  ahead := hahead
  other {key} hkey := by
    rw [hsame fun hj _ => hkey _ (List.mem_of_getElem? hj), h.other hkey]
  handled := by rw [hhandled, h.handled]
  gone {j b'} hj hjm := by
    rw [hsame fun hi hmi he => by have := Chain.index_unique hj hi he; omega, h.gone hj hjm]
  last {j b'} hj hjm := by
    have hlink : c.link (Function.update G k g) j = c.link G j := by
      by_cases hmk : m = k
      · subst hmk hjm
        simp [Chain.link, hb, hm rfl, h.blocked hb]
      · exact Chain.link_update_of_ne (by omega)
    have hinfo : c.info (Function.update G k g) j b' = c.info G j b' := by
      have hjk : j ≠ k := by omega
      simp [Chain.info, hlink, hjk]
    rw [hsame fun hi hmi he => by have := Chain.index_unique hj hi he; omega, hinfo]
    exact h.last hj hjm
  blocked {b'} hb' := by
    by_cases hmk : m = k
    · obtain rfl : b = b' := by simpa [← hmk, hb'] using hb.symm
      simpa [hmk] using hm hmk
    · simpa [hmk] using h.blocked hb'

/-- Progress of the `k`-th buffer that does not complete it changes its entry only. -/
theorem Inv.advance_entry (h : Inv c G m r) (hb : c.buffers[k]? = some b) (hk : m ≤ k)
    (hg : g.Of b) (hc : g.Complete b ↔ (G k).Complete b) (hwf : r'.WellFormed)
    (hentry : r'.entry =
      Function.update r.entry (intKey b.tag) (c.expected (Function.update G k g) k b))
    (hhandled : r'.handled = r.handled) : Inv c (Function.update G k g) m r' := by
  refine h.advance hb hk hg ?_ hwf ?_ ?_ hhandled
  · rintro rfl
    rw [hc]
    exact h.blocked hb
  · intro j b' hj hjm
    by_cases hjk : j = k
    · subst hjk
      obtain rfl : b = b' := by simpa [hb] using hj
      simp [hentry]
    · have hkey : intKey b'.tag ≠ intKey b.tag := fun he => hjk (Chain.index_unique hj hb he)
      rw [hentry, Function.update_of_ne hkey, h.ahead hj hjm]
      exact (Chain.expected_congr (by simp [hjk]) (by rw [Chain.link_update hb hc])).symm
  · intro key hkey
    rw [hentry, Function.update_of_ne (hkey hb hk)]

/-! ## Sending -/

/-- The address of the `k`-th buffer. -/
def Chain.address (c : Chain) (r : Reader) (k : ℕ) : Ptr :=
  (c.buffers[k]?.bind fun b => r.table (intKey b.tag)).getD 0

theorem Chain.address_eq {p : Ptr} (hb : c.buffers[k]? = some b)
    (hp : r.table (intKey b.tag) = some p) : c.address r k = p := by
  simp [address, hb, hp]

/-- A complete buffer that is not delivered is where its entry says. -/
theorem Tracks.address (h : Tracks c G m r) (hb : c.buffers[k]? = some b) (hk : m ≤ k)
    (hc : (G k).Complete b) : r.table (intKey b.tag) = some (c.address r k) ∧
      r.heap (c.address r k) = some (c.info G k b) := by
  have he : r.entry (intKey b.tag) = some (c.info G k b) := by
    rw [h.ahead hb hk, Chain.expected, if_pos hc.1]
  obtain ⟨p, hp, hheap⟩ := entry_eq_some.1 he
  rw [Chain.address_eq hb hp]
  exact ⟨hp, hheap⟩

theorem Tracks.table_noTag (h : Tracks c G m r) : r.table (intKey noTag) = none := by
  rw [← h.wf.entry_eq_none]
  exact h.other fun b _ he => b.tag_ne_noTag (intKey_injective he).symm

/-- The cascade from a complete buffer goes on to the first that is not. -/
theorem Tracks.exists_cascade (h : Tracks c G m r) (hb : c.buffers[k]? = some b) (hk : m ≤ k)
    (hc : (G k).Complete b) : ∃ n, k + n < c.buffers.length ∧
      r.Cascade (c.address r k) ((List.range' k (n + 1)).map (c.address r)) ∧
      (∀ {j b'}, c.buffers[j]? = some b' → k ≤ j → j ≤ k + n → (G j).Complete b') ∧
      ∀ {b'}, c.buffers[k + n + 1]? = some b' → ¬(G (k + n + 1)).Complete b' := by
  induction hn : c.buffers.length - k generalizing k b with
  | zero =>
    have := (List.getElem?_eq_some_iff.1 hb).1
    omega
  | succ n ih =>
    have hlt := (List.getElem?_eq_some_iff.1 hb).1
    obtain ⟨hp, hheap⟩ := h.address hb hk hc
    have hself : ∀ {j b'}, c.buffers[j]? = some b' → k ≤ j → j ≤ k + 0 → (G j).Complete b' := by
      intro j b' hj hkj hjk
      obtain rfl : j = k := by omega
      obtain rfl : b = b' := by simpa [hb] using hj
      exact hc
    by_cases hnext : ∃ b', c.buffers[k + 1]? = some b' ∧ (G (k + 1)).Complete b'
    · obtain ⟨b', hb', hc'⟩ := hnext
      obtain ⟨hp', hheap'⟩ := h.address hb' (by omega) hc'
      obtain ⟨n, hlen, hcascade, hall, hend⟩ := ih hb' (by omega) hc' (by omega)
      refine ⟨n + 1, by omega, ?_, ?_, ?_⟩
      · rw [List.range'_succ, List.map_cons]
        refine .step hheap ?_ hheap' (by simp [Chain.info, hc']) hcascade
        simpa [follow, Chain.info, Chain.link_of_complete hb' hc'] using hp'
      · intro j b'' hj hkj hjn
        by_cases hjk : j = k
        · exact hself hj hkj (by omega)
        · exact hall hj (by omega) (by omega)
      · rw [show k + (n + 1) + 1 = k + 1 + n + 1 by omega]
        exact hend
    · have hlink : c.link G k = noTag := by
        by_contra hne
        obtain ⟨b', hb', hc', _⟩ := Chain.link_ne_noTag_iff.1 hne
        exact hnext ⟨b', hb', hc'⟩
      refine ⟨0, by omega, ?_, hself, fun {b'} hb' hc' => hnext ⟨b', hb', hc'⟩⟩
      refine .stop hheap fun q hq => ?_
      simp [follow, Chain.info, hlink, h.table_noTag] at hq

/-- The elements at consecutive indices. -/
theorem filterMap_getElem?_range' {α : Type*} (xs : List α) (i n : ℕ) :
    (List.range' i n).filterMap (fun j => xs[j]?) = (xs.drop i).take n := by
  induction n generalizing i with
  | zero => simp
  | succ n ih =>
    rw [List.range'_succ]
    cases hx : xs[i]? with
    | none =>
      have hi : xs.length ≤ i := List.getElem?_eq_none_iff.1 hx
      rw [List.filterMap_cons_none hx, ih, List.drop_eq_nil_of_le hi,
        List.drop_eq_nil_of_le (by omega)]
      simp
    | some x =>
      obtain ⟨hi, rfl⟩ := List.getElem?_eq_some_iff.1 hx
      rw [List.filterMap_cons_some hx, ih, List.drop_eq_getElem_cons hi, List.take_succ_cons]

/-- The buffers of a cascade are gone but the last, which is sent. -/
theorem Tracks.sendAll (h : Tracks c G m r) {n : ℕ} (hlen : m + n < c.buffers.length)
    (hgone : ∀ {j b'}, c.buffers[j]? = some b' → j < m → r.entry (intKey b'.tag) = none)
    (hall : ∀ {j b'}, c.buffers[j]? = some b' → m ≤ j → j ≤ m + n → (G j).Complete b')
    (hend : ∀ {b'}, c.buffers[m + n + 1]? = some b' → ¬(G (m + n + 1)).Complete b') :
    Inv c G (m + n + 1) (r.sendAll ((List.range' m (n + 1)).map (c.address r))) := by
  have hfiled : ∀ {j b'}, c.buffers[j]? = some b' → m ≤ j → j ≤ m + n →
      r.table (intKey b'.tag) = some (c.address r j) ∧
        r.heap (c.address r j) = some (c.info G j b') := fun hj hmj hjn =>
    h.address hj hmj (hall hj hmj hjn)
  have hbuffer : ∀ {j}, j ≤ m + n → ∃ b', c.buffers[j]? = some b' := fun hj =>
    ⟨_, List.getElem?_eq_getElem (by omega)⟩
  have hlast : ((List.range' m (n + 1)).map (c.address r)).dropLast =
      (List.range' m n).map (c.address r) := by
    rw [List.range'_concat, List.map_append, List.map_singleton, List.dropLast_concat]
  have hremoved : ∀ {key}, some key ∈ ((List.range' m n).map (c.address r)).map r.ownKey ↔
      ∃ j b', c.buffers[j]? = some b' ∧ m ≤ j ∧ j < m + n ∧ key = intKey b'.tag := by
    intro key
    simp only [List.mem_map, List.mem_range'_1, exists_exists_and_eq_and]
    constructor
    · rintro ⟨j, ⟨hmj, hjn⟩, hkey⟩
      obtain ⟨b', hb'⟩ := hbuffer (j := j) (by omega)
      refine ⟨j, b', hb', hmj, hjn, ?_⟩
      simpa [ownKey, (hfiled hb' hmj (by omega)).2, Chain.info] using hkey.symm
    · rintro ⟨j, b', hb', hmj, hjn, rfl⟩
      exact ⟨j, ⟨hmj, hjn⟩, by simp [ownKey, (hfiled hb' hmj (by omega)).2, Chain.info]⟩
  have hkept : ∀ {j b'}, c.buffers[j]? = some b' → m + n ≤ j →
      some (intKey b'.tag) ∉
        ((List.range' m (n + 1)).map (c.address r)).dropLast.map r.ownKey := by
    intro j b' hj hjn hmem
    rw [hlast, hremoved] at hmem
    obtain ⟨i, b'', hi, _, hin, hkey⟩ := hmem
    have := Chain.index_unique hj hi hkey
    omega
  have hnone : ∀ {key}, r.entry key = none →
      (r.sendAll ((List.range' m (n + 1)).map (c.address r))).entry key = none :=
    fun hkey => entry_sendAll_of_none (h.wf.entry_eq_none.1 hkey)
  refine ⟨⟨h.wf.sendAll, h.of, hlen, ?_, ?_, fun hkey => hnone (h.other hkey), ?_⟩, ?_, ?_, hend⟩
  · intro j b' hj hjn
    by_cases hjm : j < m
    · exact h.complete hj hjm
    · exact hall hj (by omega) (by omega)
  · intro j b' hj hjn
    rw [← h.ahead hj (by omega)]
    cases he : r.entry (intKey b'.tag) with
    | none => exact hnone he
    | some i =>
      obtain ⟨p, hp, hheap⟩ := entry_eq_some.1 he
      rw [entry_sendAll (hkept hj (by omega)) hp hheap, if_neg]
      intro hmem
      obtain ⟨i, hi, rfl⟩ := List.mem_map.1 hmem
      rw [List.mem_range'_1] at hi
      obtain ⟨b'', hb''⟩ := hbuffer (j := i) (by omega)
      have := Chain.index_unique hj hb'' (h.wf.inj hp (hfiled hb'' hi.1 (by omega)).1)
      omega
  · rw [handled_sendAll, h.handled, List.filterMap_map, add_assoc, List.take_add, List.map_append,
      ← filterMap_getElem?_range', List.map_filterMap]
    congr 1
    refine List.filterMap_congr fun j hj => ?_
    rw [List.mem_range'_1] at hj
    obtain ⟨b', hb'⟩ := hbuffer (j := j) (by omega)
    have hc := hall hb' hj.1 (by omega)
    simp [(hfiled hb' hj.1 (by omega)).2, hb', Chain.bytes_info (h.of hb') hc]
  · intro j b' hj hjn
    by_cases hjm : j < m
    · exact hnone (hgone hj hjm)
    · refine entry_sendAll_of_removed ?_
      rw [hlast, hremoved]
      exact ⟨j, b', hj, by omega, by omega, rfl⟩
  · intro j b' hj hjn
    obtain rfl : j = m + n := by omega
    obtain ⟨hp, hheap⟩ := hfiled hj (by omega) le_rfl
    rw [entry_sendAll (hkept hj le_rfl) hp hheap,
      if_pos (List.mem_map_of_mem (List.mem_range'_1.2 (by omega)))]

/-- The addresses of the buffers of a cascade are distinct. -/
theorem Tracks.nodup_address (h : Tracks c G m r) {n : ℕ} (hlen : m + n < c.buffers.length)
    (hall : ∀ {j b'}, c.buffers[j]? = some b' → m ≤ j → j ≤ m + n → (G j).Complete b') :
    ((List.range' m (n + 1)).map (c.address r)).Nodup := by
  refine List.Nodup.map_on (fun i hi j hj he => ?_) List.nodup_range'
  rw [List.mem_range'_1] at hi hj
  obtain ⟨b₁, hb₁⟩ : ∃ b₁, c.buffers[i]? = some b₁ := ⟨_, List.getElem?_eq_getElem (by omega)⟩
  obtain ⟨b₂, hb₂⟩ : ∃ b₂, c.buffers[j]? = some b₂ := ⟨_, List.getElem?_eq_getElem (by omega)⟩
  have hp₁ := (h.address hb₁ hi.1 (hall hb₁ hi.1 (by omega))).1
  have hp₂ := (h.address hb₂ hj.1 (hall hb₂ hj.1 (by omega))).1
  exact Chain.index_unique hb₁ hb₂ (h.wf.inj hp₁ (he ▸ hp₂))

/-- Once the buffers before the `m`-th are gone and that one is complete, it is
    sent, and the complete ones after it. -/
theorem Tracks.wp_sendBuffer (h : Tracks c G m r) {p : Ptr} (hb : c.buffers[m]? = some b)
    (hc : (G m).Complete b) (hp : r.table (intKey b.tag) = some p)
    (hgone : ∀ {j b'}, c.buffers[j]? = some b' → j < m → r.entry (intKey b'.tag) = none)
    {Q : PUnit → Reader → Prop} {E : Stop → Reader → Prop}
    (hQ : ∀ l m', Inv c G m' (r.sendAll l) → Q ⟨⟩ (r.sendAll l)) : wp (sendBuffer p) Q E r := by
  obtain ⟨n, hlen, hcascade, hall, hend⟩ := h.exists_cascade hb le_rfl hc
  rw [Chain.address_eq hb hp] at hcascade
  rw [Multiplex.wp_sendBuffer h.wf hcascade (h.nodup_address hlen hall)]
  exact hQ _ _ (h.sendAll hlen hgone hall hend)

/-! ## Finishing a buffer -/

/-- `p` is the address of the buffer `b` if that is filed, and of no other, and
    `queue` waits for it. -/
structure Owns (r : Reader) (p : Ptr) (b : SplitBuffer) (queue : Option (List DataBlock)) :
    Prop where
  heap : ∃ i, r.heap p = some i ∧ i.waitingQueue = queue
  filed : ∀ {key q}, r.table key = some q → (key = intKey b.tag ↔ q = p)

section Owns

variable {p q : Ptr} {queue : Option (List DataBlock)} {i : BufferInfo} {key : UInt64}

theorem Owns.sendAll (h : Owns r p b queue) (l : List Ptr) : Owns (r.sendAll l) p b queue where
  heap := by
    obtain ⟨i, hi, hq⟩ := h.heap
    exact ⟨_, heap_sendAll hi, hq⟩
  filed hq := h.filed (table_of_table_sendAll hq)

theorem Owns.set (h : Owns r p b queue) (hi : i.waitingQueue = queue) :
    Owns (r.set p i) p b queue where
  heap := ⟨i, by simp, hi⟩
  filed := h.filed

theorem Owns.set_of_ne (h : Owns r p b queue) (hq : q ≠ p) : Owns (r.set q i) p b queue where
  heap := by simpa [hq.symm] using h.heap
  filed := h.filed

theorem Owns.dispose (h : Owns r p b queue) (hq : q ≠ p) : Owns (r.dispose key q) p b queue where
  heap := by simpa [hq.symm] using h.heap
  filed {key' q'} hq' := by
    by_cases hk : key' = key
    · simp [hk] at hq'
    · exact h.filed (by simpa [hk] using hq')

theorem Owns.ne_next (h : Owns r p b queue) (hr : r.WellFormed) : p ≠ r.next := by
  obtain ⟨i, hi, _⟩ := h.heap
  exact (hr.below hi).ne

theorem Owns.fileNew (h : Owns r p b queue) (hr : r.WellFormed) (hkey : key ≠ intKey b.tag) :
    Owns (r.fileNew key i) p b queue where
  heap := by simpa [h.ne_next hr] using h.heap
  filed {key' q'} hq' := by
    by_cases hk : key' = key
    · have hnext : r.next = q' := by simpa [hk] using hq'
      exact iff_of_false (hk ▸ hkey) (hnext ▸ (h.ne_next hr).symm)
    · exact h.filed (by simpa [hk] using hq')

end Owns

/-- A buffer completed in turn changes its entry only. -/
theorem Inv.tracks_of_complete (h : Inv c G k r) (hb : c.buffers[k]? = some b) (hg : g.Of b)
    (hc : g.Complete b) (hwf : r'.WellFormed)
    (hentry : r'.entry =
      Function.update r.entry (intKey b.tag) (some (c.info (Function.update G k g) k b)))
    (hhandled : r'.handled = r.handled) : Tracks c (Function.update G k g) k r' where
  wf := hwf
  of {j b'} hj := by
    by_cases hjk : j = k
    · subst hjk
      obtain rfl : b = b' := by simpa [hb] using hj
      simpa using hg
    · simpa [hjk] using h.of hj
  le := h.le
  complete {j b'} hj hjk := by simpa [hjk.ne] using h.complete hj hjk
  ahead {j b'} hj hkj := by
    by_cases hjk : j = k
    · subst hjk
      obtain rfl : b = b' := by simpa [hb] using hj
      simp [hentry, Chain.expected, hc.1]
    · have hkey : intKey b'.tag ≠ intKey b.tag := fun he => hjk (Chain.index_unique hj hb he)
      rw [hentry, Function.update_of_ne hkey, h.ahead hj hkj]
      exact (Chain.expected_congr (by simp [hjk]) (Chain.link_update_of_ne (by omega))).symm
  other {key} hkey := by
    rw [hentry, Function.update_of_ne (hkey b (List.mem_of_getElem? hb)), h.other hkey]
  handled := by rw [hhandled, h.handled]

/-- The entry of a delivered buffer is not missed. -/
theorem Tracks.dispose {p : Ptr} (h : Tracks c G m r) (hb : c.buffers[k]? = some b) (hk : k < m)
    (hp : r.table (intKey b.tag) = some p) : Tracks c G m (r.dispose (intKey b.tag) p) where
  wf := h.wf.dispose hp
  of := h.of
  le := h.le
  complete := h.complete
  ahead {j b'} hj hmj := by
    have hkey : intKey b'.tag ≠ intKey b.tag := fun he => by
      have := Chain.index_unique hj hb he
      omega
    rw [h.wf.entry_dispose hp, Function.update_of_ne hkey, h.ahead hj hmj]
  other {key} hkey := by
    rw [h.wf.entry_dispose hp, Function.update_of_ne (hkey b (List.mem_of_getElem? hb)),
      h.other hkey]
  handled := h.handled

/-- A buffer completed out of turn changes its entry and that of the one before. -/
theorem Inv.of_complete_succ {b₀ : SplitBuffer} (h : Inv c G m r)
    (hb : c.buffers[k + 1]? = some b) (hb₀ : c.buffers[k]? = some b₀) (hk : m ≤ k) (hg : g.Of b)
    (hc : g.Complete b) (hwf : r'.WellFormed)
    (hentry : r'.entry = Function.update
      (Function.update r.entry (intKey b.tag) (some (c.info (Function.update G (k + 1) g) (k + 1) b)))
      (intKey b₀.tag) (some { (r.entry (intKey b₀.tag)).getD { tag := b₀.tag } with
        nextTag := b.tag }))
    (hhandled : r'.handled = r.handled) : Inv c (Function.update G (k + 1) g) m r' := by
  refine h.advance hb (by omega) hg (by omega) hwf ?_ ?_ hhandled
  · intro j b' hj hmj
    by_cases hjk : j = k
    · subst hjk
      obtain rfl : b₀ = b' := by simpa [hb₀] using hj
      rw [hentry, Function.update_self, Chain.expected_of_complete_succ hb hc, h.ahead hj hmj]
    · have hkey₀ : intKey b'.tag ≠ intKey b₀.tag := fun he => hjk (Chain.index_unique hj hb₀ he)
      rw [hentry, Function.update_of_ne hkey₀]
      by_cases hjk' : j = k + 1
      · subst hjk'
        obtain rfl : b = b' := by simpa [hb] using hj
        simp [Chain.expected, hc.1]
      · have hkey : intKey b'.tag ≠ intKey b.tag := fun he => hjk' (Chain.index_unique hj hb he)
        rw [Function.update_of_ne hkey, h.ahead hj hmj]
        exact (Chain.expected_congr (by simp [hjk'])
          (Chain.link_update_of_ne (by omega))).symm
  · intro key hkey
    rw [hentry, Function.update_of_ne (hkey hb₀ hk), Function.update_of_ne (hkey hb (by omega))]

/-- `handle_finished_buffer_prev` on a buffer just completed. -/
theorem Inv.wp_handleFinishedBufferPrev (h : Inv c G m r) (hb : c.buffers[k]? = some b)
    (hnot : ¬(G k).Complete b) (hg : g.Of b) (hc : g.Complete b) (hwf : r'.WellFormed)
    (hentry : r'.entry =
      Function.update r.entry (intKey b.tag) (some (c.info (Function.update G k g) k b)))
    (hhandled : r'.handled = r.handled) {p : Ptr} (hp : r'.table (intKey b.tag) = some p)
    {queue : Option (List DataBlock)} (howns : Owns r' p b queue)
    {E : Stop → Reader → Prop} : wp (handleFinishedBufferPrev p) (fun _ r'' =>
      (∃ m', Inv c (Function.update G k g) m' r'') ∧ Owns r'' p b queue) E r' := by
  have hk : m ≤ k := by
    by_contra hlt
    exact hnot (h.complete hb (not_le.1 hlt))
  obtain ⟨p', hp', hheap⟩ := entry_eq_some.1
    (show r'.entry (intKey b.tag) = some (c.info (Function.update G k g) k b) by simp [hentry])
  obtain rfl : p = p' := by simpa [hp] using hp'
  unfold handleFinishedBufferPrev
  rw [wp_bind, wp_load hheap]
  cases k with
  | zero =>
    -- The first buffer has no dependency.
    obtain rfl : m = 0 := by omega
    rw [if_neg (by simp [Chain.info, Chain.prevTag])]
    have htracks := h.tracks_of_complete hb hg hc hwf hentry hhandled
    refine htracks.wp_sendBuffer hb (by simpa using hc) hp (fun _ hj => by omega) ?_
    exact fun l m' hinv => ⟨⟨m', hinv⟩, howns.sendAll l⟩
  | succ k =>
    obtain ⟨b₀, hb₀⟩ : ∃ b₀, c.buffers[k]? = some b₀ := by
      have := (List.getElem?_eq_some_iff.1 hb).1
      exact ⟨_, List.getElem?_eq_getElem (by omega)⟩
    have hprev : (c.info (Function.update G (k + 1) g) (k + 1) b).prevTag = b₀.tag := by
      simp [Chain.info, Chain.prevTag, hb₀]
    have hkey : intKey b₀.tag ≠ intKey b.tag := fun he => by
      have := Chain.index_unique hb₀ hb he
      omega
    have hentry₀ : r'.entry (intKey b₀.tag) = r.entry (intKey b₀.tag) := by
      rw [hentry, Function.update_of_ne hkey]
    rw [if_pos (by rw [hprev]; exact b₀.tag_ne_noTag), wp_bind]
    rcases hk.eq_or_lt with rfl | hlt
    · -- The one before was delivered, and is freed now.
      obtain ⟨q, hq, hheapq⟩ := entry_eq_some.1 (hentry₀.trans (h.last hb₀ rfl))
      have hqp : q ≠ p := fun he => hkey (((howns.filed hq).2 he).trans rfl)
      have htracks := (h.tracks_of_complete hb hg hc hwf hentry hhandled).dispose hb₀
        (Nat.lt_succ_self k) hq
      rw [wp_lookupPrev (hprev ▸ hq), wp_bind, wp_load hheapq, if_pos (by rfl), hprev, wp_bind,
        wp_removeFromHashTable, wp_bind, wp_free (r := r'.remove _) hheapq]
      refine htracks.wp_sendBuffer hb (by simpa using hc) (by simpa [hkey.symm] using hp) ?_ ?_
      · intro j b' hj hjk
        rw [hwf.entry_dispose hq]
        by_cases hj₀ : j = k
        · subst hj₀
          obtain rfl : b₀ = b' := by simpa [hb₀] using hj
          simp
        · have hkey₀ : intKey b'.tag ≠ intKey b₀.tag := fun he =>
            hj₀ (Chain.index_unique hj hb₀ he)
          have hkey' : intKey b'.tag ≠ intKey b.tag := fun he => by
            have := Chain.index_unique hj hb he
            omega
          rw [Function.update_of_ne hkey₀, hentry, Function.update_of_ne hkey', h.gone hj (by omega)]
      · exact fun l m' hinv => ⟨⟨m', hinv⟩, (howns.dispose hqp).sendAll l⟩
    · -- The one before was not: it gets to know this one.
      have hk' : m ≤ k := by omega
      cases hold : r.entry (intKey b₀.tag) with
      | none =>
        have hnone : r'.table (intKey b₀.tag) = none := hwf.entry_eq_none.1 (hentry₀.trans hold)
        have hfiled : ∀ d, (r'.fileNew (intKey b₀.tag) d).heap r'.next = some d := by simp
        rw [wp_lookupPrev_of_none (hprev ▸ hnone) (hprev ▸ b₀.tag_nonneg), hprev, wp_bind,
          wp_load (hfiled _), if_neg (by simp [dummy]), wp_update _ (hfiled _)]
        refine ⟨⟨m, h.of_complete_succ hb hb₀ hk' hg hc (hwf.fileNew.set (hfiled _)) ?_ hhandled⟩,
          (howns.fileNew hwf hkey).set_of_ne (howns.ne_next hwf).symm⟩
        rw [hwf.fileNew.entry_set (Function.update_self (intKey b₀.tag) _ _), hwf.entry_fileNew,
          Function.update_idem, hentry, hold]
        simp [dummy, Chain.info]
      | some i =>
        obtain ⟨q, hq, hheapq⟩ := entry_eq_some.1 (hentry₀.trans hold)
        have hsent : ¬i.sent = true := by
          simp [Chain.sent_of_expected ((h.ahead hb₀ hk').symm.trans hold)]
        have hqp : q ≠ p := fun he => hkey (((howns.filed hq).2 he).trans rfl)
        rw [wp_lookupPrev (hprev ▸ hq), wp_bind, wp_load hheapq, if_neg hsent, wp_update _ hheapq]
        refine ⟨⟨m, h.of_complete_succ hb hb₀ hk' hg hc (hwf.set hheapq) ?_ hhandled⟩,
          howns.set_of_ne hqp⟩
        rw [hwf.entry_set hq, hentry, hold]
        rfl

end Cse461.Multiplex
