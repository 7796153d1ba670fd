import Cse461.Multiplex.Arrival
import Cse461.Multiplex.Writer

/-!
# The bounce-back test

`bounce_buffer` of `server.c` is the handler of the server's readers: it writes
the buffer it is passed back to the client. It has a tag counter of its own in
every call, so every buffer of a session is sent with the same tag, as the first
of a chain. A client that reads the session gets it back only if it has one
buffer at most (`bouncesBack_iff`): on the second init block it exits.
-/

namespace Cse461.Multiplex

open Library

/-- `MAX_CONN`. -/
def maxConn : ℕ := 5

/-- `bounce_buffer`: the counter of `multiplex_write_queues` starts anew. -/
def bounceBuffer (R : Rounding) (nQueues : ℕ) (buffer : List UInt8) (bufferLen : UInt32) :
    WriterM Unit := do
  let nextTag : Int32 := -1
  let _ ← multiplexWriteQueues R nQueues buffer bufferLen.toInt32 nextTag

/-- The buffers of a session, passed to the handler one after the other. -/
def bounceBuffers (R : Rounding) (nQueues : ℕ) (buffers : List (List UInt8)) : WriterM Unit :=
  buffers.forM fun buffer => bounceBuffer R nQueues buffer (UInt32.ofNat buffer.length)

/-- Each init block names the tag of the one before it. -/
def ChainedFrom : Int32 → List InitBlock → Prop
  | _, [] => True
  | prev, i :: is => i.prevTag = prev ∧ ChainedFrom i.tag is

/-- The session comes back: the handler returns from all its buffers, their tags
    are distinct and chained, and the blocks, in whatever order they arrive, are
    read as the same list of buffers. -/
def BouncesBack (R : Rounding) (o : ByteOrder) (pad : InitBlock → List UInt8) (nQueues : ℕ)
    (buffers : List (List UInt8)) : Prop :=
  ∃ w, bounceBuffers R nQueues buffers (Writer.empty nQueues) = .ok ⟨⟩ w ∧
    ((w.queues.flatten.filterMap Block.init?).map InitBlock.tag).Nodup ∧
    ChainedFrom noTag (w.queues.flatten.filterMap Block.init?) ∧
    ∀ arrival : List Block, arrival.Perm w.queues.flatten →
      ∃ r, handleBlocks o (arrival.map (Block.bytes o pad)) Reader.empty = .ok ⟨⟩ r ∧
        r.handled = buffers.map fun b => b.map some

variable {R : Rounding} {o : ByteOrder} {pad : InitBlock → List UInt8} {nQueues : ℕ}
  {buffer : List UInt8} {buffers : List (List UInt8)} {w : Writer}
  {E : WriterStop → Writer → Prop}

/-! ## What is written -/

/-- The loop over the data blocks adds blocks only. -/
theorem wp_writeDataBlocks_of_ok {bufLen tag : Int32} {unif rounds i : ℕ}
    (hq : 1 ≤ nQueues) (hw : w.queues.length = nQueues) :
    wp (writeDataBlocks nQueues buffer bufLen tag unif rounds i) (fun _ w' =>
      w'.queues.length = nQueues ∧ ∃ rest, w'.queues.flatten.Perm (w.queues.flatten ++ rest))
      (fun _ _ => True) w := by
  induction rounds generalizing i w with
  | zero => trivial
  | succ rounds ih =>
    rw [writeDataBlocks]
    by_cases hi : (i : ℤ) < bufLen.toInt
    · rw [if_pos hi, wp_bind, wp_writeBlockToQueue]
      have hmod : i % nQueues < w.queues.length := by
        rw [hw]
        exact Nat.mod_lt _ hq
      by_cases hint : i + unif < 2 ^ 31
      · rw [if_pos hint]
        refine wp_mono (ih (by simpa using hw)) ?_ fun _ _ h => h
        rintro _ w' ⟨hw', rest, hrest⟩
        refine ⟨hw', .data (dataBlock buffer bufLen tag unif i) :: rest, ?_⟩
        simpa using hrest.trans ((Writer.flatten_push hmod _).append_right rest)
      · rw [if_neg hint]
        trivial
    · rw [if_neg hi]
      exact ⟨hw, [], by simp⟩

/-- Whatever becomes of the call, its init block is in a queue. -/
theorem wp_bounceBuffer_of_ok (hq : 1 ≤ nQueues) (hw : w.queues.length = nQueues)
    (bufferLen : UInt32) : wp (bounceBuffer R nQueues buffer bufferLen) (fun _ w' =>
      w'.queues.length = nQueues ∧ ∃ rest, w'.queues.flatten.Perm (w.queues.flatten ++
        .init (initBlock bufferLen.toInt32 0 (-1)) :: rest)) (fun _ _ => True) w := by
  simp only [bounceBuffer, wp_bind, wp_pure]
  cases hu : unifSize R nQueues bufferLen.toInt32 with
  | none => simp [multiplexWriteQueues, hu]
  | some unif =>
    rw [wp_multiplexWriteQueues_iff (by decide) hu]
    refine wp_mono (wp_writeDataBlocks_of_ok hq (by simpa using hw)) ?_ fun _ _ h => h
    rintro _ w' ⟨hw', rest, hrest⟩
    refine ⟨hw', rest, ?_⟩
    simpa using hrest.trans ((Writer.flatten_push (by omega) _).append_right rest)

/-- Every buffer of a session is announced with the tag 0. -/
theorem wp_bounceBuffers_of_ok (buffers : List (List UInt8)) (hq : 1 ≤ nQueues) (hw : w.queues.length = nQueues) :
    wp (bounceBuffers R nQueues buffers) (fun _ w' => ∃ rest, w'.queues.flatten.Perm
      (w.queues.flatten ++ (buffers.map fun b => .init
        (initBlock (UInt32.ofNat b.length).toInt32 0 (-1))) ++ rest)) (fun _ _ => True) w := by
  induction buffers generalizing w with
  | nil => exact ⟨[], by simp⟩
  | cons buffer buffers ih =>
    change wp (bounceBuffer R nQueues buffer _ >>= fun _ => bounceBuffers R nQueues buffers) _ _ w
    rw [wp_bind]
    refine wp_mono (wp_bounceBuffer_of_ok hq hw _) (fun _ w₁ ⟨hw₁, rest₁, hrest₁⟩ => ?_)
      fun _ _ h => h
    refine wp_mono (ih hw₁) (fun _ w₂ ⟨rest₂, hrest₂⟩ => ⟨rest₁ ++ rest₂, ?_⟩) fun _ _ h => h
    refine hrest₂.trans (((hrest₁.append_right _).append_right _).trans ?_)
    simp only [List.append_assoc, List.map_cons, List.cons_append]
    exact ((List.perm_append_comm_assoc _ _ _).cons _).append_left _

/-- The index overflows if it is to go beyond the greatest `int`. -/
theorem wp_writeDataBlocks_overflow {bufLen tag : Int32} {unif rounds k i : ℕ} (hu : 0 < unif)
    (hlen : bufLen.toInt = buffer.length)
    (hover : 2 ^ 31 ≤ (buffer.length + unif - 1) / unif * unif) (hi : i = k * unif)
    (hi' : i < buffer.length) :
    wp (writeDataBlocks nQueues buffer bufLen tag unif rounds i) (fun _ _ => False)
      (fun _ _ => True) w := by
  induction rounds generalizing k i w with
  | zero => trivial
  | succ rounds ih =>
    subst hi
    have hnext : k * unif + unif = (k + 1) * unif := by ring
    rw [writeDataBlocks, if_pos (by rw [hlen]; exact_mod_cast hi'), wp_bind, wp_writeBlockToQueue,
      hnext]
    by_cases hint : (k + 1) * unif < 2 ^ 31
    · rw [if_pos hint]
      refine ih rfl ((lt_length_of_mul_lt hu).1 ?_)
      by_contra hle
      have := Nat.mul_le_mul_right unif (not_lt.1 hle)
      omega
    · rw [if_neg hint]
      trivial

/-! ## What is read -/

/-- Two init blocks of one tag stop the reader. -/
theorem wp_handleBlocks_duplicate {i i' : InitBlock} (hi : i.flag = -1) (hi' : i'.flag = -1)
    (htag : i.tag = i'.tag) (rest : List Block) :
    wp (handleBlocks o ((.init i :: .init i' :: rest).map (Block.bytes o pad)))
      (fun _ _ => False) (fun e _ => e = .duplicate) Reader.empty := by
  have hfile : wp (handleInitBlock i) (fun _ r => r = Reader.empty.fileNew (intKey i.tag)
      (BufferInfo.init { nextTag := noTag } i)) (fun e _ => e = .duplicate) Reader.empty := by
    rw [handleInitBlock, wp_bind, wp_lookupHashTable]
    rfl
  change wp (handleBlock o _ >>= fun _ => handleBlock o _ >>= fun _ => handleBlocks o _) _ _ _
  rw [wp_bind, handleBlock, Block.bytes, parseBlock_initBytes hi]
  refine wp_mono hfile (fun _ r hr => ?_) fun _ _ h => h
  subst hr
  rw [wp_bind, handleBlock, Block.bytes, parseBlock_initBytes hi']
  simp only [handleInitBlock, wp_bind, wp_lookupHashTable, ← htag, Reader.table_fileNew,
    Function.update_self]
  rw [wp_load (by rw [Reader.heap_fileNew, Function.update_self]),
    if_pos (show (BufferInfo.init { nextTag := noTag } i).valid = true from rfl)]
  rfl

/-! ## Sessions -/

/-- The loop over the data blocks of a buffer sends all of it: each queue can get a
    byte, so the blocks have a payload, and the index stays an `int`. -/
def Sendable (R : Rounding) (nQueues : ℕ) (buffer : List UInt8) : Prop :=
  nQueues ≤ buffer.length ∧ buffer.length < 2 ^ 31 ∧
    ∀ u, unifSize R nQueues (Int32.ofNat buffer.length) = some u →
      (buffer.length + u - 1) / u * u < 2 ^ 31

theorem bouncesBack_nil : BouncesBack R o pad nQueues [] := by
  have hflatten : (Writer.empty nQueues).queues.flatten = [] := by simp [Writer.empty]
  refine ⟨Writer.empty nQueues, rfl, ?_⟩
  rw [hflatten]
  refine ⟨by simp, trivial, fun arrival harrival => ⟨Reader.empty, ?_, rfl⟩⟩
  rw [List.perm_nil.1 harrival]
  rfl

theorem wp_bounceBuffers_singleton {Q : PUnit → Writer → Prop} :
    wp (bounceBuffers R nQueues [buffer]) Q E w ↔ wp (multiplexWriteQueues R nQueues buffer
      (UInt32.ofNat buffer.length).toInt32 (-1)) (fun _ w' => Q ⟨⟩ w') E w := by
  change wp (bounceBuffer R nQueues buffer _ >>= fun _ => bounceBuffers R nQueues []) _ _ _ ↔ _
  simp only [bounceBuffer, wp_bind, wp_pure]
  exact Iff.rfl

theorem bouncesBack_singleton (hq : 1 ≤ nQueues) (hq' : nQueues ≤ maxConn)
    (h : Sendable R nQueues buffer) : BouncesBack R o pad nQueues [buffer] := by
  obtain ⟨hlen, hlt, hover⟩ := h
  have hmax : maxConn = 5 := rfl
  have hbufferLen : (UInt32.ofNat buffer.length).toInt32 = Int32.ofNat buffer.length := by simp
  have hrun : wp (bounceBuffers R nQueues [buffer]) (fun _ w => ∃ b : SplitBuffer,
      b.tag = 0 ∧ b.bytes = buffer ∧ w.queues.flatten.Perm (chainBlocks noTag [b]))
      (fun _ _ => False) (Writer.empty nQueues) := by
    rw [wp_bounceBuffers_singleton, hbufferLen]
    refine wp_mono (wp_multiplexWriteQueues (t := 0) (show (-1 : Int32) + 1 = Int32.ofNat 0 from rfl)
      (by norm_num) hq (by omega) (by simp [Writer.empty]) hlen hlt hover)
      (fun tag w ⟨htag, _, b, hb, hbytes, hperm⟩ => ⟨b, hb.trans htag, hbytes, ?_⟩) fun _ _ h => h
    simpa [Writer.empty, noTag] using hperm
  obtain ⟨_, w, hok, b, htag, hbytes, hperm⟩ := ok_of_wp hrun
  let c : Chain := ⟨[b], by simp⟩
  have hinit : w.queues.flatten.filterMap Block.init? = [b.initBlock noTag] := by
    have hdata : b.blocks.filterMap (Block.init? ∘ Block.data) = [] := by
      rw [List.filterMap_eq_nil_iff]
      exact fun _ _ => rfl
    have := hperm.filterMap Block.init?
    rw [chainBlocks, chainBlocks, List.append_nil, List.filterMap_cons, List.filterMap_map,
      hdata] at this
    exact List.perm_singleton.1 this
  refine ⟨w, hok, by simp [hinit], by simp [hinit, ChainedFrom, SplitBuffer.initBlock],
    fun arrival harrival => ?_⟩
  obtain ⟨r, hread, hhandled⟩ := handleBlocks_of_perm (c := c) o pad (harrival.trans hperm)
  exact ⟨r, hread, by simpa [c, hbytes] using hhandled⟩

theorem not_bouncesBack_cons_cons {buffer' : List UInt8} (hq : 1 ≤ nQueues) :
    ¬BouncesBack R o pad nQueues (buffer :: buffer' :: buffers) := by
  rintro ⟨w, hok, _, _, hall⟩
  have hrun := wp_bounceBuffers_of_ok (R := R) (w := Writer.empty nQueues)
    (buffer :: buffer' :: buffers) hq (by simp [Writer.empty])
  rw [wp_of_ok hok] at hrun
  obtain ⟨rest, hrest⟩ := hrun
  -- Let the first two init blocks arrive first.
  obtain ⟨r, hread, _⟩ := hall _ hrest.symm
  have hempty : (Writer.empty nQueues).queues.flatten = [] := by simp [Writer.empty]
  rw [hempty] at hread
  exact (wp_of_ok hread).1 (wp_handleBlocks_duplicate (by rfl) (by rfl) (by rfl)
    ((buffers.map fun b => .init (initBlock (UInt32.ofNat b.length).toInt32 0 (-1))) ++ rest))

theorem sendable_of_bouncesBack (hq : 1 ≤ nQueues) (hq' : nQueues ≤ maxConn)
    (hne : buffer ≠ []) (hlt : buffer.length < 2 ^ 32)
    (h : BouncesBack R o pad nQueues [buffer]) : Sendable R nQueues buffer := by
  obtain ⟨w, hok, _, _, hall⟩ := h
  have hmax : maxConn = 5 := rfl
  -- The call returns, so whatever holds when it does holds of `w`.
  have hreturns : ∀ {Q : PUnit → Writer → Prop}, wp (multiplexWriteQueues R nQueues buffer
      (UInt32.ofNat buffer.length).toInt32 (-1)) (fun _ w' => Q ⟨⟩ w') (fun _ _ => True)
      (Writer.empty nQueues) → Q ⟨⟩ w := fun hQ =>
    (wp_of_ok hok).1 (wp_bounceBuffers_singleton.2 hQ)
  by_cases hint : buffer.length < 2 ^ 31
  · have hlen := toInt_ofNat hint
    have hbufferLen : (UInt32.ofNat buffer.length).toInt32 = Int32.ofNat buffer.length := by simp
    have hpos := List.length_pos_iff.2 hne
    obtain ⟨u, hu, _, hupos, huzero⟩ := unifSize_spec (R := R) hlen hint hq (by omega)
    rw [hbufferLen] at hreturns
    have hle : nQueues ≤ buffer.length := by
      by_contra hlt
      have hzero := huzero (not_le.1 hlt)
      subst hzero
      refine hreturns (Q := fun _ _ => False) ?_
      rw [wp_multiplexWriteQueues_iff (by decide) hu]
      exact wp_writeDataBlocks_zero (by rw [hlen]; exact_mod_cast hpos) (by norm_num)
    refine ⟨hle, hint, fun u' hu' => ?_⟩
    obtain rfl : u = u' := by simpa [hu] using hu'
    by_contra hover
    refine hreturns (Q := fun _ _ => False) ?_
    rw [wp_multiplexWriteQueues_iff (by decide) hu]
    exact wp_writeDataBlocks_overflow (k := 0) (hupos hle) hlen (not_lt.1 hover) (by simp) hpos
  · -- The length is taken to be negative, and no data block is sent.
    exfalso
    have hneg : (UInt32.ofNat buffer.length).toInt32.toInt < 0 := by
      rw [UInt32.toInt32_ofNat', Int32.toInt_ofNat', Int32.size, Int.bmod_eq_emod]
      push_cast
      split <;> omega
    generalize (UInt32.ofNat buffer.length).toInt32 = bufLen at hneg hreturns
    have hinit : w.queues.flatten.Perm
        [.init (initBlock bufLen 0 (-1))] := by
      refine hreturns (Q := fun _ w' => w'.queues.flatten.Perm _) ?_
      cases hu : unifSize R nQueues bufLen with
      | none => simp [multiplexWriteQueues, hu]
      | some u =>
        rw [wp_multiplexWriteQueues_iff (by decide) hu, writeDataBlocks, if_neg (by omega), wp_pure]
        simpa [Writer.empty] using Writer.flatten_push (w := Writer.empty nQueues)
          (k := nQueues - 1) (by simp [Writer.empty]; omega) _
    obtain ⟨r, hread, hhandled⟩ := hall _ hinit.symm
    have hnone : r.handled = [] := (wp_of_ok (Q := fun _ r => r.handled = [])
      (E := fun _ _ => True) hread).1 ((wp_handleBlocks_init (by rfl)).2 rfl)
    rw [hnone] at hhandled
    exact absurd hhandled (by simp)

/-- A session of buffers comes back exactly if it has none, or only one, which the
    writer can send. -/
theorem bouncesBack_iff (R : Rounding) (o : ByteOrder) (pad : InitBlock → List UInt8)
    (nQueues : ℕ) (buffers : List (List UInt8)) (hq : 1 ≤ nQueues) (hq' : nQueues ≤ maxConn)
    (hbuffers : ∀ b ∈ buffers, b ≠ [] ∧ b.length < 2 ^ 32) :
    BouncesBack R o pad nQueues buffers ↔
      buffers = [] ∨ ∃ b, buffers = [b] ∧ Sendable R nQueues b := by
  match buffers with
  | [] => exact iff_of_true bouncesBack_nil (.inl rfl)
  | [buffer] =>
    obtain ⟨hne, hlt⟩ := hbuffers buffer (by simp)
    constructor
    · exact fun h => .inr ⟨buffer, rfl, sendable_of_bouncesBack hq hq' hne hlt h⟩
    · rintro (h | ⟨b, h, hb⟩)
      · exact absurd h (by simp)
      · obtain rfl : buffer = b := by simpa using h
        exact bouncesBack_singleton hq hq' hb
  | buffer :: buffer' :: buffers =>
    exact iff_of_false (not_bouncesBack_cons_cons hq) (by simp)

/-- A session of one byte over one queue, sent as one block. -/
theorem bouncesBack_iff_one :
    BouncesBack .none .little (fun _ => [0, 0, 0]) 1 [[7]] ↔
      [[(7 : UInt8)]] = [] ∨ ∃ b, [[7]] = [b] ∧ Sendable .none 1 b :=
  bouncesBack_iff .none .little (fun _ => [0, 0, 0]) 1 [[7]] (by decide) (by decide) (by decide)

/-- A session of two buffers does not come back. -/
theorem not_bouncesBack_two :
    ¬BouncesBack .none .little (fun _ => [0, 0, 0]) 1 [[7], [8]] :=
  not_bouncesBack_cons_cons (by decide)

end Cse461.Multiplex
