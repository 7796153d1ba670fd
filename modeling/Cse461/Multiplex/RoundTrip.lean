import Cse461.Library.Interleaving
import Cse461.Multiplex.Arrival
import Cse461.Multiplex.Writer

/-!
# Writer and reader

A list of buffers that the writer sends over any number of connections is
delivered as it is, however the connections interleave
(`handleBlocks_writeBuffers`): the writer lays out the blocks of a chain, and the
reader delivers chains.
-/

namespace Cse461.Multiplex

open Library

/-- Buffers written one after the other, with one counter for the tags, are read
    back in order, once each and byte for byte, from every interleaving of the
    queues; and every block is read as what it is. -/
theorem handleBlocks_writeBuffers (R : Rounding) (o : ByteOrder) (pad : InitBlock → List UInt8)
    {numQueues : ℕ} (hq : 1 ≤ numQueues) {buffers : List (List UInt8)}
    (hcount : buffers.length < 2 ^ 31)
    (hbuffers : ∀ b ∈ buffers, numQueues ≤ b.length ∧ b.length < 2 ^ 24) :
    ∃ tag w, writeBuffers R numQueues buffers (-1) (Writer.empty numQueues) = .ok tag w ∧
      ∀ arrival, Interleaving w.queues arrival →
        (∀ x ∈ arrival, parseBlock o (x.bytes o pad) = some x) ∧
        ∃ r, handleBlocks o (arrival.map (Block.bytes o pad)) Reader.empty = .ok ⟨⟩ r ∧
          r.handled = buffers.map fun b => b.map some := by
  have hfirst : (-1 : Int32) + 1 = Int32.ofNat 0 := rfl
  obtain ⟨tag, w, hrun, bs, hbytes, htags, hperm⟩ := ok_of_wp (wp_writeBuffers (R := R)
    (w := Writer.empty numQueues) hq hfirst (by omega) (by simp [Writer.empty]) hbuffers)
  refine ⟨tag, w, hrun, fun arrival harrival => ?_⟩
  have hnodup : (bs.map SplitBuffer.tag).Nodup := by
    rw [htags]
    refine List.Nodup.map_on (fun i hi j hj hij => ?_) List.nodup_range'
    rw [List.mem_range'_1] at hi hj
    have := congrArg Int32.toInt hij
    rw [toInt_ofNat (by omega), toInt_ofNat (by omega)] at this
    exact_mod_cast this
  let c : Chain := ⟨bs, hnodup⟩
  have harrival' : arrival.Perm c.blocks := by
    refine harrival.perm.trans (hperm.trans ?_)
    simp [Writer.empty, c, Chain.blocks, noTag]
  refine ⟨fun x hx => Chain.parseBlock_of_mem_chainBlocks o pad (harrival'.subset hx), ?_⟩
  obtain ⟨r, hread, hhandled⟩ := handleBlocks_of_perm o pad harrival'
  refine ⟨r, hread, ?_⟩
  rw [hhandled, ← hbytes, List.map_map]
  rfl

/-- Two buffers of three and two bytes, over two queues. -/
theorem handleBlocks_writeBuffers_two :
    ∃ tag w, writeBuffers .none 2 [[1, 2, 3], [4, 5]] (-1) (Writer.empty 2) = .ok tag w ∧
      ∀ arrival, Interleaving w.queues arrival →
        (∀ x ∈ arrival, parseBlock .little (x.bytes .little fun _ => [0, 0, 0]) = some x) ∧
        ∃ r, handleBlocks .little (arrival.map (Block.bytes .little fun _ => [0, 0, 0]))
            Reader.empty = .ok ⟨⟩ r ∧
          r.handled = [[some 1, some 2, some 3], [some 4, some 5]] :=
  handleBlocks_writeBuffers .none .little (fun _ => [0, 0, 0]) (by decide) (by decide) (by decide)

end Cse461.Multiplex
