import Cse461.Multiplex.Reader

/-!
# The receive loop

`listen_for_block` and `recieve_tcp_block` of `multiplex_reader.c`: a thread
reads the blocks of its connection, the first word of a block being its size, and
hands each to `handle_block`.

* What `read` returns is up to the network: a `split` of the stream says how many
  bytes the `n`-th call returns at most, and the stream ends with an end of file
  or an error (`Ending`). A stream that is cut off is a shorter one.
* The buffer a block is read to is a list of cells. A call of `read` that would
  store a byte beyond its end stops with `Stop.outOfBounds`.
* What `handle_block` is called with is recorded, along with the rest of the
  stream at that time (`HandedBlock`).

`recieve_tcp_block` takes the size of the buffer, but never looks at it, so a
peer can make it write out of bounds; nor does anything check that a block has
room for its header (`listens_iff`). From a peer whose blocks fit, the blocks
that arrive completely are handed on, whatever the split
(`listen_handed`).
-/

namespace Cse461.Multiplex

open Library

/-- How the stream of a connection ends. -/
inductive Ending
  | eof
  | error
  deriving DecidableEq

/-- What `read` returns at the end of the stream. -/
def Ending.code : Ending → ℤ
  | .eof => 0
  | .error => -1

/-- A block as it is handed to `handle_block`. -/
structure HandedBlock where
  /-- The cells of the block. -/
  block : List (Option UInt8)
  /-- The bytes of the stream that are not read yet. -/
  unread : List UInt8
  deriving DecidableEq

/-- The state of a thread that reads from a connection. -/
structure Receiver where
  /-- The bytes of the stream that are not read yet. -/
  stream : List UInt8
  /-- The number of `read` calls so far. -/
  reads : ℕ := 0
  /-- The cells of the block that is read. -/
  buf : List (Option UInt8) := []
  /-- What was handed to `handle_block`, in order. -/
  handed : List HandedBlock := []
  /-- The connection is closed. -/
  closed : Bool := false
  deriving DecidableEq

/-- A call, on the state of the thread. -/
abbrev ReceiverM := EStateM Stop Receiver

/-- `max_size`: the size of the buffer a block is read to. -/
def maxSize : ℕ := blockSize + sizeofDataBlock

section

variable (o : ByteOrder) (split : ℕ → ℕ) (ending : Ending)

/-- `read(sockfd, &buf[index], count)`. -/
def read (index count : ℕ) : ReceiverM ℤ := do
  let r ← get
  if r.stream = [] then
    return ending.code
  else
    let bytes := r.stream.take (min count (split r.reads + 1))
    if r.buf.length < index + bytes.length then
      throw .outOfBounds
    else
      set { r with stream := r.stream.drop bytes.length, reads := r.reads + 1,
                   buf := write r.buf index bytes }
      return bytes.length

/-- The loop `while (index < size)` around `read`, with a bound on its rounds: the
    index it ends with, or what it returns early. -/
def readUpTo (size : ℕ) : ℕ → ℕ → ReceiverM (Except ℤ ℕ)
  | 0, _ => throw .unbounded
  | rounds + 1, index =>
    if index < size then do
      let ret ← read split ending index (size - index)
      if ret < 1 then
        return .error ret
      else
        readUpTo size rounds (index + ret.toNat)
    else
      return .ok index

/-- `*(uint32_t*)buf`. -/
def Receiver.blockSize (r : Receiver) : Option UInt32 := o.word32 (r.buf.take 4).reduceOption

/-- `recieve_tcp_block`, without a timeout. Every `read` but the last takes a byte
    of the stream. -/
def recieveTcpBlock (_bufLen : ℕ) : ReceiverM ℤ := do
  match ← readUpTo split ending 4 ((← get).stream.length + 1) 0 with
  | .error ret => return ret
  | .ok index =>
    match (← get).blockSize o with
    | none => throw .truncated
    | some blockSize =>
      match ← readUpTo split ending blockSize.toNat ((← get).stream.length + 1) index with
      | .error ret => return ret
      | .ok index => return index

/-- `listen_for_block`, with a bound on its rounds. -/
def listenForBlock : ℕ → ReceiverM Unit
  | 0 => throw .unbounded
  | rounds + 1 => do
    modify fun r => { r with buf := fresh maxSize }
    let ret ← recieveTcpBlock o split ending maxSize
    if ret = -1 then
      return
    else if ret = 0 then
      modify fun r => { r with closed := true }
    else
      modify fun r => { r with handed := r.handed ++ [⟨r.buf, r.stream⟩] }
      listenForBlock rounds

/-- A thread that reads a stream to its end. Each round takes a byte of it. -/
def listen (stream : List UInt8) : ReceiverM Unit :=
  listenForBlock o split ending (stream.length + 1)

end

/-! ## One block -/

section

variable (o : ByteOrder) (split : ℕ → ℕ) (ending : Ending) {r : Receiver}

/-- Before the end of the stream, `read` takes some bytes of it, and stores them. -/
theorem wp_read (index : ℕ) {count : ℕ} {Q : ℤ → Receiver → Prop} {E : Stop → Receiver → Prop}
    (hcount : 0 < count) (hstream : r.stream ≠ []) :
    ∃ got rest, r.stream = got ++ rest ∧ got ≠ [] ∧ got.length ≤ count ∧
      (wp (read split ending index count) Q E r ↔
        if r.buf.length < index + got.length then
          E .outOfBounds r
        else
          Q got.length { r with stream := rest, reads := r.reads + 1
                                buf := write r.buf index got }) := by
  have hpos := List.length_pos_iff.2 hstream
  obtain ⟨got, hgot⟩ : ∃ got, r.stream.take (min count (split r.reads + 1)) = got := ⟨_, rfl⟩
  have hlen : got.length = min (min count (split r.reads + 1)) r.stream.length := by
    rw [← hgot, List.length_take]
  have htake : r.stream.take got.length = got := by
    rw [hlen, ← hgot, ← List.take_take, List.take_length]
  refine ⟨got, r.stream.drop got.length, ?_, ?_, by omega, ?_⟩
  · conv_lhs => rw [← List.take_append_drop got.length r.stream, htake]
  · rw [← List.length_pos_iff]
    omega
  · simp only [read, wp_bind, wp_get, hgot, wp_ite, wp_throw, wp_set, wp_pure]
    by_cases hout : r.buf.length < index + got.length <;> simp [hout, hstream]

/-- The loop around `read` takes what is missing of `size` bytes, or all there is.
    It writes out of bounds if the buffer has no room for them. -/
theorem wp_readUpTo (size : ℕ) {n rounds : ℕ} {bytes : List UInt8} (hbuf : r.buf = filled n bytes)
    (hn : bytes.length ≤ n) (hrounds : r.stream.length < rounds) :
    wp (readUpTo split ending size rounds bytes.length) (fun res r' =>
      r'.handed = r.handed ∧ r'.closed = r.closed ∧
      r'.stream = r.stream.drop (size - bytes.length) ∧
      r'.buf = filled n (bytes ++ r.stream.take (size - bytes.length)) ∧
      (bytes ++ r.stream.take (size - bytes.length)).length ≤ n ∧
      res = if size - bytes.length ≤ r.stream.length then .ok (max bytes.length size)
        else .error ending.code)
      (fun e _ => e = .outOfBounds ∧
        n < (bytes ++ r.stream.take (size - bytes.length)).length) r := by
  induction rounds generalizing r bytes with
  | zero => omega
  | succ rounds ih =>
    rw [readUpTo]
    by_cases hsize : bytes.length < size
    · rw [if_pos hsize, wp_bind]
      have hne : ¬size - bytes.length = 0 := by omega
      by_cases hend : r.stream = []
      · have hcode : ending.code < 1 := by cases ending <;> decide
        simp [read, hend, hcode, hbuf, hn, hne]
      · obtain ⟨got, rest, hstream, hgot, hle, hread⟩ := wp_read split ending
          bytes.length (r := r) (Nat.pos_of_ne_zero hne) hend
        have hpos := List.length_pos_iff.2 hgot
        -- What the rounds after this one take.
        have htake : bytes ++ r.stream.take (size - bytes.length) =
            (bytes ++ got) ++ rest.take (size - (bytes ++ got).length) := by
          rw [hstream, List.take_append, List.take_of_length_le hle, List.length_append,
            List.append_assoc, Nat.sub_add_eq]
        have hdrop : r.stream.drop (size - bytes.length) =
            rest.drop (size - (bytes ++ got).length) := by
          rw [hstream, List.drop_append, List.drop_eq_nil_of_le hle, List.nil_append,
            List.length_append, Nat.sub_add_eq]
        rw [hread, hbuf, length_filled hn, htake, hdrop]
        by_cases hout : n < bytes.length + got.length
        · rw [if_pos hout]
          refine ⟨rfl, ?_⟩
          rw [List.length_append, List.length_append]
          omega
        · have hone : ¬(got.length : ℤ) < 1 := by omega
          rw [if_neg hout, if_neg hone, Int.toNat_natCast, write_filled, ← List.length_append]
          have hlen : r.stream.length = got.length + rest.length := by
            rw [hstream, List.length_append]
          refine wp_mono (ih rfl (by rw [List.length_append]; omega) (by simp only; omega))
            (fun res r' ⟨h₁, h₂, h₃, h₄, h₅, h₆⟩ => ⟨h₁, h₂, h₃, h₄, h₅, ?_⟩) fun _ _ h => h
          rw [h₆, List.length_append, hlen]
          have hmax : max (bytes.length + got.length) size = max bytes.length size := by omega
          rw [hmax]
          refine if_congr ?_ rfl rfl
          simp only
          omega
    · have hzero : size - bytes.length = 0 := by omega
      rw [if_neg hsize, hzero]
      have hmax : max bytes.length size = bytes.length := by omega
      simp [hbuf, hn, hmax]

/-- How many bytes a call reads of a block: as many as it says, and four at least. -/
def readLength (size : UInt32) : ℕ := max 4 size.toNat

/-- A call takes the bytes of one block, as many as its first word says and four
    at least, or all there are. -/
theorem wp_recieveTcpBlock {n : ℕ} (hbuf : r.buf = fresh n) (hn : 4 ≤ n) :
    wp (recieveTcpBlock o split ending n) (fun ret r' =>
      r'.handed = r.handed ∧ r'.closed = r.closed ∧
      ((r.stream.length < 4 ∧ ret = ending.code) ∨
        ∃ size, o.word32 r.stream = some size ∧
          (r.stream.take (readLength size)).length ≤ n ∧
          r'.stream = r.stream.drop (readLength size) ∧
          r'.buf = filled n (r.stream.take (readLength size)) ∧
          ret = if readLength size ≤ r.stream.length then (readLength size : ℤ)
            else ending.code))
      (fun e _ => e = .outOfBounds ∧ ∃ size, o.word32 r.stream = some size ∧
        n < (r.stream.take (readLength size)).length) r := by
  have hempty : r.buf = filled n [] := hbuf
  have hfirst := wp_readUpTo split ending 4 hempty (Nat.zero_le n) (Nat.lt_succ_self _)
  rw [recieveTcpBlock, wp_bind, wp_get, wp_bind]
  refine wp_mono hfirst (fun res r₁ ⟨hhanded, hclosed, hstream, hbuf₁, _, hres⟩ => ?_)
    (fun e _ ⟨_, hlt⟩ => ?_)
  · simp only [List.length_nil, Nat.sub_zero, List.nil_append] at hstream hbuf₁ hres
    by_cases hfour : 4 ≤ r.stream.length
    · obtain ⟨size, hsize⟩ : ∃ size, o.word32 r.stream = some size := by
        rw [← Option.ne_none_iff_exists', ne_eq, ByteOrder.word32_eq_none_iff]
        omega
      have hlen : (r.stream.take 4).length = 4 := by simpa using hfour
      have hword : r₁.blockSize o = some size := by
        rw [Receiver.blockSize, hbuf₁, take_filled n (by omega), reduceOption_filled,
          ByteOrder.word32_take (by simp), ByteOrder.word32_take le_rfl, hsize]
      rw [hres, if_pos hfour, wp_bind, wp_get, hword, wp_bind, wp_get, wp_bind]
      -- The rest of the block.
      have htake : r.stream.take 4 ++ r₁.stream.take (size.toNat - 4) =
          r.stream.take (readLength size) := by
        rw [hstream, ← List.take_add]
        congr 1
        rw [readLength]
        omega
      have hdrop : r₁.stream.drop (size.toNat - 4) = r.stream.drop (readLength size) := by
        rw [hstream, List.drop_drop]
        congr 1
        rw [readLength]
        omega
      have hrest := wp_readUpTo split ending size.toNat (r := r₁) hbuf₁ (by omega) (Nat.lt_succ_self _)
      rw [hlen, htake, hdrop, ← readLength] at hrest
      refine wp_mono hrest (fun res' r₂ ⟨hhanded₂, hclosed₂, hstream₂, hbuf₂, hle, hres₂⟩ => ?_)
        (fun e _ ⟨he, hlt⟩ => ⟨he, size, hsize, hlt⟩)
      have hiff : size.toNat - 4 ≤ r₁.stream.length ↔ readLength size ≤ r.stream.length := by
        rw [hstream, List.length_drop, readLength]
        omega
      rw [hres₂]
      by_cases hall : readLength size ≤ r.stream.length
      · rw [if_pos (hiff.2 hall)]
        exact ⟨by rw [hhanded₂, hhanded], by rw [hclosed₂, hclosed],
          .inr ⟨size, hsize, hle, hstream₂, hbuf₂, by rw [if_pos hall]⟩⟩
      · rw [if_neg (mt hiff.1 hall)]
        exact ⟨by rw [hhanded₂, hhanded], by rw [hclosed₂, hclosed],
          .inr ⟨size, hsize, hle, hstream₂, hbuf₂, by rw [if_neg hall]⟩⟩
    · rw [hres, if_neg hfour]
      exact ⟨hhanded, hclosed, .inl ⟨by omega, rfl⟩⟩
  · simp only [List.length_nil, Nat.sub_zero, List.nil_append, List.length_take] at hlt
    omega

/-! ## One round -/

/-- The round in which the stream ends, before a block is complete. -/
theorem listenForBlock_end (rounds : ℕ) (hend : r.stream.length < 4 ∨
      ∃ size, o.word32 r.stream = some size ∧ r.stream.length < readLength size)
    (hroom : r.stream.length ≤ maxSize) :
    ∃ r', r'.handed = r.handed ∧ r'.closed = (r.closed || ending = .eof) ∧
      ∀ Q E, wp (listenForBlock o split ending (rounds + 1)) Q E r ↔ Q ⟨⟩ r' := by
  have hblock := wp_recieveTcpBlock o split ending (r := { r with buf := fresh maxSize }) rfl (by decide : 4 ≤ maxSize)
  dsimp only at hblock
  obtain ⟨ret, r₁, hrun, hhanded, hclosed, hret⟩ := ok_of_wp <|
    wp_mono hblock (fun _ _ h => h) fun _ _ ⟨_, size, _, hlt⟩ => by
      rw [List.length_take] at hlt
      omega
  have hcode : ret = ending.code := by
    rcases hret with ⟨_, hret⟩ | ⟨size, hsize, _, _, _, hret⟩
    · exact hret
    · rcases hend with hshort | ⟨size', hsize', hlt⟩
      · rw [ByteOrder.word32_eq_none_iff.2 hshort] at hsize
        exact absurd hsize (by simp)
      · obtain rfl : size = size' := by simpa [hsize] using hsize'
        rw [hret, if_neg (not_le.2 hlt)]
  cases ending with
  | error =>
    refine ⟨r₁, hhanded, by simpa using hclosed, fun Q E => ?_⟩
    rw [listenForBlock, wp_bind, wp_modify, wp_bind, wp_of_ok hrun, hcode, if_pos (by rfl), wp_pure]
  | eof =>
    refine ⟨{ r₁ with closed := true }, hhanded, by simp, fun Q E => ?_⟩
    rw [listenForBlock, wp_bind, wp_modify, wp_bind, wp_of_ok hrun, hcode, if_neg (by decide),
      if_pos (by rfl), wp_modify]

/-- A round that reads a complete block hands it on. -/
theorem listenForBlock_block (rounds : ℕ) {size : UInt32} (hsize : o.word32 r.stream = some size)
    (hle : readLength size ≤ r.stream.length) (hroom : readLength size ≤ maxSize) :
    ∃ r', r'.handed = r.handed ++ [⟨filled maxSize (r.stream.take (readLength size)),
          r.stream.drop (readLength size)⟩] ∧
      r'.stream = r.stream.drop (readLength size) ∧ r'.closed = r.closed ∧
      ∀ Q E, wp (listenForBlock o split ending (rounds + 1)) Q E r ↔
        wp (listenForBlock o split ending rounds) Q E r' := by
  have hblock := wp_recieveTcpBlock o split ending (r := { r with buf := fresh maxSize }) rfl (by decide : 4 ≤ maxSize)
  dsimp only at hblock
  obtain ⟨ret, r₁, hrun, hhanded, hclosed, hret⟩ := ok_of_wp <|
    wp_mono hblock (fun _ _ h => h) fun _ _ ⟨_, size', hsize', hlt⟩ => by
      obtain rfl : size = size' := by simpa [hsize] using hsize'
      rw [List.length_take] at hlt
      omega
  rcases hret with ⟨hshort, _⟩ | ⟨size', hsize', _, hstream, hbuf, hret⟩
  · rw [ByteOrder.word32_eq_none_iff.2 hshort] at hsize
    exact absurd hsize (by simp)
  · obtain rfl : size = size' := by simpa [hsize] using hsize'
    have hpos : 4 ≤ readLength size := le_max_left _ _
    rw [if_pos hle] at hret
    refine ⟨{ r₁ with handed := r₁.handed ++ [⟨r₁.buf, r₁.stream⟩] }, ?_, hstream, hclosed,
      fun Q E => ?_⟩
    · rw [hhanded, hbuf, hstream]
    · rw [listenForBlock, wp_bind, wp_modify, wp_bind, wp_of_ok hrun, hret,
        if_neg (by omega), if_neg (by omega), wp_bind, wp_modify]

/-- A round in which more bytes of a block arrive than there is room for. -/
theorem not_listenForBlock (rounds : ℕ) {size : UInt32} (hsize : o.word32 r.stream = some size)
    (hroom : maxSize < (r.stream.take (readLength size)).length) {Q : PUnit → Receiver → Prop} :
    ¬wp (listenForBlock o split ending (rounds + 1)) Q (fun _ _ => False) r := by
  have hblock := wp_recieveTcpBlock o split ending (r := { r with buf := fresh maxSize }) rfl (by decide : 4 ≤ maxSize)
  dsimp only at hblock
  refine not_wp_of_wp (E := fun _ _ => True) ?_
  rw [listenForBlock, wp_bind, wp_modify, wp_bind]
  refine wp_mono hblock (fun ret r₁ ⟨_, _, hret⟩ => ?_) fun _ _ _ => trivial
  exfalso
  rcases hret with ⟨hshort, _⟩ | ⟨size', hsize', hle, _⟩
  · rw [ByteOrder.word32_eq_none_iff.2 hshort] at hsize
    exact absurd hsize (by simp)
  · obtain rfl : size = size' := by simpa [hsize] using hsize'
    omega

end

/-! ## Any stream -/

section

variable (o : ByteOrder) (split : ℕ → ℕ) (ending : Ending)

/-- The size of the header that the bytes of a block have to contain: that of an
    init block, if they are read as one. -/
def headerSize (bytes : List UInt8) : ℕ :=
  if (wordAt o bytes 4).map UInt32.toInt32 = some (-1) then sizeofInitBlock else sizeofDataBlock

/-- The bytes that were read to the block. -/
def HandedBlock.bytes (h : HandedBlock) : List UInt8 := h.block.reduceOption

/-- The block fits the buffer, and has room for its header. -/
def HandedBlock.Sound (h : HandedBlock) : Prop :=
  ∃ size, o.word32 h.bytes = some size ∧ headerSize o h.bytes ≤ size.toNat ∧ size.toNat ≤ maxSize

/-- The thread ends without having written out of bounds, and all blocks it has
    handed on are sound. -/
def Listens (stream : List UInt8) : Prop :=
  wp (listen o split ending stream) (fun _ r => ∀ h ∈ r.handed, h.Sound o) (fun _ _ => False)
    { stream }

/-- A stream of blocks that have room for their headers, and fit the buffer. Of the
    last one, not more may arrive than the buffer has room for. -/
inductive Framed : List UInt8 → Prop
  | short {stream : List UInt8} : stream.length < 4 → Framed stream
  | cut {stream : List UInt8} {size : UInt32} : o.word32 stream = some size →
      stream.length < size.toNat → stream.length ≤ maxSize → Framed stream
  | block {stream : List UInt8} {size : UInt32} : o.word32 stream = some size →
      headerSize o (stream.take size.toNat) ≤ size.toNat → size.toNat ≤ maxSize →
      size.toNat ≤ stream.length → Framed (stream.drop size.toNat) → Framed stream

variable {o} {r : Receiver}

theorem le_headerSize (bytes : List UInt8) : sizeofDataBlock ≤ headerSize o bytes := by
  rw [headerSize]
  split <;> decide

theorem readLength_eq {size : UInt32} (h : sizeofDataBlock ≤ size.toNat) :
    readLength size = size.toNat := by
  have hheader : sizeofDataBlock = 12 := rfl
  rw [readLength]
  omega

theorem readLength_eq_of_lt (size : UInt32) {n : ℕ} (hn : 4 ≤ n) (h : n < readLength size) :
    readLength size = size.toNat := by
  rw [readLength] at *
  omega

/-- What the first word of a stream leaves of the cases of `Framed`. -/
theorem framed_iff {stream : List UInt8} {size : UInt32} (hsize : o.word32 stream = some size) :
    Framed o stream ↔ (stream.length < size.toNat ∧ stream.length ≤ maxSize) ∨
      (headerSize o (stream.take size.toNat) ≤ size.toNat ∧ size.toNat ≤ maxSize ∧
        size.toNat ≤ stream.length ∧ Framed o (stream.drop size.toNat)) := by
  constructor
  · intro h
    cases h with
    | short hshort =>
      rw [ByteOrder.word32_eq_none_iff.2 hshort] at hsize
      exact absurd hsize (by simp)
    | cut hsize' hlt hle =>
      obtain rfl : size = _ := by simpa [hsize] using hsize'
      exact .inl ⟨hlt, hle⟩
    | block hsize' hheader hle hle' hrest =>
      obtain rfl : size = _ := by simpa [hsize] using hsize'
      exact .inr ⟨hheader, hle, hle', hrest⟩
  · rintro (⟨hlt, hle⟩ | ⟨hheader, hle, hle', hrest⟩)
    · exact .cut hsize hlt hle
    · exact .block hsize hheader hle hle' hrest

theorem sound_iff {stream unread : List UInt8} {size : UInt32}
    (hsize : o.word32 stream = some size) :
    (⟨filled maxSize (stream.take (readLength size)), unread⟩ : HandedBlock).Sound o ↔
      headerSize o (stream.take (readLength size)) ≤ size.toNat ∧ size.toNat ≤ maxSize := by
  have hbytes : (⟨filled maxSize (stream.take (readLength size)), unread⟩ : HandedBlock).bytes =
      stream.take (readLength size) := by simp [HandedBlock.bytes]
  have hword : o.word32 (stream.take (readLength size)) = some size := by
    rw [ByteOrder.word32_take (by exact le_max_left _ _), hsize]
  simp [HandedBlock.Sound, hbytes, hword]

/-- The rounds of the loop, from any of them on. -/
theorem wp_listenForBlock_iff {rounds : ℕ} (hrounds : r.stream.length < rounds) :
    wp (listenForBlock o split ending rounds) (fun _ r' => ∀ h ∈ r'.handed, h.Sound o)
        (fun _ _ => False) r ↔
      (∀ h ∈ r.handed, h.Sound o) ∧ Framed o r.stream := by
  induction rounds generalizing r with
  | zero => omega
  | succ rounds ih =>
    by_cases hshort : r.stream.length < 4
    · obtain ⟨r', hhanded, _, hrun⟩ := listenForBlock_end o split ending rounds (.inl hshort) (hshort.le.trans (by decide))
      rw [hrun, hhanded]
      exact (and_iff_left (.short hshort)).symm
    obtain ⟨size, hsize⟩ : ∃ size, o.word32 r.stream = some size := by
      rwa [← Option.ne_none_iff_exists', ne_eq, ByteOrder.word32_eq_none_iff]
    by_cases hroom : maxSize < (r.stream.take (readLength size)).length
    · refine iff_of_false (not_listenForBlock o split ending rounds hsize hroom) fun ⟨_, h⟩ => ?_
      rw [List.length_take] at hroom
      have hmax : 4 ≤ maxSize := by decide
      have heq := readLength_eq_of_lt size hmax (by omega)
      rcases (framed_iff hsize).1 h with h | h <;> omega
    rw [List.length_take] at hroom
    by_cases hend : r.stream.length < readLength size
    · obtain ⟨r', hhanded, _, hrun⟩ := listenForBlock_end o split ending rounds (.inr ⟨size, hsize, hend⟩) (by omega)
      have heq := readLength_eq_of_lt size (not_lt.1 hshort) hend
      rw [hrun, hhanded]
      exact (and_iff_left (.cut hsize (by omega) (by omega))).symm
    · obtain ⟨r', hhanded, hstream, _, hrun⟩ := listenForBlock_block o split ending rounds hsize (not_lt.1 hend) (by omega)
      have hpos : 4 ≤ readLength size := le_max_left _ _
      rw [hrun, ih (by rw [hstream, List.length_drop]; omega), hhanded, hstream, framed_iff hsize]
      simp only [List.mem_append, List.mem_singleton, or_imp, forall_and, forall_eq,
        sound_iff hsize]
      constructor
      · rintro ⟨⟨hpre, hheader, hle⟩, hrest⟩
        have heq := readLength_eq (le_trans (le_headerSize _) hheader)
        rw [heq] at hheader hrest hend
        exact ⟨hpre, .inr ⟨hheader, hle, not_lt.1 hend, hrest⟩⟩
      · rintro ⟨hpre, ⟨hlt, _⟩ | ⟨hheader, hle, _, hrest⟩⟩
        · have : size.toNat ≤ readLength size := le_max_right _ _
          omega
        · have heq := readLength_eq (le_trans (le_headerSize _) hheader)
          rw [heq]
          exact ⟨⟨hpre, hheader, hle⟩, hrest⟩

end

/-- The receive loop stays in bounds, and hands on sound blocks only, exactly if the
    stream is framed. -/
theorem listens_iff (o : ByteOrder) (split : ℕ → ℕ) (ending : Ending) (stream : List UInt8) :
    Listens o split ending stream ↔ Framed o stream := by
  have hrun := wp_listenForBlock_iff (o := o) split ending (r := { stream }) (Nat.lt_succ_self _)
  rw [Listens, listen, hrun]
  simp

theorem not_listens_of_length {rest : List UInt8} (hrest : rest.length = 19996) :
    ¬Listens .little (fun _ => 0) .eof (ByteOrder.little.bytes32 20000 ++ rest) := by
  refine not_listenForBlock _ _ _ _ (ByteOrder.word32_bytes32 .little 20000 rest) ?_
  rw [List.length_take, List.length_append, ByteOrder.length_bytes32, hrest]
  decide

/-- A block that says it has 20000 bytes is written beyond the end of the buffer. -/
theorem not_listens_twentyThousand : ¬Listens .little (fun _ => 0) .eof
    (ByteOrder.little.bytes32 20000 ++ List.replicate 19996 0) :=
  not_listens_of_length List.length_replicate

/-! ## Blocks that fit -/

/-- The blocks of which all bytes are among the first `n`, each with what is left
    of these. -/
def arrived : List (List UInt8) → ℕ → List HandedBlock
  | [], _ => []
  | block :: blocks, n =>
    if block.length ≤ n then
      ⟨filled maxSize block, blocks.flatten.take (n - block.length)⟩ ::
        arrived blocks (n - block.length)
    else
      []

/-- The block begins with its own size, which is in bounds. -/
def SelfSized (o : ByteOrder) (block : List UInt8) : Prop :=
  o.word32 block = some (UInt32.ofNat block.length) ∧ sizeofDataBlock ≤ block.length ∧
    block.length ≤ maxSize

theorem SelfSized.readLength_eq {o : ByteOrder} {block : List UInt8} (h : SelfSized o block) :
    readLength (UInt32.ofNat block.length) = block.length := by
  obtain ⟨_, hle, hle'⟩ := h
  have hmax : maxSize = 16396 := rfl
  have hheader : sizeofDataBlock = 12 := rfl
  rw [readLength, UInt32.toNat_ofNat', Nat.mod_eq_of_lt (by omega)]
  omega

/-- The rounds of the loop, from any block on. -/
theorem wp_listenForBlock_arrived {o : ByteOrder} (split : ℕ → ℕ) (ending : Ending)
    {blocks : List (List UInt8)} (hblocks : ∀ b ∈ blocks, SelfSized o b) {r : Receiver} {n : ℕ}
    (hstream : r.stream = blocks.flatten.take n) {rounds : ℕ} (hrounds : r.stream.length < rounds) :
    wp (listenForBlock o split ending rounds) (fun _ r' =>
      r'.handed = r.handed ++ arrived blocks n ∧ r'.closed = (r.closed || ending = .eof))
      (fun _ _ => False) r := by
  induction blocks generalizing r n rounds with
  | nil =>
    obtain ⟨rounds, rfl⟩ := Nat.exists_eq_succ_of_ne_zero (by omega : rounds ≠ 0)
    have hshort : r.stream.length = 0 := by simp [hstream]
    obtain ⟨r', hhanded, hclosed, hrun⟩ := listenForBlock_end o split ending
      (r := r) rounds (.inl (by omega)) (by omega)
    rw [hrun]
    exact ⟨by simpa [arrived] using hhanded, hclosed⟩
  | cons block blocks ih =>
    obtain ⟨rounds, rfl⟩ := Nat.exists_eq_succ_of_ne_zero (by omega : rounds ≠ 0)
    have hself := hblocks block List.mem_cons_self
    have hread := hself.readLength_eq
    obtain ⟨hword, hle, hle'⟩ := hself
    have hheader : sizeofDataBlock = 12 := rfl
    rw [List.flatten_cons, List.take_append] at hstream
    by_cases hn : block.length ≤ n
    · -- The block arrives.
      rw [List.take_of_length_le hn] at hstream
      have hlen : r.stream.length = block.length + (blocks.flatten.take (n - block.length)).length := by
        rw [hstream, List.length_append]
      have hsize : o.word32 r.stream = some (UInt32.ofNat block.length) := by
        rw [← hword, ← ByteOrder.word32_take (by omega : 4 ≤ block.length), hstream, List.take_left]
      obtain ⟨r', hhanded, hstream', hclosed, hrun⟩ := listenForBlock_block o split ending rounds hsize (by omega) (by omega)
      rw [hread, hstream, List.take_left, List.drop_left] at hhanded
      rw [hread, hstream, List.drop_left] at hstream'
      rw [hrun]
      refine wp_mono (ih (fun b hb => hblocks b (List.mem_cons_of_mem _ hb)) hstream'
        (by rw [hstream']; omega)) (fun _ r'' ⟨h₁, h₂⟩ => ⟨?_, ?_⟩) fun _ _ h => h
      · rw [h₁, hhanded, arrived, if_pos hn, List.append_assoc, List.singleton_append]
      · rw [h₂, hclosed]
    · -- The stream ends before.
      have hnil : blocks.flatten.take (n - block.length) = [] := by
        rw [Nat.sub_eq_zero_of_le (not_le.1 hn).le, List.take_zero]
      rw [hnil, List.append_nil] at hstream
      have hlen : r.stream.length = n := by
        rw [hstream, List.length_take]
        omega
      have hend : r.stream.length < 4 ∨
          ∃ size, o.word32 r.stream = some size ∧ r.stream.length < readLength size := by
        by_cases hfour : n < 4
        · exact .inl (by omega)
        · refine .inr ⟨_, ?_, by rw [hread]; omega⟩
          rw [hstream, ByteOrder.word32_take (not_lt.1 hfour), hword]
      obtain ⟨r', hhanded, hclosed, hrun⟩ := listenForBlock_end o split ending rounds hend (by omega)
      rw [hrun, arrived, if_neg hn, List.append_nil]
      exact ⟨hhanded, hclosed⟩

/-- From a stream of blocks, cut off after any of its bytes and split in any way, the
    blocks that arrive completely are handed on, and nothing is read of a block
    before the one before it is handed on. -/
theorem listen_handed {o : ByteOrder} {blocks : List (List UInt8)}
    (hblocks : ∀ b ∈ blocks, SelfSized o b) (split : ℕ → ℕ) (ending : Ending) (n : ℕ) :
    ∃ r, listen o split ending (blocks.flatten.take n) { stream := blocks.flatten.take n } =
        .ok ⟨⟩ r ∧ r.handed = arrived blocks n ∧ r.closed = decide (ending = .eof) := by
  have hrun := wp_listenForBlock_arrived split ending hblocks
    (r := { stream := blocks.flatten.take n }) rfl (Nat.lt_succ_self _)
  obtain ⟨_, r, hok, hhanded, hclosed⟩ := ok_of_wp hrun
  exact ⟨r, hok, by simpa using hhanded, by simpa using hclosed⟩

/-- A block of 12 bytes and one of 13. -/
def twoBlocks : List (List UInt8) :=
  [[12, 0, 0, 0, 0, 0, 0, 0, 0, 0, 0, 0], [13, 0, 0, 0, 0, 0, 0, 0, 0, 0, 0, 0, 7]]

theorem selfSized_of_mem_twoBlocks : ∀ b ∈ twoBlocks, SelfSized .little b := by
  simp only [twoBlocks, List.mem_cons, List.not_mem_nil, or_false, forall_eq_or_imp, forall_eq]
  exact ⟨⟨by decide, by decide, by decide⟩, by decide, by decide, by decide⟩

/-- A stream that ends within the second block. -/
theorem listen_handed_twoBlocks :
    ∃ r, listen .little (fun _ => 2) .eof (twoBlocks.flatten.take 20)
        { stream := twoBlocks.flatten.take 20 } = .ok ⟨⟩ r ∧
      r.handed = arrived twoBlocks 20 ∧ r.closed = decide (Ending.eof = .eof) :=
  listen_handed selfSized_of_mem_twoBlocks (fun _ => 2) .eof 20

end Cse461.Multiplex
