import Cse461.Library.Exec
import Cse461.Library.Rounding
import Cse461.Multiplex.Chain

/-!
# The multiplex writer

`multiplex_write_queues` of `multiplex_writer.c`: a buffer is announced by an
init block, cut into data blocks of one size, and its blocks are distributed
among the queues of the connections.

* The size of the blocks is found in `float` arithmetic, rounded by some
  `Rounding`; what is proved holds for each, exact arithmetic included.
* A call that does not return stops with a reason (`WriterStop`): it goes on for
  ever, or an `int` overflows.

`wp_writeBuffers` says what a list of buffers is turned into: the blocks of a
chain, in some order over the queues.
-/

namespace Cse461.Multiplex

open Library

/-- Why a call does not return. -/
inductive WriterStop
  /-- A loop has no end. -/
  | unbounded
  /-- An `int` overflows. -/
  | overflow
  deriving DecidableEq

/-- The state the writer works on. -/
structure Writer where
  /-- The blocks in each queue, the next to be sent first. -/
  queues : List (List Block)
  deriving DecidableEq

/-- The writer before the first buffer. -/
def Writer.empty (numQueues : ℕ) : Writer := ⟨List.replicate numQueues []⟩

/-- Add a block to the `k`-th queue. -/
def Writer.push (w : Writer) (k : ℕ) (block : Block) : Writer :=
  ⟨w.queues.modify k (· ++ [block])⟩

/-- A call, on the state of the writer. -/
abbrev WriterM := EStateM WriterStop Writer

/-- `write_block_to_queue`. -/
def writeBlockToQueue (k : ℕ) (block : Block) : WriterM Unit :=
  modify fun w => w.push k block

section

variable (R : Rounding) (numQueues : ℕ)

/-- `buf_len / (divisor * num_queues)`, a `float`. -/
def quotient (bufLen : Int32) (divisor : ℚ) : ℚ :=
  R.round (R.round bufLen.toInt / R.round (divisor * R.round numQueues))

/-- The loop over `divisor`, with a bound on its rounds. -/
def findDivisor (bufLen : Int32) : ℕ → ℚ → Option ℚ
  | 0, _ => none
  | rounds + 1, divisor =>
    if (blockSize : ℚ) < quotient R numQueues bufLen divisor then
      findDivisor bufLen rounds (R.round (divisor + 1))
    else
      some divisor

/-- `unif_size`, `none` if the loop before does not end: the divisor is less than
    `buf_len` in every round but the last. (Of a negative `buf_len`, for which it
    is not used, it is taken to be 0.) -/
def unifSize (bufLen : Int32) : Option ℕ :=
  (findDivisor R numQueues bufLen (bufLen.toInt.toNat + 1) 1).map fun divisor =>
    ⌊quotient R numQueues bufLen divisor⌋₊

end

/-- The data block for the bytes of `buffer` from `i` on. -/
def dataBlock (buffer : List UInt8) (bufLen : Int32) (tag : Int32) (unif i : ℕ) : DataBlock :=
  let actualSize := UInt32.ofNat (min unif (bufLen.toInt - i).toNat)
  { blockSize := actualSize + UInt32.ofNat sizeofDataBlock
    seqNumber := UInt32.ofNat i
    tag := tag
    payload := (buffer.drop i).take actualSize.toNat }

/-- The loop over the index `i`, with a bound on its rounds. -/
def writeDataBlocks (numQueues : ℕ) (buffer : List UInt8) (bufLen : Int32) (tag : Int32)
    (unif : ℕ) : ℕ → ℕ → WriterM Unit
  | 0, _ => throw .unbounded
  | rounds + 1, i => do
    if (i : ℤ) < bufLen.toInt then
      writeBlockToQueue (i % numQueues) (.data (dataBlock buffer bufLen tag unif i))
      if i + unif < 2 ^ 31 then
        writeDataBlocks numQueues buffer bufLen tag unif rounds (i + unif)
      else
        throw .overflow

/-- The init block of a buffer. -/
def initBlock (bufLen : Int32) (tag prevTag : Int32) : InitBlock where
  blockSize := UInt32.ofNat sizeofInitBlock
  flag := -1
  bufferSize := bufLen.toUInt32
  tag := tag
  prevTag := prevTag
  lastBlock := false

/-- `multiplex_write_queues`: the value `*next_tag` has afterwards. Every round of
    the loop over the data blocks raises the index, or else the loop has no end. -/
def multiplexWriteQueues (R : Rounding) (numQueues : ℕ) (buffer : List UInt8) (bufLen : Int32)
    (nextTag : Int32) : WriterM Int32 := do
  if nextTag = Int32.maxValue then
    throw .overflow
  else
    let tag := nextTag + 1
    writeBlockToQueue (numQueues - 1) (.init (initBlock bufLen tag nextTag))
    match unifSize R numQueues bufLen with
    | none => throw .unbounded
    | some unif =>
      writeDataBlocks numQueues buffer bufLen tag unif (bufLen.toInt.toNat + 1) 0
      return tag

/-- The buffers, one after the other, with one counter for the tags. -/
def writeBuffers (R : Rounding) (numQueues : ℕ) : List (List UInt8) → Int32 → WriterM Int32
  | [], nextTag => pure nextTag
  | buffer :: buffers, nextTag => do
    let nextTag ← multiplexWriteQueues R numQueues buffer (Int32.ofNat buffer.length) nextTag
    writeBuffers R numQueues buffers nextTag

/-! ## The size of the blocks -/

section UnifSize

variable {R : Rounding} {numQueues : ℕ} {bufLen : Int32} {n : ℕ}

theorem quotient_natCast {d : ℕ} (hlen : bufLen.toInt = n) (hq : numQueues ≤ 2 ^ 24)
    (hd : d * numQueues ≤ 2 ^ 24) :
    quotient R numQueues bufLen d = R.round (R.round n / (d * numQueues : ℕ)) := by
  rw [quotient, hlen, R.round_natCast hq, ← Nat.cast_mul, R.round_natCast hd, Int.cast_natCast]

theorem round_length_le (hn : n < 2 ^ 31) : R.round n ≤ 2 ^ 31 := by
  have hexact : R.round (2 ^ 31) = 2 ^ 31 := by
    simpa using R.exact (m := 1) (e := 31) (by norm_num) (by norm_num) (by norm_num)
  rw [← hexact]
  exact R.monotone (by exact_mod_cast hn.le)

/-- As long as the loop goes on, the divisor is small. -/
theorem mul_lt_of_lt_quotient {d : ℕ} (hlen : bufLen.toInt = n) (hd' : 1 ≤ d)
    (hq : 1 ≤ numQueues) (hd : d * numQueues ≤ 2 ^ 24)
    (h : (blockSize : ℚ) < quotient R numQueues bufLen d) :
    ((d * numQueues : ℕ) : ℚ) * blockSize < R.round n := by
  have hpos : (0 : ℚ) < (d * numQueues : ℕ) := by exact_mod_cast Nat.mul_pos hd' hq
  rw [quotient_natCast hlen (le_trans (Nat.le_mul_of_pos_left _ hd') hd) hd] at h
  have := R.lt_of_lt_round (by norm_num [blockSize]) h
  rw [lt_div_iff₀ hpos] at this
  linarith

theorem findDivisor_spec (hlen : bufLen.toInt = n) (hn : n < 2 ^ 31) (hq : 1 ≤ numQueues)
    (rounds d : ℕ) (hd : 1 ≤ d) (hrounds : rounds + d = n + 2) (hdn : d ≤ n + 1)
    (hdq : d * numQueues ≤ 2 ^ 24) :
    ∃ d' : ℕ, findDivisor R numQueues bufLen rounds d = some (d' : ℚ) ∧
      d' * numQueues ≤ 2 ^ 24 ∧ d ≤ d' ∧ quotient R numQueues bufLen d' ≤ blockSize ∧
      (d' = d ∨ ((((d' - 1) * numQueues : ℕ) : ℚ) * blockSize < R.round n ∧ 2 ≤ d')) := by
  induction rounds generalizing d with
  | zero => omega
  | succ rounds ih =>
    rw [findDivisor]
    by_cases hcond : (blockSize : ℚ) < quotient R numQueues bufLen d
    · have hmul := mul_lt_of_lt_quotient hlen hd hq hdq hcond
      have hround := round_length_le (R := R) hn
      have hsmall : d * numQueues < 2 ^ 17 := by
        have : ((d * numQueues : ℕ) : ℚ) < (2 ^ 17 : ℕ) := by
          norm_num [blockSize] at hmul hround ⊢
          linarith
        exact_mod_cast this
      have hle : d ≤ d * numQueues := Nat.le_mul_of_pos_right _ hq
      have hnext : (d + 1) * numQueues ≤ 2 ^ 24 := by
        have : numQueues ≤ d * numQueues := Nat.le_mul_of_pos_left _ hd
        rw [Nat.add_mul]
        omega
      -- The bound on the rounds is not reached.
      have hdn' : d ≤ n := by
        by_cases hbig : n ≤ 2 ^ 24
        · rw [R.round_natCast hbig] at hmul
          have : d * numQueues * blockSize < n := by exact_mod_cast hmul
          norm_num [blockSize] at this
          omega
        · omega
      rw [if_pos hcond, show R.round ((d : ℚ) + 1) = ((d + 1 : ℕ) : ℚ) by
        rw [← Nat.cast_succ, R.round_natCast (by omega)]]
      obtain ⟨d', hfind, hd'q, hle', hstop, hlast⟩ := ih (d + 1) (by omega) (by omega)
        (by omega) hnext
      refine ⟨d', hfind, hd'q, by omega, hstop, .inr ?_⟩
      rcases hlast with rfl | hlast
      · exact ⟨by simpa using hmul, by omega⟩
      · exact hlast
    · rw [if_neg hcond]
      exact ⟨d, rfl, hdq, le_rfl, not_lt.1 hcond, .inl rfl⟩

/-- There is a size, at most `BLOCK_SIZE`, and it is not 0 if the buffer has a byte
    for each queue. -/
theorem unifSize_spec (hlen : bufLen.toInt = n) (hn : n < 2 ^ 31) (hq : 1 ≤ numQueues)
    (hq' : numQueues ≤ 2 ^ 24) : ∃ u, unifSize R numQueues bufLen = some u ∧ u ≤ blockSize ∧
      (numQueues ≤ n → 0 < u) ∧ (n < numQueues → u = 0) := by
  obtain ⟨d, hfind, hdq, hd, hstop, hlast⟩ := findDivisor_spec (R := R) hlen hn hq (n + 1) 1
    le_rfl (by omega) (by omega) (by omega)
  have hpos : (0 : ℚ) < (d * numQueues : ℕ) := by exact_mod_cast Nat.mul_pos hd hq
  refine ⟨⌊quotient R numQueues bufLen d⌋₊, ?_, Nat.floor_le_of_le hstop, fun hle => ?_,
    fun hlt => ?_⟩
  · rw [unifSize, hlen, Int.toNat_natCast]
    rw [Nat.cast_one] at hfind
    rw [hfind, Option.map_some]
  · have hone : (1 : ℚ) ≤ R.round n / (d * numQueues : ℕ) := by
      rw [le_div_iff₀ hpos, one_mul]
      rcases hlast with rfl | ⟨hmul, htwo⟩
      · rw [one_mul]
        exact R.natCast_le_round hq' (by exact_mod_cast hle)
      · refine le_trans ?_ hmul.le
        have : d * numQueues ≤ (d - 1) * numQueues * blockSize := by
          obtain ⟨d, rfl⟩ : ∃ k, d = k + 2 := ⟨d - 2, by omega⟩
          norm_num [blockSize]
          nlinarith
        exact_mod_cast this
    rw [Nat.floor_pos, quotient_natCast hlen hq' hdq]
    exact_mod_cast R.natCast_le_round (n := 1) (by norm_num) (by exact_mod_cast hone)
  · -- The quotient is below 1 by more than rounding makes up for.
    have hround : R.round n = n := R.round_natCast (by omega)
    have hquot : R.round n / (d * numQueues : ℕ) ≤ (2 ^ 24 - 1 : ℕ) * (2 : ℚ) ^ (-24 : ℤ) := by
      rw [hround, div_le_iff₀ hpos]
      have h₁ : (n : ℚ) + 1 ≤ (d * numQueues : ℕ) := by
        exact_mod_cast le_trans hlt (Nat.le_mul_of_pos_left _ hd)
      have h₂ : ((d * numQueues : ℕ) : ℚ) ≤ 2 ^ 24 := by exact_mod_cast hdq
      norm_num at h₁ h₂ ⊢
      linarith
    have hlt' : quotient R numQueues bufLen d < 1 := by
      rw [quotient_natCast hlen hq' hdq]
      refine lt_of_le_of_lt (R.monotone hquot) ?_
      rw [R.exact (by norm_num) (by norm_num) (by norm_num)]
      norm_num
    exact Nat.floor_eq_zero.2 hlt'

end UnifSize

/-! ## The blocks of a buffer -/

/-- The blocks of one size, as the loop lays them out. -/
theorem dataBlock_eq {buffer : List UInt8} {bufLen tag : Int32} {unif k : ℕ}
    (hlen : bufLen.toInt = buffer.length) (hu : unif ≤ blockSize) :
    dataBlock buffer bufLen tag unif (k * unif) =
      .ofPiece tag ⟨k * unif, (buffer.drop (k * unif)).take unif⟩ := by
  have hmax : blockSize = 16384 := rfl
  have hactual : (bufLen.toInt - (k * unif : ℕ)).toNat = (buffer.drop (k * unif)).length := by
    rw [hlen, List.length_drop]
    omega
  have hsize : (UInt32.ofNat (min unif (buffer.drop (k * unif)).length)).toNat =
      min unif (buffer.drop (k * unif)).length := by
    rw [UInt32.toNat_ofNat', Nat.mod_eq_of_lt (by omega)]
  have htake : (buffer.drop (k * unif)).take (min unif (buffer.drop (k * unif)).length) =
      (buffer.drop (k * unif)).take unif := by
    rw [← List.take_take, List.take_length]
  simp only [dataBlock, DataBlock.ofPiece, hactual, hsize, htake, List.length_take,
    ← UInt32.ofNat_add, Nat.add_comm]

section Loop

variable {numQueues : ℕ} {buffer : List UInt8} {bufLen tag : Int32} {unif : ℕ} {w : Writer}
  {E : WriterStop → Writer → Prop}

@[simp] theorem Writer.length_push (k : ℕ) (x : Block) :
    (w.push k x).queues.length = w.queues.length := by
  simp [push]

/-- A block more in a queue is a block more in the queues. -/
theorem Writer.flatten_push {k : ℕ} (hk : k < w.queues.length) (x : Block) :
    (w.push k x).queues.flatten.Perm (w.queues.flatten ++ [x]) := by
  obtain ⟨qs⟩ := w
  simp only [push] at hk ⊢
  induction qs generalizing k with
  | nil => simp at hk
  | cons q qs ih =>
    cases k with
    | zero =>
      simp only [List.modify_zero_cons, List.flatten_cons, List.append_assoc]
      exact List.perm_append_comm.append_left q
    | succ k =>
      simp only [List.modify_succ_cons, List.flatten_cons, List.append_assoc]
      exact (ih (by simpa using hk)).append_left q

@[simp] theorem wp_writeBlockToQueue {Q : PUnit → Writer → Prop} (k : ℕ) (x : Block) :
    wp (writeBlockToQueue k x) Q E w ↔ Q ⟨⟩ (w.push k x) := Iff.rfl

/-- Add data blocks to the queues that the loop over them chooses. -/
def Writer.distribute (numQueues : ℕ) (w : Writer) (ds : List DataBlock) : Writer :=
  ds.foldl (fun w d => w.push (d.seqNumber.toNat % numQueues) (.data d)) w

theorem Writer.length_distribute (ds : List DataBlock) :
    (w.distribute numQueues ds).queues.length = w.queues.length := by
  induction ds generalizing w with
  | nil => rfl
  | cons d ds ih =>
    change ((w.push _ _).distribute numQueues ds).queues.length = _
    rw [ih, length_push]

theorem Writer.flatten_distribute (hq : 1 ≤ numQueues) (hw : w.queues.length = numQueues)
    (ds : List DataBlock) :
    (w.distribute numQueues ds).queues.flatten.Perm (w.queues.flatten ++ ds.map .data) := by
  induction ds generalizing w with
  | nil => simp [distribute]
  | cons d ds ih =>
    have hk : d.seqNumber.toNat % numQueues < w.queues.length := by
      rw [hw]
      exact Nat.mod_lt _ hq
    refine (ih (w := w.push _ (.data d)) (by simpa using hw)).trans ?_
    simpa using (flatten_push hk (.data d)).append_right (ds.map .data)

/-- The loop sends the pieces that are left, if the index stays an `int`. -/
theorem wp_writeDataBlocks_iff (hlen : bufLen.toInt = buffer.length) (hu : 0 < unif)
    (hu' : unif ≤ blockSize) (hover : (buffer.length + unif - 1) / unif * unif < 2 ^ 31)
    {Q : PUnit → Writer → Prop} {rounds k i : ℕ} (hi : i = k * unif)
    (hrounds : buffer.length - i < rounds) :
    wp (writeDataBlocks numQueues buffer bufLen tag unif rounds i) Q E w ↔
      Q ⟨⟩ (w.distribute numQueues (((chop unif buffer).drop k).map (.ofPiece tag))) := by
  have hlength : (chop unif buffer).length = (buffer.length + unif - 1) / unif := by simp [chop]
  induction rounds generalizing k i w with
  | zero => omega
  | succ rounds ih =>
    subst hi
    rw [writeDataBlocks]
    by_cases hk : k * unif < buffer.length
    · have hk' := (lt_length_of_mul_lt hu).2 hk
      have hnext : k * unif + unif = (k + 1) * unif := by ring
      have hint : (k + 1) * unif < 2 ^ 31 := lt_of_le_of_lt (Nat.mul_le_mul_right _ hk') hover
      have hdrop : (chop unif buffer).drop k =
          ⟨k * unif, (buffer.drop (k * unif)).take unif⟩ :: (chop unif buffer).drop (k + 1) := by
        have hlt : k < (chop unif buffer).length := by rw [hlength]; exact hk'
        rw [List.drop_eq_getElem_cons hlt]
        simp [chop]
      have hseq : (UInt32.ofNat (k * unif)).toNat = k * unif := by
        rw [UInt32.toNat_ofNat', Nat.mod_eq_of_lt (by omega)]
      rw [if_pos (by rw [hlen]; exact_mod_cast hk), hnext, if_pos hint, wp_bind,
        wp_writeBlockToQueue, dataBlock_eq hlen hu']
      refine (ih (k := k + 1) rfl (by omega)).trans ?_
      rw [hdrop, List.map_cons]
      simp only [Writer.distribute, List.foldl_cons, DataBlock.ofPiece, hseq]
    · have hdrop : (chop unif buffer).drop k = [] := by
        refine List.drop_eq_nil_of_le ?_
        rw [hlength]
        exact not_lt.1 fun h => hk ((lt_length_of_mul_lt hu).1 h)
      rw [if_neg (by rw [hlen]; exact_mod_cast hk), hdrop]
      rfl

/-- The loop over the data blocks has no end if they have no payload. -/
theorem wp_writeDataBlocks_zero {rounds i : ℕ} (hi : (i : ℤ) < bufLen.toInt)
    (hi' : i < 2 ^ 31) :
    wp (writeDataBlocks numQueues buffer bufLen tag 0 rounds i) (fun _ _ => False)
      (fun _ _ => True) w := by
  induction rounds generalizing w with
  | zero => trivial
  | succ rounds ih =>
    rw [writeDataBlocks, if_pos hi, wp_bind, wp_writeBlockToQueue, if_pos (by simpa using hi')]
    exact ih

/-- The call sends the init block, then the data blocks of the size found. -/
theorem wp_multiplexWriteQueues_iff {R : Rounding} {nextTag : Int32} {Q : Int32 → Writer → Prop}
    (hne : nextTag ≠ Int32.maxValue) {u : ℕ} (hu : unifSize R numQueues bufLen = some u) :
    wp (multiplexWriteQueues R numQueues buffer bufLen nextTag) Q E w ↔
      wp (writeDataBlocks numQueues buffer bufLen (nextTag + 1) u (bufLen.toInt.toNat + 1) 0)
        (fun _ w' => Q (nextTag + 1) w') E
        (w.push (numQueues - 1) (.init (initBlock bufLen (nextTag + 1) nextTag))) := by
  simp only [multiplexWriteQueues, if_neg hne, wp_bind, wp_writeBlockToQueue, hu, wp_pure]

end Loop

/-! ## Buffers -/

theorem toInt_ofNat {n : ℕ} (hn : n < 2 ^ 31) : (Int32.ofNat n).toInt = n :=
  Int32.toInt_ofNat_of_lt hn

/-- The blocks of the buffers are those of a chain that goes on from `nextTag`. -/
theorem wp_multiplexWriteQueues {R : Rounding} {numQueues : ℕ} {buffer : List UInt8} {t : ℕ}
    {nextTag : Int32} {w : Writer} {E : WriterStop → Writer → Prop} (htag : nextTag + 1 = Int32.ofNat t)
    (ht : t < 2 ^ 31) (hq : 1 ≤ numQueues) (hq' : numQueues ≤ 2 ^ 24)
    (hw : w.queues.length = numQueues) (hlen : numQueues ≤ buffer.length) (hlt : buffer.length < 2 ^ 31)
    (hover : ∀ u, unifSize R numQueues (Int32.ofNat buffer.length) = some u →
      (buffer.length + u - 1) / u * u < 2 ^ 31) :
    wp (multiplexWriteQueues R numQueues buffer (Int32.ofNat buffer.length) nextTag)
      (fun tag w' => tag = Int32.ofNat t ∧ w'.queues.length = numQueues ∧
        ∃ b : SplitBuffer, b.tag = tag ∧ b.bytes = buffer ∧
          w'.queues.flatten.Perm (w.queues.flatten ++ chainBlocks nextTag [b])) E w := by
  have hint := toInt_ofNat ht
  have hne : nextTag ≠ Int32.maxValue := by
    rintro rfl
    have hmin : (Int32.maxValue + 1).toInt = -2 ^ 31 := rfl
    rw [htag, hint] at hmin
    omega
  have hnonneg : 0 ≤ nextTag + 1 := by
    rw [Int32.le_iff_toInt_le, htag, hint, Int32.toInt_zero]
    omega
  have hbytes : buffer ≠ [] := by
    rintro rfl
    simp at hlen
    omega
  have hlen' := toInt_ofNat hlt
  obtain ⟨u, hu, hsize, hpos, _⟩ := unifSize_spec (R := R) hlen' hlt hq hq'
  let b : SplitBuffer :=
    .chop (nextTag + 1) buffer u hnonneg hbytes (by omega) (hpos hlen) hsize
  have hinit : initBlock (Int32.ofNat buffer.length) (nextTag + 1) nextTag =
      b.initBlock nextTag := by
    simp [b, initBlock, SplitBuffer.initBlock, SplitBuffer.chop]
  have hw' : (w.push (numQueues - 1) (.init (b.initBlock nextTag))).queues.length = numQueues := by
    simpa using hw
  rw [wp_multiplexWriteQueues_iff hne hu, wp_writeDataBlocks_iff (k := 0) hlen' (hpos hlen) hsize
    (hover u hu) (by simp) (by omega), hinit, List.drop_zero]
  refine ⟨htag, by rw [Writer.length_distribute, hw'], b, rfl, rfl,
    (Writer.flatten_distribute hq hw' _).trans ?_⟩
  rw [chainBlocks, chainBlocks, List.append_nil]
  have hinsert := (Writer.flatten_push (show numQueues - 1 < w.queues.length by omega)
    (.init (b.initBlock nextTag))).append_right
      ((chop u buffer).map fun p => Block.data (.ofPiece (nextTag + 1) p))
  simpa [b, SplitBuffer.chop, Function.comp_def] using hinsert

/-- A list of buffers is written as the blocks of a chain. -/
theorem wp_writeBuffers {R : Rounding} {numQueues : ℕ} {E : WriterStop → Writer → Prop}
    (hq : 1 ≤ numQueues) {buffers : List (List UInt8)} {t : ℕ} {nextTag : Int32} {w : Writer}
    (htag : nextTag + 1 = Int32.ofNat t) (ht : t + buffers.length ≤ 2 ^ 31)
    (hw : w.queues.length = numQueues)
    (hbuffers : ∀ b ∈ buffers, numQueues ≤ b.length ∧ b.length < 2 ^ 24) :
    wp (writeBuffers R numQueues buffers nextTag) (fun _ w' => ∃ bs : List SplitBuffer,
      bs.map SplitBuffer.bytes = buffers ∧
      bs.map SplitBuffer.tag = (List.range' t buffers.length).map Int32.ofNat ∧
      w'.queues.flatten.Perm (w.queues.flatten ++ chainBlocks nextTag bs)) E w := by
  induction buffers generalizing t nextTag w with
  | nil => exact ⟨[], rfl, rfl, by simp [chainBlocks]⟩
  | cons buffer buffers ih =>
    obtain ⟨hlen, hlt⟩ := hbuffers buffer List.mem_cons_self
    rw [List.length_cons] at ht
    rw [writeBuffers, wp_bind]
    have hover : ∀ u, unifSize R numQueues (Int32.ofNat buffer.length) = some u →
        (buffer.length + u - 1) / u * u < 2 ^ 31 := by
      intro u hu
      obtain ⟨u', hu', hsize, _⟩ := unifSize_spec (R := R) (toInt_ofNat (by omega))
        (n := buffer.length) (by omega) hq (by omega)
      obtain rfl : u = u' := by simpa [hu] using hu'
      have hmax : blockSize = 16384 := rfl
      have := Nat.div_mul_le_self (buffer.length + u - 1) u
      omega
    refine wp_mono (wp_multiplexWriteQueues htag (by omega) hq (by omega) hw hlen (by omega) hover)
      ?_ fun _ _ h => h
    rintro tag w₁ ⟨htag₁, hw₁, b, hb, hbytes, hperm⟩
    refine wp_mono (ih (t := t + 1) (by rw [htag₁, Int32.ofNat_add]; rfl) (by omega) hw₁
      fun b' hb' => hbuffers b' (List.mem_cons_of_mem _ hb')) ?_ fun _ _ h => h
    rintro _ w₂ ⟨bs, hbs, htags, hperm₂⟩
    refine ⟨b :: bs, ?_, ?_, ?_⟩
    · rw [List.map_cons, hbytes, hbs]
    · rw [List.map_cons, htags, hb, htag₁, List.length_cons, List.range'_succ, List.map_cons]
    · refine hperm₂.trans ((hperm.append_right _).trans ?_)
      rw [← hb]
      simp [chainBlocks]

end Cse461.Multiplex
