import Cse461.Library.Stride
import Cse461.Multiplex.Writer

/-!
# The layout of a buffer

What one call of `multiplex_write_queues` does to a buffer.

* The data blocks are to tile the buffer (`LaidOut`). They do whenever the call
  returns, and it does not return from a buffer that has less bytes than there
  are queues: the blocks have no payload, and the loop over them has no end
  (`laysOut_iff`).
* They are to be spread over all queues (`SpreadsEvenly`). A block goes to the
  queue that the index of its first byte, not its own number, leaves modulo the
  number of queues, so this depends on the size of the blocks
  (`spreadsEvenly_iff`).
-/

namespace Cse461.Multiplex

open Library

/-- Data blocks of the buffer `tag` that lay out the bytes of `buffer`, in order. -/
structure LaidOut (buffer : List UInt8) (tag : Int32) (ds : List DataBlock) : Prop where
  tag : ∀ d ∈ ds, d.tag = tag
  payload : ∀ d ∈ ds, d.payload ≠ [] ∧ d.payload.length ≤ blockSize
  block_size : ∀ d ∈ ds, d.blockSize.toNat = sizeofDataBlock + d.payload.length
  increasing : (ds.map DataBlock.piece).Pairwise fun p q => p.start + p.data.length ≤ q.start
  cut : ∀ d ∈ ds, d.piece.CutFrom buffer
  tiles : Tiles (ds.map DataBlock.piece) buffer.length

/-- The call returns, and besides the init block it has enqueued data blocks that
    lay out the buffer. -/
def LaysOut (R : Rounding) (numQueues : ℕ) (buffer : List UInt8) (nextTag : Int32) (w : Writer) :
    Prop :=
  wp (multiplexWriteQueues R numQueues buffer (Int32.ofNat buffer.length) nextTag)
    (fun tag w' => tag = nextTag + 1 ∧ ∃ ds, LaidOut buffer tag ds ∧
      w' = (w.push (numQueues - 1)
        (.init (initBlock (Int32.ofNat buffer.length) tag nextTag))).distribute numQueues ds)
    (fun _ _ => False) w

/-- The number of data blocks in the `k`-th queue. -/
def Writer.dataBlocks (w : Writer) (k : ℕ) : ℕ :=
  (w.queues.getD k []).countP fun x => x.data?.isSome

/-- The call returns, and the numbers of data blocks it has added to any two of
    the queues differ by one at most. -/
def SpreadsEvenly (R : Rounding) (numQueues : ℕ) (buffer : List UInt8) (nextTag : Int32)
    (w : Writer) : Prop :=
  wp (multiplexWriteQueues R numQueues buffer (Int32.ofNat buffer.length) nextTag)
    (fun _ w' => ∀ i < numQueues, ∀ j < numQueues,
      w'.dataBlocks i - w.dataBlocks i ≤ w'.dataBlocks j - w.dataBlocks j + 1)
    (fun _ _ => False) w

/-! ## The size of the blocks -/

section UnifSize

variable {R : Rounding} {numQueues n : ℕ} {bufLen : Int32}

/-- The size is 0 if there are more queues than bytes. -/
theorem unifSize_eq_zero (hlen : bufLen.toInt = n) (hn : n < 2 ^ 24) (hq : n < numQueues) :
    unifSize R numQueues bufLen = some 0 := by
  have hround : R.round n = n := R.round_natCast hn.le
  have hden : (n + 1 : ℚ) ≤ R.round (1 * R.round numQueues) := by
    have hle : ((n + 1 : ℕ) : ℚ) ≤ R.round numQueues :=
      R.natCast_le_round (by omega) (by exact_mod_cast hq)
    rw [one_mul]
    exact_mod_cast R.natCast_le_round (by omega) hle
  have hquot : (n : ℚ) / R.round (1 * R.round numQueues) ≤
      (2 ^ 24 - 1 : ℕ) * (2 : ℚ) ^ (-24 : ℤ) := by
    have hn' : (n : ℚ) + 1 ≤ 2 ^ 24 := by exact_mod_cast hn
    have hpos : (0 : ℚ) ≤ n := by positivity
    generalize R.round (1 * R.round numQueues) = D at hden ⊢
    rw [div_le_iff₀ (by linarith)]
    norm_num at hn' ⊢
    linarith
  have hlt : quotient R numQueues bufLen 1 < 1 := by
    rw [quotient, hlen, Int.cast_natCast, hround]
    refine lt_of_le_of_lt (R.monotone hquot) ?_
    rw [R.exact (by norm_num) (by norm_num) (by norm_num)]
    norm_num
  have hstop : ¬(blockSize : ℚ) < quotient R numQueues bufLen 1 := by
    refine not_lt.2 (hlt.le.trans ?_)
    norm_num [blockSize]
  rw [unifSize, findDivisor, if_neg hstop, Option.map_some, Nat.floor_eq_zero.2 hlt]

/-- The divisor with which a block of each queue is at most `BLOCK_SIZE`. -/
def divisor (numQueues n : ℕ) : ℕ :=
  (n + blockSize * numQueues - 1) / (blockSize * numQueues)

/-- The size that is found if `float`s are rounded to the nearest. -/
theorem unifSize_of_nearest (hR : R.Nearest) (hlen : bufLen.toInt = n) (hn : n < 2 ^ 24)
    (hq : 1 ≤ numQueues) (hqn : numQueues ≤ n) :
    unifSize R numQueues bufLen = some (n / (divisor numQueues n * numQueues)) := by
  obtain ⟨d, hfind, hdq, hd, hstop, hlast⟩ := findDivisor_spec (R := R) hlen (by omega) hq (n + 1) 1
    le_rfl (by omega) (by omega) (by omega)
  have hpos : 0 < d * numQueues := Nat.mul_pos hd hq
  have hquot := quotient_natCast (R := R) hlen (by omega) hdq
  rw [R.round_natCast hn.le] at hquot
  have hle : n ≤ blockSize * (d * numQueues) := by
    have h := (hR.lt_round_div_iff hn hpos).not.1
      (by rw [← hquot]; norm_num [blockSize] at hstop ⊢; exact hstop)
    exact not_lt.1 h
  have hdivisor : d = divisor numQueues n := by
    have hB : 0 < blockSize * numQueues := Nat.mul_pos (by decide) hq
    refine (Nat.div_eq_of_lt_le ?_ ?_).symm
    · rcases hlast with rfl | ⟨hmul, htwo⟩
      · rw [one_mul]
        omega
      · rw [R.round_natCast hn.le] at hmul
        have hmul' : (d - 1) * numQueues * blockSize < n := by exact_mod_cast hmul
        obtain ⟨d, rfl⟩ : ∃ k, d = k + 1 := ⟨d - 1, by omega⟩
        rw [Nat.add_sub_cancel] at hmul'
        have : (d + 1) * (blockSize * numQueues) =
            d * numQueues * blockSize + blockSize * numQueues := by ring
        omega
    · have : (d + 1) * (blockSize * numQueues) =
          blockSize * (d * numQueues) + blockSize * numQueues := by ring
      omega
  rw [unifSize, hlen, Int.toNat_natCast]
  rw [Nat.cast_one] at hfind
  rw [hfind, Option.map_some, hquot, hR.floor_round_div hn hpos, hdivisor]

end UnifSize

/-! ## Tiling -/

section

variable {R : Rounding} {numQueues : ℕ} {buffer : List UInt8} {nextTag : Int32} {w : Writer}
  {unif : ℕ}

theorem laidOut_chop (tag : Int32) (hu : 0 < unif) (hu' : unif ≤ blockSize)
    (hlt : buffer.length < 2 ^ 32) :
    LaidOut buffer tag ((chop unif buffer).map (.ofPiece tag)) := by
  have hpieces := DataBlock.map_piece_ofPiece tag hu hlt
  refine ⟨?_, ?_, ?_, ?_, ?_, ?_⟩
  · intro d hd
    obtain ⟨p, _, rfl⟩ := List.mem_map.1 hd
    rfl
  · intro d hd
    obtain ⟨p, hp, rfl⟩ := List.mem_map.1 hd
    exact ⟨(cutFrom_of_mem_chop hu hp).2, (length_le_of_mem_chop hp).trans hu'⟩
  · intro d hd
    obtain ⟨p, hp, rfl⟩ := List.mem_map.1 hd
    exact DataBlock.toNat_blockSize_ofPiece ((length_le_of_mem_chop hp).trans hu')
  · rw [hpieces]
    exact pairwise_chop unif buffer
  · intro d hd
    have hd' := List.mem_map_of_mem (f := DataBlock.piece) hd
    rw [hpieces] at hd'
    exact (cutFrom_of_mem_chop hu hd').1
  · rw [hpieces]
    exact chop_tiles hu

/-- What a call comes to that finds a size and has a tag left. -/
theorem wp_multiplexWriteQueues_distribute {Q : Int32 → Writer → Prop}
    {E : WriterStop → Writer → Prop} (hlt : buffer.length < 2 ^ 24)
    (hne : nextTag ≠ Int32.maxValue) (hu : 0 < unif) (hu' : unif ≤ blockSize)
    (hunif : unifSize R numQueues (Int32.ofNat buffer.length) = some unif) :
    wp (multiplexWriteQueues R numQueues buffer (Int32.ofNat buffer.length) nextTag) Q E w ↔
      Q (nextTag + 1) ((w.push (numQueues - 1) (.init (initBlock (Int32.ofNat buffer.length)
        (nextTag + 1) nextTag))).distribute numQueues
          ((chop unif buffer).map (.ofPiece (nextTag + 1)))) := by
  have hlen := toInt_ofNat (n := buffer.length) (by omega)
  have hover : (buffer.length + unif - 1) / unif * unif < 2 ^ 31 := by
    have hmax : blockSize = 16384 := rfl
    have := Nat.div_mul_le_self (buffer.length + unif - 1) unif
    omega
  rw [wp_multiplexWriteQueues_iff hne hunif, wp_writeDataBlocks_iff (k := 0) hlen hu hu' hover
    (by simp) (by omega), List.drop_zero]

/-- A call that finds the size 0, or has no tag left, does not return. -/
theorem not_wp_multiplexWriteQueues {Q : Int32 → Writer → Prop} (hpos : 1 ≤ buffer.length)
    (hlt : buffer.length < 2 ^ 24)
    (h : nextTag = Int32.maxValue ∨ buffer.length < numQueues) :
    ¬wp (multiplexWriteQueues R numQueues buffer (Int32.ofNat buffer.length) nextTag) Q
      (fun _ _ => False) w := by
  have hlen := toInt_ofNat (n := buffer.length) (by omega)
  by_cases hne : nextTag = Int32.maxValue
  · simp [multiplexWriteQueues, hne]
  · have hshort := h.resolve_left hne
    rw [wp_multiplexWriteQueues_iff hne (unifSize_eq_zero hlen hlt hshort)]
    refine not_wp_of_wp (E := fun _ _ => True) (wp_writeDataBlocks_zero ?_ (by norm_num))
    rw [hlen]
    exact_mod_cast hpos

end

/-- A call lays out a buffer exactly if it has a byte for each queue, and there is
    a tag left. -/
theorem laysOut_iff (R : Rounding) {numQueues : ℕ} {buffer : List UInt8} (nextTag : Int32)
    {w : Writer} (hq : 1 ≤ numQueues) (hpos : 1 ≤ buffer.length)
    (hlt : buffer.length < 2 ^ 24) : LaysOut R numQueues buffer nextTag w ↔
      numQueues ≤ buffer.length ∧ nextTag ≠ Int32.maxValue := by
  have hlen := toInt_ofNat (n := buffer.length) (by omega)
  constructor
  · intro h
    by_contra hcond
    refine not_wp_multiplexWriteQueues hpos hlt ?_ h
    by_cases hne : nextTag = Int32.maxValue
    · exact .inl hne
    · exact .inr (not_le.1 fun hle => hcond ⟨hle, hne⟩)
  · rintro ⟨hle, hne⟩
    obtain ⟨u, hunif, hu', hu, _⟩ := unifSize_spec (R := R) hlen (by omega) hq (by omega)
    rw [LaysOut, wp_multiplexWriteQueues_distribute hlt hne (hu hle) hu' hunif]
    exact ⟨rfl, _, laidOut_chop _ (hu hle) hu' (by omega), rfl⟩

/-- A buffer of three bytes, over two queues. -/
theorem laysOut_three : LaysOut .none 2 [1, 2, 3] (-1) (.empty 2) ↔
    2 ≤ [(1 : UInt8), 2, 3].length ∧ (-1 : Int32) ≠ Int32.maxValue :=
  laysOut_iff .none (-1) (by decide) (by decide) (by decide)

/-- A buffer of one byte is not laid out over two queues. -/
theorem not_laysOut_one : ¬LaysOut .none 2 [7] (-1) (.empty 2) :=
  not_wp_multiplexWriteQueues (by decide) (by decide) (.inr (by decide))

/-! ## Spreading -/

section

variable {numQueues k : ℕ} {w : Writer}

theorem Writer.dataBlocks_push (hk : k < w.queues.length) (l : ℕ) (x : Block) :
    (w.push l x).dataBlocks k = w.dataBlocks k + if l = k ∧ x.data?.isSome then 1 else 0 := by
  have hk' : k < (w.queues.modify l (· ++ [x])).length := by simpa using hk
  rw [dataBlocks, dataBlocks, push, List.getD_eq_getElem _ _ hk', List.getD_eq_getElem _ _ hk,
    List.getElem_modify]
  by_cases hl : l = k
  · simp [hl, List.countP_append, List.countP_singleton]
  · simp [hl]

theorem Writer.dataBlocks_distribute (hk : k < w.queues.length) (ds : List DataBlock) :
    (w.distribute numQueues ds).dataBlocks k =
      w.dataBlocks k + ds.countP fun d => d.seqNumber.toNat % numQueues = k := by
  induction ds generalizing w with
  | nil => rfl
  | cons d ds ih =>
    change ((w.push _ (.data d)).distribute numQueues ds).dataBlocks k = _
    rw [ih (by simpa using hk), dataBlocks_push hk, List.countP_cons, Nat.add_assoc]
    simp [Block.data?, Nat.add_comm]

/-- The blocks of one size go to the queues in strides. -/
theorem countP_chop {buffer : List UInt8} {tag : Int32} {unif : ℕ} (hu : 0 < unif)
    (hlt : buffer.length < 2 ^ 32) :
    ((chop unif buffer).map (DataBlock.ofPiece tag)).countP
        (fun d => d.seqNumber.toNat % numQueues = k) =
      strideCount unif numQueues ((buffer.length + unif - 1) / unif) k := by
  rw [strideCount_eq_countP, chop, List.map_map, List.countP_map]
  refine List.countP_congr fun l hl => ?_
  rw [List.mem_range, lt_length_of_mul_lt hu] at hl
  have hseq : (UInt32.ofNat (l * unif)).toNat = l * unif := by
    rw [UInt32.toNat_ofNat', Nat.mod_eq_of_lt (by omega)]
  simp only [DataBlock.ofPiece, Function.comp_apply, hseq]

end

/-- The size that is found leaves a block for each queue at least. -/
theorem divisor_spec {numQueues n : ℕ} (hq : 1 ≤ numQueues) (hqn : numQueues ≤ n)
    (hn : n < 2 ^ 24) :
    0 < n / (divisor numQueues n * numQueues) ∧ n / (divisor numQueues n * numQueues) ≤ blockSize ∧
      numQueues ≤ (n + n / (divisor numQueues n * numQueues) - 1) /
        (n / (divisor numQueues n * numQueues)) := by
  obtain ⟨u, hunif, hu', hu, _⟩ := unifSize_spec (R := .none) (toInt_ofNat (n := n) (by omega))
    (by omega) hq (by omega)
  rw [unifSize_of_nearest Rounding.nearest_none (toInt_ofNat (n := n) (by omega)) hn hq hqn,
    Option.some.injEq] at hunif
  rw [hunif]
  refine ⟨hu hqn, hu', ?_⟩
  have hpos : 0 < divisor numQueues n := by
    refine Nat.div_pos ?_ (Nat.mul_pos (by decide) hq)
    omega
  rw [Nat.le_div_iff_mul_le (hu hqn)]
  have hle : u * (divisor numQueues n * numQueues) ≤ n := hunif ▸ Nat.div_mul_le_self _ _
  have hle' : numQueues * u ≤ u * (divisor numQueues n * numQueues) := by
    rw [Nat.mul_comm numQueues u]
    exact Nat.mul_le_mul_left u (Nat.le_mul_of_pos_left _ hpos)
  have := hu hqn
  omega

/-- A call spreads a buffer evenly exactly if the size of its blocks is coprime to
    the number of queues, and there is a tag left. -/
theorem spreadsEvenly_iff {R : Rounding} (hR : R.Nearest) {numQueues : ℕ} {buffer : List UInt8}
    (nextTag : Int32) {w : Writer} (hq : 1 ≤ numQueues) (hw : w.queues.length = numQueues)
    (hle : numQueues ≤ buffer.length) (hlt : buffer.length < 2 ^ 24) :
    SpreadsEvenly R numQueues buffer nextTag w ↔
      Nat.Coprime (buffer.length / (divisor numQueues buffer.length * numQueues)) numQueues ∧
        nextTag ≠ Int32.maxValue := by
  obtain ⟨hu, hu', hK⟩ := divisor_spec hq hle hlt
  have hunif := unifSize_of_nearest hR (toInt_ofNat (n := buffer.length) (by omega)) hlt hq hle
  generalize buffer.length / (divisor numQueues buffer.length * numQueues) = u at *
  by_cases hne : nextTag = Int32.maxValue
  · refine iff_of_false (not_wp_multiplexWriteQueues (by omega) hlt (.inl hne)) fun h => h.2 hne
  rw [SpreadsEvenly, wp_multiplexWriteQueues_distribute hlt hne hu hu' hunif]
  -- What is added to a queue is what the strides leave in it.
  have hadd : ∀ k < numQueues, ∀ x : InitBlock,
      ((w.push (numQueues - 1) (.init x)).distribute numQueues
        ((chop u buffer).map (.ofPiece (nextTag + 1)))).dataBlocks k - w.dataBlocks k =
      strideCount u numQueues ((buffer.length + u - 1) / u) k := by
    intro k hk x
    rw [Writer.dataBlocks_distribute (by simpa [hw] using hk), countP_chop hu (by omega),
      Writer.dataBlocks_push (by omega)]
    simp [Block.data?]
  constructor
  · intro h
    refine ⟨?_, hne⟩
    by_contra hcop
    have htwo := two_le_strideCount_zero hq hcop hK
    have hone : 1 < numQueues := by
      by_contra h₁
      obtain rfl : numQueues = 1 := by omega
      exact hcop (Nat.coprime_one_right u)
    have := h 0 hq 1 hone
    rw [hadd 0 hq, hadd 1 hone, strideCount_one hcop] at this
    omega
  · rintro ⟨hcop, _⟩ i hi j hj
    rw [hadd i hi, hadd j hj]
    exact strideCount_le_succ hq hcop hi hj

/-- A buffer of three bytes, over two queues. -/
theorem spreadsEvenly_three : SpreadsEvenly .none 2 [1, 2, 3] (-1) (.empty 2) ↔
    Nat.Coprime ([(1 : UInt8), 2, 3].length / (divisor 2 [(1 : UInt8), 2, 3].length * 2)) 2 ∧
      (-1 : Int32) ≠ Int32.maxValue :=
  spreadsEvenly_iff Rounding.nearest_none (-1) (by decide) (by decide) (by decide) (by decide)

/-- Both blocks of a buffer of four bytes go to the first of two queues. -/
theorem not_spreadsEvenly_four : ¬SpreadsEvenly .none 2 [1, 2, 3, 4] (-1) (.empty 2) := by
  have hunif : unifSize .none 2 (Int32.ofNat [(1 : UInt8), 2, 3, 4].length) = some 2 :=
    unifSize_of_nearest (n := 4) Rounding.nearest_none (by rfl) (by decide) (by decide) (by decide)
  rw [SpreadsEvenly, wp_multiplexWriteQueues_distribute (by decide) (by decide) (by decide)
    (by decide) hunif]
  decide

end Cse461.Multiplex
