import Cse461.Library.ByteOrder

/-!
# The blocks on the wire

`multiplex_standards.h`: the two structures a block of bytes is read as, their
layout in memory, and the keys the tag table files their tags under.

A block is an init block if its second word is `-1`, and a data block otherwise
(`parseBlock`). Every block the writer lays out is read back as what it is
(`parseBlock_initBytes`, `parseBlock_dataBytes`): the sequence number of a data
block, which has the place of the flag, is never `-1`, as it is smaller than the
size of a buffer (`DataBlock.Plain`).

A tag is an `int`; a key of the table is a `uint64_t`. Where a tag is passed
directly it is converted with its sign (`intKey`), where it is passed as a
`uint32_t` first it is not (`wordKey`): the two agree on the tags that are not
negative only (`wordKey_eq_intKey_iff`).
-/

namespace Cse461.Multiplex

open Library

/-- `BLOCK_SIZE`: the size the writer caps the payload of a data block at. -/
def blockSize : ℕ := 16384

/-- `NO_TAG`: the tag of no buffer. -/
def noTag : Int32 := -1

/-- `sizeof(struct data_block)`. -/
def sizeofDataBlock : ℕ := 12

/-- `sizeof(struct init_block)`: 21 bytes of fields, and 3 the compiler adds. -/
def sizeofInitBlock : ℕ := 24

/-- `struct data_block`, with the bytes that follow it in its block. -/
structure DataBlock where
  /-- The size of the block, including the header. -/
  blockSize : UInt32
  /-- The index in the buffer of the first byte of the payload. -/
  seqNumber : UInt32
  tag : Int32
  /-- The bytes after the header. -/
  payload : List UInt8
  deriving DecidableEq

/-- `struct init_block`. -/
structure InitBlock where
  /-- The number of bytes of the block. -/
  blockSize : UInt32
  /-- `-1` in an init block. -/
  flag : Int32
  /-- The size of the buffer, in bytes. -/
  bufferSize : UInt32
  tag : Int32
  /-- The tag of the buffer to be sent before this one, `NO_TAG` if there is none. -/
  prevTag : Int32
  /-- No buffer will depend on this one. -/
  lastBlock : Bool
  deriving DecidableEq

/-- A block, as `handle_block` reads it. -/
inductive Block
  | init (i : InitBlock)
  | data (d : DataBlock)
  deriving DecidableEq

/-- The tag of the buffer that the block is about. -/
def Block.tag : Block → Int32
  | .init i => i.tag
  | .data d => d.tag

/-- The block, if it is a data block. -/
def Block.data? : Block → Option DataBlock
  | .init _ => none
  | .data d => some d

/-- The block, if it is an init block. -/
def Block.init? : Block → Option InitBlock
  | .init i => some i
  | .data _ => none

/-! ## Layout -/

section Layout

variable (o : ByteOrder)

/-- The bytes of a data block. -/
def DataBlock.bytes (d : DataBlock) : List UInt8 :=
  o.bytes32 d.blockSize ++ (o.bytes32 d.seqNumber ++ (o.bytes32 d.tag.toUInt32 ++ d.payload))

/-- The bytes of an init block, with the indeterminate bytes `pad` after its
    last field. -/
def InitBlock.bytes (pad : List UInt8) (i : InitBlock) : List UInt8 :=
  o.bytes32 i.blockSize ++ (o.bytes32 i.flag.toUInt32 ++ (o.bytes32 i.bufferSize ++
    (o.bytes32 i.tag.toUInt32 ++ (o.bytes32 i.prevTag.toUInt32 ++
      ((if i.lastBlock then 1 else 0) :: pad)))))

/-- The bytes of a block, where `pad` gives the indeterminate ones. -/
def Block.bytes (pad : InitBlock → List UInt8) : Block → List UInt8
  | .init i => i.bytes o (pad i)
  | .data d => d.bytes o

/-- The word at the offset `k` of a block. -/
def wordAt (block : List UInt8) (k : ℕ) : Option UInt32 := o.word32 (block.drop k)

/-- A block of bytes, read as `handle_block` does: through `struct init_block`
    if its second word is `-1`, and through `struct data_block` otherwise.
    `none` if a field lies beyond the end of the block. -/
def parseBlock (block : List UInt8) : Option Block := do
  let head ← wordAt o block 4
  if head.toInt32 = -1 then
    let bufferSize ← wordAt o block 8
    let tag ← wordAt o block 12
    let prevTag ← wordAt o block 16
    let lastBlock ← (block[20]? : Option UInt8)
    return .init { blockSize := ← wordAt o block 0, flag := head.toInt32, bufferSize
                   tag := tag.toInt32, prevTag := prevTag.toInt32, lastBlock := lastBlock ≠ 0 }
  else
    let tag ← wordAt o block 8
    return .data { blockSize := ← wordAt o block 0, seqNumber := head, tag := tag.toInt32
                   payload := block.drop sizeofDataBlock }

/-- The sequence number of a data block cannot be taken for the flag of an init
    block. -/
def DataBlock.Plain (d : DataBlock) : Prop := d.seqNumber.toInt32 ≠ -1

variable {o}

theorem DataBlock.plain_of_lt {d : DataBlock} (h : d.seqNumber.toNat < 2 ^ 32 - 1) : d.Plain := by
  intro he
  have hw : d.seqNumber = (-1 : Int32).toUInt32 := by rw [← he]; rfl
  rw [hw] at h
  exact absurd h (by decide)

/-- A data block is read back as it was laid out. -/
theorem parseBlock_dataBytes {d : DataBlock} (h : d.Plain) :
    parseBlock o (d.bytes o) = some (.data d) := by
  have h₀ : wordAt o (d.bytes o) 0 = some d.blockSize := by simp [wordAt, DataBlock.bytes]
  have h₁ : wordAt o (d.bytes o) 4 = some d.seqNumber := by simp [wordAt, DataBlock.bytes]
  have h₂ : wordAt o (d.bytes o) 8 = some d.tag.toUInt32 := by
    simp [wordAt, DataBlock.bytes, ByteOrder.drop_bytes32]
  have h₃ : (d.bytes o).drop sizeofDataBlock = d.payload := by
    simp [sizeofDataBlock, DataBlock.bytes, ByteOrder.drop_bytes32]
  have hne : ¬d.seqNumber.toInt32 = -1 := h
  simp [parseBlock, h₀, h₁, h₂, h₃, hne]

/-- An init block is read back as it was laid out. -/
theorem parseBlock_initBytes {i : InitBlock} (h : i.flag = -1) (pad : List UInt8) :
    parseBlock o (i.bytes o pad) = some (.init i) := by
  have h₀ : wordAt o (i.bytes o pad) 0 = some i.blockSize := by simp [wordAt, InitBlock.bytes]
  have h₁ : wordAt o (i.bytes o pad) 4 = some i.flag.toUInt32 := by
    simp [wordAt, InitBlock.bytes]
  have h₂ : wordAt o (i.bytes o pad) 8 = some i.bufferSize := by
    simp [wordAt, InitBlock.bytes, ByteOrder.drop_bytes32]
  have h₃ : wordAt o (i.bytes o pad) 12 = some i.tag.toUInt32 := by
    simp [wordAt, InitBlock.bytes, ByteOrder.drop_bytes32]
  have h₄ : wordAt o (i.bytes o pad) 16 = some i.prevTag.toUInt32 := by
    simp [wordAt, InitBlock.bytes, ByteOrder.drop_bytes32]
  have h₅ : (i.bytes o pad)[20]? = some (if i.lastBlock then 1 else 0) := by
    simp [InitBlock.bytes, List.getElem?_append]
  simp only [parseBlock, h₀, h₁, h₂, h₃, h₄, h₅, Option.bind_eq_bind, Option.bind_some]
  rw [if_pos (by simpa using h)]
  simp

end Layout

/-! ## Keys -/

/-- The key of a tag passed as an `int`: extended with its sign. -/
def intKey (tag : Int32) : UInt64 := tag.toInt64.toUInt64

/-- The key of a tag passed as a `uint32_t`: extended with zeros. -/
def wordKey (tag : UInt32) : UInt64 := tag.toUInt64

theorem intKey_injective : Function.Injective intKey := by
  intro s t h
  have h' : s.toInt64 = t.toInt64 := by
    simpa [intKey] using congrArg UInt64.toInt64 h
  exact Int32.toInt.inj (by rw [← Int32.toInt_toInt64 s, h', Int32.toInt_toInt64])

theorem wordKey_injective : Function.Injective wordKey := by
  intro s t h
  exact UInt32.toNat.inj (by simpa [wordKey] using congrArg UInt64.toNat h)

theorem toNat_intKey (t : Int32) : ((intKey t).toNat : ℤ) = t.toInt % 2 ^ 64 := by
  have h : (intKey t).toNat = t.toInt64.toBitVec.toNat := rfl
  have h' : t.toInt64.toBitVec.toInt = t.toInt := Int32.toInt_toInt64 t
  have := t.toInt64.toBitVec.isLt
  rw [h, ← h', BitVec.toInt_eq_toNat_cond]
  split <;> omega

theorem toNat_wordKey (t : Int32) : ((wordKey t.toUInt32).toNat : ℤ) = t.toInt % 2 ^ 32 := by
  have h : (wordKey t.toUInt32).toNat = t.toBitVec.toNat := UInt32.toNat_toUInt64 _
  have := t.toBitVec.isLt
  rw [h, ← Int32.toInt_toBitVec, BitVec.toInt_eq_toNat_cond]
  split <;> omega

/-- A tag passed as a `uint32_t` has the key of a tag passed as an `int` only if
    they are the same tag, and it is not negative. -/
theorem wordKey_eq_intKey_iff {s t : Int32} : wordKey s.toUInt32 = intKey t ↔ s = t ∧ 0 ≤ t := by
  have hs := s.le_toInt
  have hs' := s.toInt_lt
  have ht := t.le_toInt
  have ht' := t.toInt_lt
  rw [← UInt64.toNat_inj, ← Nat.cast_inj (R := ℤ), toNat_wordKey, toNat_intKey,
    ← Int32.toInt_inj, Int32.le_iff_toInt_le, Int32.toInt_zero]
  constructor
  · intro h
    omega
  · rintro ⟨h, h₀⟩
    omega

end Cse461.Multiplex
