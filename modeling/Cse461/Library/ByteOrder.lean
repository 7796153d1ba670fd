import Mathlib

/-!
# Words in memory

The four bytes of a 32-bit word, in the order of the machine. `word32` reads
back what `bytes32` laid out (`word32_bytes32`), whatever the order, as long as
both sides use the same.
-/

namespace Library

/-- The order in which a machine lays out the bytes of a word. -/
inductive ByteOrder
  | little
  | big
  deriving DecidableEq

namespace ByteOrder

/-- The byte of `w` of weight `256 ^ k`. -/
def byte (w : UInt32) (k : ℕ) : UInt8 := UInt8.ofNat (w.toNat / 256 ^ k)

/-- The word whose byte of weight `256 ^ k` is `bₖ`. -/
def word (b₀ b₁ b₂ b₃ : UInt8) : UInt32 :=
  UInt32.ofNat (b₀.toNat + 256 * b₁.toNat + 65536 * b₂.toNat + 16777216 * b₃.toNat)

/-- The bytes of a word, in the order of the machine. -/
def bytes32 : ByteOrder → UInt32 → List UInt8
  | little, w => [byte w 0, byte w 1, byte w 2, byte w 3]
  | big, w => [byte w 3, byte w 2, byte w 1, byte w 0]

/-- The word read from the first four bytes, if there are as many. -/
def word32 : ByteOrder → List UInt8 → Option UInt32
  | little, b₀ :: b₁ :: b₂ :: b₃ :: _ => some (word b₀ b₁ b₂ b₃)
  | big, b₃ :: b₂ :: b₁ :: b₀ :: _ => some (word b₀ b₁ b₂ b₃)
  | _, _ => none

theorem word_byte (w : UInt32) : word (byte w 0) (byte w 1) (byte w 2) (byte w 3) = w := by
  have := w.toNat_lt
  apply UInt32.toNat.inj
  simp only [word, byte, UInt32.toNat_ofNat', UInt8.toNat_ofNat']
  omega

/-- The bytes of a word are those it was made of. -/
theorem bytes32_word (b₀ b₁ b₂ b₃ : UInt8) : big.bytes32 (word b₀ b₁ b₂ b₃) = [b₃, b₂, b₁, b₀] := by
  have := b₀.toNat_lt
  have := b₁.toNat_lt
  have := b₂.toNat_lt
  have := b₃.toNat_lt
  have hbyte : ∀ (b : UInt8) (k : ℕ), (word b₀ b₁ b₂ b₃).toNat / 256 ^ k % 256 = b.toNat →
      byte (word b₀ b₁ b₂ b₃) k = b := by
    intro b k h
    apply UInt8.toNat.inj
    rw [byte, UInt8.toNat_ofNat']
    exact h
  have hword : (word b₀ b₁ b₂ b₃).toNat =
      b₀.toNat + 256 * b₁.toNat + 65536 * b₂.toNat + 16777216 * b₃.toNat := by
    rw [word, UInt32.toNat_ofNat', Nat.mod_eq_of_lt (by omega)]
  rw [bytes32, hbyte b₃ 3 (by omega), hbyte b₂ 2 (by omega), hbyte b₁ 1 (by omega),
    hbyte b₀ 0 (by omega)]

@[simp] theorem length_bytes32 (o : ByteOrder) (w : UInt32) : (o.bytes32 w).length = 4 := by
  cases o <;> rfl

/-- Skipping the bytes of a word. -/
theorem drop_bytes32 (o : ByteOrder) (w : UInt32) (bs : List UInt8) {k : ℕ} (hk : 4 ≤ k) :
    (o.bytes32 w ++ bs).drop k = bs.drop (k - 4) := by
  rw [List.drop_append, length_bytes32, List.drop_eq_nil_of_le (by simpa using hk),
    List.nil_append]

/-- A word is read back from its bytes. -/
@[simp] theorem word32_bytes32 (o : ByteOrder) (w : UInt32) (bs : List UInt8) :
    o.word32 (o.bytes32 w ++ bs) = some w := by
  cases o <;> exact congrArg some (word_byte w)

/-- There is a word as soon as there are four bytes. -/
theorem word32_eq_none_iff {o : ByteOrder} {bs : List UInt8} :
    o.word32 bs = none ↔ bs.length < 4 := by
  rcases bs with _ | ⟨b₀, _ | ⟨b₁, _ | ⟨b₂, _ | ⟨b₃, bs⟩⟩⟩⟩ <;> cases o <;> simp [word32]

/-- The bytes after the fourth do not matter. -/
theorem word32_take {o : ByteOrder} {bs : List UInt8} {n : ℕ} (hn : 4 ≤ n) :
    o.word32 (bs.take n) = o.word32 bs := by
  obtain ⟨n, rfl⟩ := Nat.exists_eq_add_of_le' hn
  rcases bs with _ | ⟨b₀, _ | ⟨b₁, _ | ⟨b₂, _ | ⟨b₃, bs⟩⟩⟩⟩ <;> cases o <;> simp [word32]

end ByteOrder

end Library
