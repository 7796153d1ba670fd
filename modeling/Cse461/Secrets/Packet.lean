import Cse461.Library.ByteOrder

/-!
# Packets

`PacketUtil.java` and `Validator.java`: integers are laid out in big-endian order,
and a payload is sent after a header of its length, a secret, a step and an id,
padded to a multiple of four bytes.

A Java `byte` is a `UInt8` here, which is what `& 0xFF` makes of it, and an array a
list of them. The client and the server have a `PacketUtil` each, which differ in
the id only.

What `packetize` makes is read back by `extractInt`, and accepted by `validHeader`.
-/

namespace Cse461.Secrets

open Library

/-- `SIZE_HEADER`. -/
def sizeHeader : ℕ := 12

/-- `SIZE_INT`. -/
def sizeInt : ℕ := 4

/-- What a method throws. -/
inductive JavaException
  | illegalArgument
  | illegalState
  | numberFormat
  | stringIndexOutOfBounds
  | arrayIndexOutOfBounds
  | negativeArraySize
  | socketTimeout
  | connect
  deriving DecidableEq

/-! ## Integers -/

/-- `(int) b & 0xFF`. -/
def unsigned (b : UInt8) : Int32 := b.toUInt32.toInt32

/-- `(byte) n`. -/
def toByte (n : Int32) : UInt8 := n.toUInt32.toUInt8

/-- `extractInt`. -/
def extractInt (data : List UInt8) (start : ℕ) : Except JavaException Int32 :=
  if data.length < start + sizeInt then
    throw .illegalArgument
  else
    return ((data.drop start).take sizeInt).foldl (fun n b => (n <<< 8) + unsigned b) 0

/-- The loop of `toByteArray`, which fills in the last byte first. -/
def lastBytes : ℕ → Int32 → List UInt8
  | 0, _ => []
  | k + 1, n => lastBytes k (n >>> 8) ++ [toByte n]

/-- `toByteArray` of an `int`. -/
def toByteArray (n : Int32) : List UInt8 := lastBytes sizeInt n

/-! ## Packets -/

/-- `Integer.parseInt("" + step.charAt(1))` of a step in ASCII, as all steps of the program are:
    `parseInt` takes other digits of Unicode, too. -/
def parseStep (step : List Char) : Except JavaException UInt8 :=
  match step[1]? with
  | some c => if c.isDigit then return UInt8.ofNat (c.toNat - '0'.toNat) else throw .numberFormat
  | none => throw .stringIndexOutOfBounds

/-- The bytes `(SIZE_INT - length % SIZE_INT) % SIZE_INT` that are missing of a
    multiple of four. -/
def padding (length : ℕ) : ℕ := (sizeInt - length % sizeInt) % sizeInt

/-- The header that `insertHeader` makes, given its last two bytes. -/
def header (trueLength : ℕ) (digit : UInt8) (prevSecret idBytes : List UInt8) : List UInt8 :=
  toByteArray (Int32.ofNat trueLength) ++ (prevSecret ++ ([0, digit] ++ idBytes))

/-- `packetize`, given the last two bytes of the header. -/
def packet (idBytes payload prevSecret : List UInt8) (step : List Char) :
    Except JavaException (List UInt8) :=
  if prevSecret.length ≠ sizeInt then
    throw .illegalArgument
  else do
    let digit ← parseStep step
    return header payload.length digit prevSecret idBytes ++
      (payload ++ List.replicate (padding (sizeHeader + payload.length)) 0)

/-- `packetize` of the server. -/
def packetize (payload prevSecret : List UInt8) (step : List Char) (id : Int32) :
    Except JavaException (List UInt8) :=
  packet ((toByteArray id).drop 2) payload prevSecret step

/-- `packetize` of the client. -/
def packetizeClient (payload prevSecret : List UInt8) (step : List Char) :
    Except JavaException (List UInt8) :=
  packet [0x1, 0xD8] payload prevSecret step

/-- `validHeader`. -/
def validHeader (payloadLen pSecret step : Int32) (received : List UInt8) :
    Except JavaException Bool :=
  if received.length < sizeHeader then
    return false
  else do
    let passLen := payloadLen = (← extractInt received 0) ∧
      12 + payloadLen ≤ Int32.ofNat received.length
    let passSecret := pSecret = (← extractInt received sizeInt)
    let passStep := step = (← extractInt ([0, 0] ++ (received.drop (sizeInt * 2)).take 2) 0)
    let id ← extractInt ([0, 0] ++ (received.drop (sizeInt * 2 + 2)).take 2) 0
    let passId := 0 ≤ id ∧ id ≤ 999
    return passLen ∧ passSecret ∧ passStep ∧ passId

/-! ## Integers are read back -/

theorem toNat_toUInt32 (n : Int32) : (n.toUInt32.toNat : ℤ) = n.toInt % 2 ^ 32 := by
  have h : n.toUInt32.toNat = n.toBitVec.toNat := rfl
  have := n.toBitVec.isLt
  rw [h, ← Int32.toInt_toBitVec, BitVec.toInt_eq_toNat_cond]
  split <;> omega

theorem toInt_shiftRight_eight (n : Int32) : (n >>> 8).toInt = n.toInt / 256 := by
  have h : (n >>> 8).toInt = (n.toBitVec.sshiftRight 8).toInt := rfl
  rw [h, BitVec.toInt_sshiftRight, Int.shiftRight_eq_div_pow]
  rfl

theorem toNat_toByte (n : Int32) : ((toByte n).toNat : ℤ) = n.toInt % 256 := by
  have h := toNat_toUInt32 n
  rw [toByte, UInt32.toNat_toUInt8]
  omega

/-- The loop lays out an integer in big-endian order. -/
theorem toByteArray_eq (n : Int32) : toByteArray n = ByteOrder.big.bytes32 n.toUInt32 := by
  have hbyte : ∀ (m : Int32) (k : ℕ), m.toInt % 256 = n.toInt / 256 ^ k % 256 → k ≤ 3 →
      toByte m = ByteOrder.byte n.toUInt32 k := by
    intro m k h hk
    have hn := toNat_toUInt32 n
    have hm := toNat_toByte m
    apply UInt8.toNat.inj
    rw [ByteOrder.byte, UInt8.toNat_ofNat']
    interval_cases k <;> omega
  have h₁ := toInt_shiftRight_eight n
  have h₂ := toInt_shiftRight_eight (n >>> 8)
  have h₃ := toInt_shiftRight_eight (n >>> 8 >>> 8)
  change [toByte (n >>> 8 >>> 8 >>> 8), toByte (n >>> 8 >>> 8), toByte (n >>> 8), toByte n] = _
  rw [hbyte n 0 (by omega) (by omega), hbyte (n >>> 8) 1 (by omega) (by omega),
    hbyte (n >>> 8 >>> 8) 2 (by omega) (by omega),
    hbyte (n >>> 8 >>> 8 >>> 8) 3 (by omega) (by omega)]
  rfl

@[simp] theorem length_toByteArray (n : Int32) : (toByteArray n).length = 4 := rfl

/-- A round of the loop of `extractInt`. -/
theorem toNat_shiftLeft_add (n : Int32) (b : UInt8) :
    ((n <<< 8) + unsigned b).toUInt32.toNat = (256 * n.toUInt32.toNat + b.toNat) % 2 ^ 32 := by
  have h : (n <<< 8).toUInt32.toNat = (n.toBitVec <<< 8).toNat := rfl
  have hb : (unsigned b).toUInt32.toNat = b.toNat := rfl
  have hn : n.toUInt32.toNat = n.toBitVec.toNat := rfl
  rw [Int32.toUInt32_add, UInt32.toNat_add, h, hb, BitVec.toNat_shiftLeft, Nat.shiftLeft_eq, hn]
  omega

theorem foldl_eq_word (b₃ b₂ b₁ b₀ : UInt8) :
    [b₃, b₂, b₁, b₀].foldl (fun (n : Int32) b => (n <<< 8) + unsigned b) 0 =
      (ByteOrder.word b₀ b₁ b₂ b₃).toInt32 := by
  have := b₀.toNat_lt
  have := b₁.toNat_lt
  have := b₂.toNat_lt
  have := b₃.toNat_lt
  have hzero : (0 : Int32).toUInt32.toNat = 0 := rfl
  have hword : ([b₃, b₂, b₁, b₀].foldl (fun (n : Int32) b => (n <<< 8) + unsigned b) 0).toUInt32 =
      ByteOrder.word b₀ b₁ b₂ b₃ := by
    apply UInt32.toNat.inj
    simp only [List.foldl_cons, List.foldl_nil]
    rw [toNat_shiftLeft_add, toNat_shiftLeft_add, toNat_shiftLeft_add, toNat_shiftLeft_add, hzero,
      ByteOrder.word, UInt32.toNat_ofNat']
    omega
  rw [← hword]
  simp

/-- Four bytes are read in big-endian order. -/
theorem extractInt_of_word32 {data : List UInt8} {start : ℕ} {w : UInt32}
    (h : ByteOrder.big.word32 (data.drop start) = some w) :
    extractInt data start = .ok w.toInt32 := by
  have hlen : ¬data.length < start + sizeInt := by
    intro hlt
    have hshort : (data.drop start).length < 4 := by
      rw [List.length_drop]
      rw [sizeInt] at hlt
      omega
    rw [ByteOrder.word32_eq_none_iff.2 hshort] at h
    exact absurd h (by simp)
  rw [extractInt, if_neg hlen]
  match hd : data.drop start with
  | b₃ :: b₂ :: b₁ :: b₀ :: rest =>
    rw [hd] at h
    obtain rfl := Option.some.inj h
    exact congrArg Except.ok (foldl_eq_word b₃ b₂ b₁ b₀)
  | [] | [_] | [_, _] | [_, _, _] =>
    rw [hd] at h
    exact absurd h (by simp [ByteOrder.word32])

/-- An integer is read back where it is laid out. -/
theorem extractInt_toByteArray {pre post : List UInt8} {start : ℕ} (hstart : pre.length = start)
    (n : Int32) : extractInt (pre ++ (toByteArray n ++ post)) start = .ok n := by
  have hword : ByteOrder.big.word32 ((pre ++ (toByteArray n ++ post)).drop start) =
      some n.toUInt32 := by
    rw [← hstart, List.drop_left, toByteArray_eq, ByteOrder.word32_bytes32]
  rw [extractInt_of_word32 hword]
  simp

theorem extractInt_append {pre l : List UInt8} {start k : ℕ} (h : start = pre.length + k) :
    extractInt (pre ++ l) start = extractInt l k := by
  rw [extractInt, extractInt, h, List.length_append, ← List.drop_drop, List.drop_left]
  congr 1
  exact propext ⟨fun _ => by omega, fun _ => by omega⟩

/-- An integer is read back from the integers of a payload. -/
theorem extractInt_payload {hdr post : List UInt8} {l : List Int32} {k : ℕ} {n : Int32}
    (hhdr : hdr.length = sizeHeader) (hk : l[k]? = some n) :
    extractInt (hdr ++ (l.flatMap toByteArray ++ post)) (sizeHeader + sizeInt * k) = .ok n := by
  rw [extractInt_append (congrArg (· + sizeInt * k) hhdr.symm)]
  induction l generalizing k with
  | nil => cases hk
  | cons m l ih =>
    rw [List.flatMap_cons, List.append_assoc]
    cases k with
    | zero =>
      obtain rfl := Option.some.inj hk
      rw [← List.nil_append (toByteArray m ++ _)]
      exact extractInt_toByteArray rfl m
    | succ k =>
      rw [extractInt_append (k := sizeInt * k) (by rw [length_toByteArray, sizeInt]; omega)]
      exact ih hk

/-- Two bytes, as the fields of a header. -/
theorem extractInt_two (a b : UInt8) :
    extractInt ([0, 0] ++ [a, b]) 0 = .ok (Int32.ofNat (256 * a.toNat + b.toNat)) := by
  have hword : ByteOrder.word b a 0 0 = UInt32.ofNat (256 * a.toNat + b.toNat) := by
    simp [ByteOrder.word, Nat.add_comm]
  rw [extractInt_of_word32 (w := ByteOrder.word b a 0 0) rfl, hword]
  rfl

/-! ## Packets are accepted -/

section

variable {trueLength : ℕ} {digit a b : UInt8} {secret : Int32} {body : List UInt8}

theorem length_header {prevSecret idBytes : List UInt8} (hsecret : prevSecret.length = 4)
    (hid : idBytes.length = 2) : (header trueLength digit prevSecret idBytes).length = 12 := by
  simp [header, hsecret, hid]

/-- What `validHeader` looks at in a packet. -/
theorem validHeader_header (payloadLen pSecret step : Int32) :
    validHeader payloadLen pSecret step
        (header trueLength digit (toByteArray secret) [a, b] ++ body) =
      .ok (decide ((payloadLen = Int32.ofNat trueLength ∧
          12 + payloadLen ≤ Int32.ofNat (12 + body.length)) ∧ pSecret = secret ∧
        step = Int32.ofNat digit.toNat ∧ 0 ≤ Int32.ofNat (256 * a.toNat + b.toNat) ∧
          Int32.ofNat (256 * a.toNat + b.toNat) ≤ 999)) := by
  have hlen : (header trueLength digit (toByteArray secret) [a, b] ++ body).length =
      12 + body.length := by
    rw [List.length_append, length_header rfl rfl]
  have hlength : extractInt (header trueLength digit (toByteArray secret) [a, b] ++ body) 0 =
      .ok (Int32.ofNat trueLength) := by
    rw [header, List.append_assoc, ← List.nil_append (toByteArray _ ++ _)]
    exact extractInt_toByteArray rfl _
  have hsecret : extractInt (header trueLength digit (toByteArray secret) [a, b] ++ body) sizeInt =
      .ok secret := by
    rw [header, List.append_assoc, List.append_assoc]
    exact extractInt_toByteArray rfl secret
  have hrest : (header trueLength digit (toByteArray secret) [a, b] ++ body).drop (sizeInt * 2) =
      [0, digit] ++ ([a, b] ++ body) := by
    rw [header, List.append_assoc, List.append_assoc, List.append_assoc, ← List.append_assoc]
    exact List.drop_left' rfl
  have hdigit : extractInt ([0, 0] ++ ([0, digit] ++ ([a, b] ++ body)).take 2) 0 =
      .ok (Int32.ofNat digit.toNat) := by
    simpa using extractInt_two 0 digit
  have hid : extractInt ([0, 0] ++ (([0, digit] ++ ([a, b] ++ body)).drop 2).take 2) 0 =
      .ok (Int32.ofNat (256 * a.toNat + b.toNat)) := by
    simpa using extractInt_two a b
  have hnot : ¬12 + body.length < sizeHeader := by
    rw [sizeHeader]
    omega
  rw [validHeader, hlen, if_neg hnot, hlength, hsecret, ← List.drop_drop, hrest, hdigit, hid]
  simp only [bind, Except.bind, pure, Except.pure]

/-! ## What is accepted -/

/-- Any four bytes are those of an integer. -/
theorem exists_extractInt {data : List UInt8} {start : ℕ} (h : start + sizeInt ≤ data.length) :
    ∃ n, extractInt data start = .ok n ∧ (data.drop start).take sizeInt = toByteArray n := by
  have hlength : sizeInt ≤ (data.drop start).length := by
    rw [List.length_drop]
    omega
  match hd : data.drop start with
  | b₃ :: b₂ :: b₁ :: b₀ :: rest =>
    refine ⟨(ByteOrder.word b₀ b₁ b₂ b₃).toInt32, extractInt_of_word32 (by rw [hd]; rfl), ?_⟩
    rw [toByteArray_eq, UInt32.toUInt32_toInt32, ByteOrder.bytes32_word]
    rfl
  | [] | [_] | [_, _] | [_, _, _] =>
    rw [hd] at hlength
    exact absurd hlength (by simp [sizeInt])

theorem exists_two {l : List UInt8} {k : ℕ} (h : k + 2 ≤ l.length) :
    ∃ a b, (l.drop k).take 2 = [a, b] := by
  refine List.length_eq_two.1 ?_
  rw [List.length_take, List.length_drop]
  omega

/-- Two bytes are the last ones of an integer that is not negative. -/
theorem drop_toByteArray (a b : UInt8) :
    (toByteArray (Int32.ofNat (256 * a.toNat + b.toNat))).drop 2 = [a, b] := by
  have hword : ByteOrder.word b a 0 0 = UInt32.ofNat (256 * a.toNat + b.toNat) := by
    simp [ByteOrder.word, Nat.add_comm]
  have hbytes := ByteOrder.bytes32_word b a 0 0
  rw [hword] at hbytes
  rw [toByteArray_eq]
  exact congrArg (List.drop 2) hbytes

/-- What `validHeader` accepts starts with a header of the length, the secret and the step. -/
theorem take_of_validHeader {received : List UInt8}
    (h : validHeader (Int32.ofNat trueLength) secret (Int32.ofNat digit.toNat) received =
      .ok true) : ∃ id, (0 ≤ id ∧ id ≤ 999) ∧ received.take sizeHeader =
      header trueLength digit (toByteArray secret) ((toByteArray id).drop 2) := by
  rw [validHeader] at h
  split at h
  · cases h
  · rename_i hlength
    rw [sizeHeader, Nat.not_lt] at hlength
    have hlen : 0 + sizeInt ≤ received.length := hlength.trans' (by decide)
    have hsec : sizeInt + sizeInt ≤ received.length := hlength.trans' (by decide)
    obtain ⟨n, hn, hlenBytes⟩ := exists_extractInt hlen
    obtain ⟨m, hm, hsecBytes⟩ := exists_extractInt hsec
    obtain ⟨a, b, hab⟩ := exists_two (l := received) (k := sizeInt * 2) (hlength.trans' (by decide))
    obtain ⟨c, d, hcd⟩ :=
      exists_two (l := received) (k := sizeInt * 2 + 2) (hlength.trans' (by decide))
    rw [hn, hm, hab, hcd, extractInt_two, extractInt_two] at h
    have hall := of_decide_eq_true (Except.ok.inj h)
    obtain ⟨⟨rfl, -⟩, rfl, hstep, hid⟩ := hall
    refine ⟨_, hid, ?_⟩
    have := a.toNat_lt
    have := b.toNat_lt
    have := digit.toNat_lt
    have htoNat : digit.toNat = 256 * a.toNat + b.toNat := by
      have hint := congrArg Int32.toInt hstep
      rw [Int32.toInt_ofNat_of_lt (by omega), Int32.toInt_ofNat_of_lt (by omega)] at hint
      omega
    obtain rfl : a = 0 := UInt8.toNat.inj (by rw [UInt8.toNat_zero]; omega)
    obtain rfl : b = digit := UInt8.toNat.inj (by rw [UInt8.toNat_zero] at htoNat; omega)
    have htwelve : sizeHeader = sizeInt + (sizeInt + (2 + 2)) := rfl
    rw [drop_toByteArray, header, ← hlenBytes, ← hsecBytes, ← hab, ← hcd, htwelve, List.take_add,
      List.take_add, List.take_add, List.drop_drop, List.drop_drop]
    rfl

end

end Cse461.Secrets
