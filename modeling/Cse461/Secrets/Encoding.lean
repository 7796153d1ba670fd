import Cse461.Secrets.Packet

/-!
# What a packet carries

A packet that `packetize` makes is read back: its header is accepted with the length,
the secret and the step it was made with and with no others, its payload starts at
index 12 and is followed by zeros, and integers that are joined by `adjoinByteArrays`
are extracted one by one.
-/

namespace Cse461.Secrets

/-- `adjoinByteArrays`. -/
def adjoinByteArrays (subarrays : List (List UInt8)) : List UInt8 := subarrays.flatten

/-- The packet carries the payload, with a header for the secret and the step. -/
structure Carries (packet payload : List UInt8) (secret step : Int32) : Prop where
  length : IsLeast {n | 4 ∣ n ∧ 12 + payload.length ≤ n} packet.length
  accepted : validHeader (Int32.ofNat payload.length) secret step packet = .ok true
  rejected : ∀ payloadLen pSecret step',
    ¬(payloadLen = Int32.ofNat payload.length ∧ pSecret = secret ∧ step' = step) →
      validHeader payloadLen pSecret step' packet = .ok false
  unchanged : ∃ n, packet.drop 12 = payload ++ List.replicate n 0
  ints : ∀ l : List Int32, payload = adjoinByteArrays (l.map toByteArray) →
    ∀ k n, l[k]? = some n → extractInt packet (12 + 4 * k) = .ok n

/-! ## Fields of the header -/

theorem parseStep_digitChar {step : List Char} {d : ℕ} (hd : d < 10)
    (hstep : step[1]? = some (Nat.digitChar d)) : parseStep step = .ok (UInt8.ofNat d) := by
  rw [parseStep, hstep]
  interval_cases d <;> rfl

/-- An id is in the last two bytes of an integer. -/
theorem toByteArray_id {id : Int32} (hid : 0 ≤ id ∧ id ≤ 999) :
    ∃ a b : UInt8, (toByteArray id).drop 2 = [a, b] ∧
      Int32.ofNat (256 * a.toNat + b.toNat) = id := by
  refine ⟨toByte (id >>> 8), toByte id, rfl, ?_⟩
  have hlow := toNat_toByte id
  have hhigh := toNat_toByte (id >>> 8)
  rw [toInt_shiftRight_eight] at hhigh
  have hzero : 0 ≤ id.toInt := Int32.le_iff_toInt_le.1 hid.1
  have hmax : id.toInt ≤ 999 := Int32.le_iff_toInt_le.1 hid.2
  apply Int32.toInt_inj.1
  rw [Int32.toInt_ofNat_of_lt (by omega)]
  omega

/-- The padding goes up to the next multiple of four. -/
theorem isLeast_padding (n : ℕ) : IsLeast {k | 4 ∣ k ∧ n ≤ k} (n + padding n) := by
  rw [padding, sizeInt]
  refine ⟨⟨by omega, by omega⟩, ?_⟩
  rintro k ⟨hdvd, hle⟩
  omega

/-- A length below `2 ^ 31` is not changed by the header, and the packet is as long as it says. -/
theorem twelve_add_le {n k : ℕ} (hn : n + k < 2 ^ 31 - 12) :
    12 + Int32.ofNat n ≤ Int32.ofNat (12 + (n + k)) := by
  have htwelve : (12 : Int32) = Int32.ofNat 12 := rfl
  rw [htwelve, ← Int32.ofNat_add, Int32.le_iff_toInt_le, Int32.toInt_ofNat_of_lt (by omega),
    Int32.toInt_ofNat_of_lt (by omega)]
  omega

/-! ## Packets -/

/-- What `packetize` makes of a payload carries it. -/
theorem packetize_carries {payload : List UInt8} {step : List Char} {d : ℕ} {id : Int32}
    (secret : Int32) (hpayload : payload.length ≤ 2 ^ 31 - 16) (hd : d < 10)
    (hstep : step[1]? = some (Nat.digitChar d)) (hid : 0 ≤ id ∧ id ≤ 999) :
    ∃ packet, packetize payload (toByteArray secret) step id = .ok packet ∧
      Carries packet payload secret (Int32.ofNat d) := by
  obtain ⟨a, b, hab, hidBytes⟩ := toByteArray_id hid
  set zeros := List.replicate (padding (sizeHeader + payload.length)) (0 : UInt8)
  set hdr := header payload.length (UInt8.ofNat d) (toByteArray secret) [a, b]
  have hhdr : hdr.length = 12 := length_header rfl rfl
  have hpacket : packetize payload (toByteArray secret) step id =
      .ok (hdr ++ (payload ++ zeros)) := by
    rw [packetize, packet, if_neg (by simp [sizeInt]), parseStep_digitChar hd hstep, hab]
    rfl
  have hpadding : padding (sizeHeader + payload.length) < 4 := Nat.mod_lt _ (by decide)
  have hzeros : zeros.length = padding (sizeHeader + payload.length) := List.length_replicate
  have hdigit : (UInt8.ofNat d).toNat = d := UInt8.toNat_ofNat_of_lt' (hd.trans (by decide))
  -- The packet is a multiple of four long, which `2 ^ 31 - 4` is the last one of.
  have hleast := isLeast_padding (sizeHeader + payload.length)
  have hlast : sizeHeader + payload.length + padding (sizeHeader + payload.length) ≤ 2 ^ 31 - 4 :=
    hleast.2 ⟨by decide, by rw [sizeHeader]; omega⟩
  have hvalid : ∀ payloadLen pSecret step', validHeader payloadLen pSecret step'
      (hdr ++ (payload ++ zeros)) = .ok (decide ((payloadLen = Int32.ofNat payload.length ∧
        12 + payloadLen ≤ Int32.ofNat (12 + (payload.length + zeros.length))) ∧
          pSecret = secret ∧ step' = Int32.ofNat d ∧ 0 ≤ id ∧ id ≤ 999)) := by
    intro payloadLen pSecret step'
    rw [validHeader_header, hidBytes, hdigit, List.length_append]
  refine ⟨hdr ++ (payload ++ zeros), hpacket, ?_, ?_, ?_, ?_, ?_⟩
  · rw [List.length_append, List.length_append, hhdr, hzeros, ← Nat.add_assoc]
    exact hleast
  · rw [hvalid]
    refine congrArg Except.ok (decide_eq_true ⟨⟨rfl, twelve_add_le ?_⟩, rfl, rfl, hid⟩)
    rw [sizeHeader] at *
    omega
  · intro payloadLen pSecret step' hother
    rw [hvalid]
    refine congrArg Except.ok (decide_eq_false ?_)
    rintro ⟨⟨hlen, -⟩, hsecret, hstep', -⟩
    exact hother ⟨hlen, hsecret, hstep'⟩
  · exact ⟨_, List.drop_left' hhdr⟩
  · intro l hl k n hk
    have hints : extractInt (hdr ++ (l.flatMap toByteArray ++ zeros)) (sizeHeader + sizeInt * k) =
        .ok n := extractInt_payload hhdr hk
    rwa [List.flatMap_def, ← adjoinByteArrays, ← hl] at hints

theorem packetize_carries_negative : ∃ packet,
    packetize (toByteArray (-1) ++ toByteArray 7) (toByteArray (-2)) ['a', '2'] 472 =
      .ok packet ∧ Carries packet (toByteArray (-1) ++ toByteArray 7) (-2) 2 :=
  packetize_carries (-2) (by decide) (by decide) rfl ⟨by decide, by decide⟩

end Cse461.Secrets
