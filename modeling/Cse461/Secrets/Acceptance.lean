import Cse461.Secrets.Encoding
import Cse461.Secrets.StepB

/-!
# What step B accepts

`stepB` of `ServerThread.java` against any datagrams. Each is received into the same buffer, and
checked there: how long it is does not matter.

* The check of the payload leaves out the last byte of the buffer, which is padding or not.
* What a datagram is too short for is what an earlier one left.

So a datagram that passes need not carry a whole packet (`acceptsWhole_iff`).
-/

namespace Cse461.Secrets.StepB

open Library

section

variable (P : Params)

/-- The server's loop, and any datagrams. -/
def serverLoop : System State (List UInt8 × Bool) where
  init s := s = start P
  step s a := if s.server = .loop ∧ s.i < P.num1 then some (s.received P a.1 a.2) else none

/-- A datagram passes the checks. -/
def State.Passes (s : State) (d : List UInt8) : Prop :=
  checkPacket P s.i (receiveInto s.bufIn d) = .ok ()

/-- The server is at position `i` of its loop. -/
structure At (i : ℕ) (s : State) : Prop where
  reachable : (serverLoop P).Reachable s
  server : s.server = .loop
  i : s.i = i

/-- The header and the number of packet `i`. -/
def front (i : ℕ) (id : Int32) : List UInt8 :=
  header (payloadSize P) 1 (toByteArray P.secretA) ((toByteArray id).drop 2) ++
    toByteArray (Int32.ofNat i)

/-- The datagram carries packet `i`: the header, the number and `len1` zeros. -/
def Whole (i : ℕ) (d : List UInt8) : Prop :=
  ∃ id, (0 ≤ id ∧ id ≤ 999) ∧ ∃ rest, d = front P i id ++ (List.replicate P.len1 0 ++ rest)

/-- A datagram passes only if it carries the packet, and this does not depend on what the server
    received before. -/
structure AcceptsWhole (i : ℕ) (d : List UInt8) : Prop where
  whole : ∀ s, At P i s → s.Passes P d → Whole P i d
  independent : ∀ s s', At P i s → At P i s' → (s.Passes P d ↔ s'.Passes P d)

/-- The header and the number of packet `i`, and zeros up to the last byte. -/
structure Checked (i : ℕ) (bufIn : List UInt8) : Prop where
  front : ∃ id, (0 ≤ id ∧ id ≤ 999) ∧ bufIn.take (sizeHeader + sizeInt) = front P i id
  zeros : ∀ j, sizeHeader + sizeInt ≤ j → j + 1 < bufIn.length → bufIn[j]? = some 0

/-- The datagram is one that passes if the rest of the buffer is as it should be. -/
def Completes (i : ℕ) (d : List UInt8) : Prop :=
  ∃ bufIn, bufIn.length = packetSize P ∧ Checked P i bufIn ∧ d.take (packetSize P) <+: bufIn

end

section

variable {P : Params} {i : ℕ} {d bufIn : List UInt8} {s s' : State}

/-! ## The checks -/

theorem length_front (id : Int32) : (front P i id).length = sizeHeader + sizeInt := rfl

theorem all_dropLast_iff {l : List UInt8} :
    l.dropLast.all (· = 0) = true ↔ ∀ j, j + 1 < l.length → l[j]? = some 0 := by
  rw [List.all_eq_true]
  constructor
  · intro h j hj
    have hj' : j < l.dropLast.length := by
      rw [List.length_dropLast]
      omega
    have hzero := of_decide_eq_true (h _ (List.getElem_mem hj'))
    rw [List.getElem_dropLast] at hzero
    rw [List.getElem?_eq_getElem (by omega), hzero]
  · intro h b hb
    obtain ⟨j, hj, rfl⟩ := List.getElem_of_mem hb
    rw [List.length_dropLast] at hj
    have hzero := h j (by omega)
    rw [List.getElem?_eq_getElem (by omega)] at hzero
    rw [List.getElem_dropLast]
    exact decide_eq_true (Option.some.inj hzero)

theorem checkPacket_eq_ok_iff : checkPacket P i bufIn = .ok () ↔
    validHeader (Int32.ofNat (payloadSize P)) P.secretA 1 bufIn = .ok true ∧
      (bufIn.drop (sizeHeader + sizeInt)).dropLast.all (· = 0) = true ∧
        extractInt bufIn sizeHeader = .ok (Int32.ofNat i) := by
  rw [checkPacket]
  cases validHeader (Int32.ofNat (payloadSize P)) P.secretA 1 bufIn with
  | error e => simp [bind, Except.bind]
  | ok valid =>
    cases valid with
    | false => simp [bind, Except.bind, throw, throwThe, MonadExceptOf.throw]
    | true =>
      cases extractInt bufIn sizeHeader with
      | error e =>
        by_cases hzeros : (bufIn.drop (sizeHeader + sizeInt)).dropLast.all (· = 0) = true
        · simp [bind, Except.bind, hzeros]
        · simp [bind, Except.bind, hzeros, throw, throwThe, MonadExceptOf.throw]
      | ok seqNum =>
        by_cases hzeros : (bufIn.drop (sizeHeader + sizeInt)).dropLast.all (· = 0) = true
        · by_cases hseqNum : seqNum = Int32.ofNat i
          · simp [bind, Except.bind, hzeros, hseqNum, pure, Except.pure]
          · simp [bind, Except.bind, hzeros, hseqNum, throw, throwThe, MonadExceptOf.throw]
        · simp [bind, Except.bind, hzeros, throw, throwThe, MonadExceptOf.throw]

/-- What the checks look at. -/
theorem checked_iff (hlength : bufIn.length = packetSize P) :
    checkPacket P i bufIn = .ok () ↔ Checked P i bufIn := by
  have hsize : sizeHeader + sizeInt ≤ bufIn.length := by
    rw [hlength, packetSize, payloadSize]
    omega
  have hzeros : (bufIn.drop (sizeHeader + sizeInt)).dropLast.all (· = 0) = true ↔
      ∀ j, sizeHeader + sizeInt ≤ j → j + 1 < bufIn.length → bufIn[j]? = some 0 := by
    rw [all_dropLast_iff, List.length_drop]
    constructor
    · intro h j hle hj
      have hzero := h (j - (sizeHeader + sizeInt)) (by omega)
      rwa [List.getElem?_drop, Nat.add_sub_cancel' hle] at hzero
    · intro h j hj
      rw [List.getElem?_drop]
      exact h _ (Nat.le_add_right _ _) (by omega)
  have hsplit : bufIn.take (sizeHeader + sizeInt) =
      bufIn.take sizeHeader ++ (bufIn.drop sizeHeader).take sizeInt := List.take_add
  rw [checkPacket_eq_ok_iff, hzeros]
  constructor
  · rintro ⟨hvalid, hzero, hseqNum⟩
    have hone : (1 : Int32) = Int32.ofNat (1 : UInt8).toNat := rfl
    rw [hone] at hvalid
    obtain ⟨id, hid, hheader⟩ := take_of_validHeader hvalid
    obtain ⟨n, hn, hbytes⟩ := exists_extractInt hsize
    obtain rfl := Except.ok.inj (hn.symm.trans hseqNum)
    refine ⟨⟨id, hid, ?_⟩, hzero⟩
    rw [hsplit, hheader, hbytes, front]
  · rintro ⟨⟨id, hid, hfront⟩, hzero⟩
    obtain ⟨a, b, hab, hidBytes⟩ := toByteArray_id hid
    have hbufIn : bufIn = header (payloadSize P) 1 (toByteArray P.secretA) [a, b] ++
        (toByteArray (Int32.ofNat i) ++ bufIn.drop (sizeHeader + sizeInt)) := by
      rw [← List.append_assoc, ← hab]
      exact (List.take_append_drop _ _).symm.trans (congrArg (· ++ _) hfront)
    refine ⟨?_, hzero, ?_⟩
    · have hbody : (toByteArray (Int32.ofNat i) ++ bufIn.drop (sizeHeader + sizeInt)).length =
          payloadSize P + padding (sizeHeader + payloadSize P) := by
        rw [List.length_append, length_toByteArray, List.length_drop, hlength, packetSize,
          payloadSize, sizeInt]
        omega
      rw [hbufIn, validHeader_header, hbody, hidBytes]
      exact congrArg Except.ok (decide_eq_true ⟨⟨rfl, length_fits P⟩, rfl, rfl, hid⟩)
    · rw [hbufIn]
      exact extractInt_toByteArray (length_header rfl rfl) _

/-! ## Datagrams -/

theorem length_received (bufIn d : List UInt8) : (receiveInto bufIn d).length = bufIn.length := by
  rw [receiveInto, List.length_append, List.length_take, List.length_drop]
  omega

theorem getElem?_receiveInto {j : ℕ} (hj : j < bufIn.length) :
    (receiveInto bufIn d)[j]? = if j < d.length then d[j]? else bufIn[j]? := by
  rw [receiveInto, List.getElem?_append, List.length_take]
  split
  · rw [if_pos (by omega), List.getElem?_take_of_lt hj]
  · rw [if_neg (by omega), List.getElem?_drop]
    congr 1
    omega

/-- A datagram that carries a packet, byte for byte. -/
theorem whole_iff : Whole P i d ↔ sizeHeader + sizeInt + P.len1 ≤ d.length ∧
    (∃ id, (0 ≤ id ∧ id ≤ 999) ∧ d.take (sizeHeader + sizeInt) = front P i id) ∧
      ∀ j, sizeHeader + sizeInt ≤ j → j < sizeHeader + sizeInt + P.len1 → d[j]? = some 0 := by
  constructor
  · rintro ⟨id, hid, rest, rfl⟩
    refine ⟨?_, ⟨id, hid, List.take_left' (length_front id)⟩, fun j hle hj => ?_⟩
    · rw [List.length_append, List.length_append, List.length_replicate, length_front]
      omega
    · rw [List.getElem?_append_right hle, length_front, List.getElem?_append_left,
        List.getElem?_replicate, if_pos (by omega)]
      rw [List.length_replicate]
      omega
  · rintro ⟨hlength, ⟨id, hid, hfront⟩, hzeros⟩
    refine ⟨id, hid, d.drop (sizeHeader + sizeInt + P.len1), ?_⟩
    have hpayload : (d.drop (sizeHeader + sizeInt)).take P.len1 = List.replicate P.len1 0 := by
      refine List.ext_getElem? fun j => ?_
      rw [List.getElem?_take, List.getElem?_drop, List.getElem?_replicate]
      split
      · exact hzeros _ (by omega) (by omega)
      · rfl
    rw [← hfront, ← hpayload, ← List.drop_drop (l := d) (i := P.len1), List.take_append_drop,
      List.take_append_drop]

/-! ## Runs -/

theorem received_bufIn (s : State) (d : List UInt8) (drop : Bool) :
    (s.received P d drop).bufIn = receiveInto s.bufIn d := by
  obtain ⟨ack, hack⟩ := acknowledgement_eq_ok (P := P) s.i
  simp only [State.received, hack, State.sendToClient]
  split
  · rfl
  · split <;> rfl

/-- A datagram that passes is acknowledged or not. -/
theorem received_of_passes (h : s.Passes P d) (drop : Bool) :
    (s.received P d drop).server = s.server ∧ (s.received P d drop).i =
      if drop ∨ (s.i = P.num1 - 1 ∧ ¬s.haveFailed) then s.i else s.i + 1 := by
  obtain ⟨ack, hack⟩ := acknowledgement_eq_ok (P := P) s.i
  rw [State.Passes] at h
  simp only [State.received, h, hack, State.sendToClient, if_true]
  split <;> exact ⟨rfl, rfl⟩

/-- At one that does not, the server throws. -/
theorem passes_of_received {drop : Bool} (h : (s.received P d drop).server = .loop) :
    s.Passes P d := by
  rw [State.Passes]
  simp only [State.received] at h
  split at h
  · cases h
  · assumption

theorem serverLoop_step_eq_some {a : List UInt8 × Bool} : (serverLoop P).step s a = some s' ↔
    (s.server = .loop ∧ s.i < P.num1) ∧ s.received P a.1 a.2 = s' := by
  simp only [serverLoop]
  split
  · simp [*]
  · simp [*]

/-- The bytes of the buffer that are checked are zeros as long as the server is in its loop. -/
structure Cleared (P : Params) (s : State) : Prop where
  length : s.bufIn.length = packetSize P
  zeros : s.server = .loop →
    ∀ j, sizeHeader + sizeInt ≤ j → j + 1 < packetSize P → s.bufIn[j]? = some 0

theorem Cleared.received (h : Cleared P s) (d : List UInt8) (drop : Bool) :
    Cleared P (s.received P d drop) := by
  have hlength : (receiveInto s.bufIn d).length = packetSize P :=
    (length_received s.bufIn d).trans h.length
  refine ⟨by rw [received_bufIn, hlength], fun hserver => ?_⟩
  rw [received_bufIn, ← hlength]
  exact ((checked_iff hlength).1 (passes_of_received hserver)).zeros

theorem At.cleared (h : At P i s) : Cleared P s := by
  refine h.reachable.invariant (I := Cleared P) ?_ ?_
  · rintro s rfl
    refine ⟨List.length_replicate, fun _ j _ hj => ?_⟩
    rw [start, List.getElem?_replicate, if_pos (by omega)]
  · intro s a s' hs hstep
    obtain ⟨-, rfl⟩ := serverLoop_step_eq_some.1 hstep
    exact hs.received a.1 a.2

theorem At.passes_iff (h : At P i s) : s.Passes P d ↔ Checked P i (receiveInto s.bufIn d) := by
  rw [State.Passes, h.i, checked_iff ((length_received _ d).trans h.cleared.length)]

/-- The server is brought to any position by the packets of the client. -/
theorem exists_at (hi : i < P.num1) : ∃ s, At P i s := by
  induction i with
  | zero => exact ⟨start P, .init rfl, rfl, rfl⟩
  | succ i ih =>
    obtain ⟨s, h⟩ := ih (Nat.lt_of_succ_lt hi)
    obtain ⟨d, hd, hlength⟩ := clientPacket_eq_ok (P := P) i
    have hnum := P.num1_lt
    have hpasses : s.Passes P d := by
      rw [State.Passes, h.i, receiveInto_of_length_eq (hlength.trans h.cleared.length.symm),
        checkPacket_clientPacket (by omega) (by omega) hd, if_pos rfl]
    obtain ⟨hserver, hnext⟩ := received_of_passes hpasses false
    refine ⟨s.received P d false, h.reachable.step (a := (d, false)) ?_, hserver.trans h.server, ?_⟩
    · exact serverLoop_step_eq_some.2 ⟨⟨h.server, h.i ▸ Nat.lt_of_succ_lt hi⟩, rfl⟩
    · rw [hnext, h.i, if_neg]
      rintro (hfalse | ⟨hlast, -⟩)
      · cases hfalse
      · omega

/-- What passes at a position may be in the buffer there, if the server drops the
    acknowledgement. -/
theorem exists_at_bufIn (hi : i < P.num1) (hlength : bufIn.length = packetSize P)
    (hchecked : Checked P i bufIn) : ∃ s, At P i s ∧ s.bufIn = bufIn := by
  obtain ⟨s, h⟩ := exists_at hi
  have hreceived : receiveInto s.bufIn bufIn = bufIn :=
    receiveInto_of_length_eq (hlength.trans h.cleared.length.symm)
  have hpasses : s.Passes P bufIn := by
    rwa [h.passes_iff, hreceived]
  obtain ⟨hserver, hsame⟩ := received_of_passes hpasses true
  refine ⟨s.received P bufIn true, ⟨h.reachable.step (a := (bufIn, true)) ?_,
    hserver.trans h.server, ?_⟩, (received_bufIn ..).trans hreceived⟩
  · exact serverLoop_step_eq_some.2 ⟨⟨h.server, h.i ▸ hi⟩, rfl⟩
  · rw [hsame, h.i, if_pos (.inl rfl)]

/-! ## What is accepted -/

theorem take_receiveInto {k : ℕ} (hbufIn : k ≤ bufIn.length) (hd : k ≤ d.length) :
    (receiveInto bufIn d).take k = d.take k := by
  rw [receiveInto, List.take_append_of_le_length (by rw [List.length_take]; omega), List.take_take,
    min_eq_left hbufIn]

/-- A datagram that the buffer starts with changes nothing. -/
theorem receiveInto_of_prefix (h : d.take bufIn.length <+: bufIn) :
    receiveInto bufIn d = bufIn := by
  obtain ⟨rest, hrest⟩ := h
  rcases le_total d.length bufIn.length with hle | hle
  · rw [List.take_of_length_le hle] at hrest
    rw [receiveInto, List.take_of_length_le hle, ← hrest, List.drop_left]
  · have hnil : rest = [] := by
      have hlength := congrArg List.length hrest
      rw [List.length_append, List.length_take, min_eq_left hle] at hlength
      exact List.length_eq_zero_iff.1 (by omega)
    rw [hnil, List.append_nil] at hrest
    rw [receiveInto, List.drop_eq_nil_of_le hle, List.append_nil, hrest]

theorem packetSize_spec (P : Params) :
    4 ∣ packetSize P ∧ sizeHeader + sizeInt + P.len1 ≤ packetSize P := by
  rw [packetSize, payloadSize, padding, sizeHeader, sizeInt]
  omega

/-- A long datagram decides on the bytes of the payload, all but the last of the buffer. -/
theorem At.whole_of_passes (h : At P i s)
    (hlength : sizeHeader + sizeInt + P.len1 ≤ d.length)
    (hlast : 4 ∣ P.len1 → P.len1 ≠ 0 → d[sizeHeader + sizeInt + P.len1 - 1]? = some 0)
    (hpasses : s.Passes P d) : Whole P i d := by
  obtain ⟨hdvd, hsize⟩ := packetSize_spec P
  have hbufIn := h.cleared.length
  have hreceived := (length_received s.bufIn d).trans hbufIn
  obtain ⟨⟨id, hid, hfront⟩, hzeros⟩ := h.passes_iff.1 hpasses
  rw [take_receiveInto (by omega) (by omega)] at hfront
  refine whole_iff.2 ⟨hlength, ⟨id, hid, hfront⟩, fun j hle hj => ?_⟩
  by_cases hj' : j + 1 < packetSize P
  · have hzero := hzeros j hle (hreceived ▸ hj')
    rwa [getElem?_receiveInto (by omega), if_pos (by omega)] at hzero
  · -- The last byte of the payload is the last one of the buffer.
    obtain rfl : j = sizeHeader + sizeInt + P.len1 - 1 := by omega
    refine hlast ?_ (by omega)
    have hall : packetSize P = sizeHeader + sizeInt + P.len1 := by omega
    rw [hall, sizeHeader, sizeInt] at hdvd
    omega

/-- What is left in the buffer of earlier datagrams is zeros. -/
theorem At.passes_of_passes (h : At P i s) (h' : At P i s')
    (hlength : sizeHeader + sizeInt ≤ d.length) (hpasses : s.Passes P d) : s'.Passes P d := by
  have hsize := (packetSize_spec P).2
  have hbufIn := h.cleared.length
  have hbufIn' := h'.cleared.length
  have hreceived := (length_received s.bufIn d).trans hbufIn
  have hreceived' := (length_received s'.bufIn d).trans hbufIn'
  obtain ⟨⟨id, hid, hfront⟩, hzeros⟩ := h.passes_iff.1 hpasses
  rw [take_receiveInto (by omega) hlength] at hfront
  refine h'.passes_iff.2 ⟨⟨id, hid, ?_⟩, fun j hle hj => ?_⟩
  · rw [take_receiveInto (by omega) hlength, hfront]
  · rw [hreceived'] at hj
    rw [getElem?_receiveInto (by omega)]
    split
    · have hzero := hzeros j hle (hreceived ▸ hj)
      rwa [getElem?_receiveInto (by omega), if_pos ‹_›] at hzero
    · exact h'.cleared.zeros h'.server j hle hj

theorem At.completes_of_passes (h : At P i s) (hpasses : s.Passes P d) : Completes P i d :=
  ⟨receiveInto s.bufIn d, (length_received s.bufIn d).trans h.cleared.length,
    h.passes_iff.1 hpasses, h.cleared.length ▸ List.prefix_append _ _⟩

/-- What may be completed in the buffer passes. -/
theorem AcceptsWhole.whole_of_completes (h : AcceptsWhole P i d) (hi : i < P.num1)
    (hcompletes : Completes P i d) : Whole P i d := by
  obtain ⟨bufIn, hlength, hchecked, hprefix⟩ := hcompletes
  obtain ⟨s, hat, rfl⟩ := exists_at_bufIn hi hlength hchecked
  refine h.whole s hat ?_
  rwa [hat.passes_iff, receiveInto_of_prefix (hlength ▸ hprefix)]

/-- A datagram passes only with the packet if and only if it is long enough, and ends with a zero
    if the last byte of the buffer belongs to the payload, or nothing completes it. -/
theorem acceptsWhole_iff (hi : i < P.num1) (d : List UInt8) : AcceptsWhole P i d ↔
    (sizeHeader + sizeInt + P.len1 ≤ d.length ∧
      (4 ∣ P.len1 → P.len1 ≠ 0 → d[sizeHeader + sizeInt + P.len1 - 1]? = some 0)) ∨
        ¬Completes P i d := by
  constructor
  · intro haccepts
    refine or_iff_not_imp_right.2 fun hcompletes => ?_
    obtain ⟨hlong, -, hzeros⟩ := whole_iff.1 (haccepts.whole_of_completes hi (not_not.1 hcompletes))
    exact ⟨hlong, fun _ hne => hzeros _ (by omega) (by omega)⟩
  · rintro (⟨hlength, hlast⟩ | hnot)
    · have hshort : sizeHeader + sizeInt ≤ d.length := by omega
      exact ⟨fun s h hpasses => h.whole_of_passes hlength hlast hpasses, fun s s' h h' =>
        ⟨h.passes_of_passes h' hshort, h'.passes_of_passes h hshort⟩⟩
    · have hnever : ∀ s, At P i s → ¬s.Passes P d :=
        fun s h hpasses => hnot (h.completes_of_passes hpasses)
      exact ⟨fun s h hpasses => absurd hpasses (hnever s h), fun s s' h h' =>
        iff_of_false (hnever s h) (hnever s' h')⟩

end

/-- A round of four bytes, so that the packet has no padding. -/
def round : Params where
  num1 := 1
  len1 := 4
  secretA := 7
  id := 472
  portA := 50000
  portB := 50001
  num1_lt := by decide
  len1_lt := by decide

/-- The packet of the round, with the last byte of its payload. -/
def roundPacket (last : UInt8) : List UInt8 :=
  front round 0 472 ++ [0, 0, 0, last]

theorem checked_roundPacket (last : UInt8) : Checked round 0 (roundPacket last) where
  front := ⟨472, by decide, rfl⟩
  zeros j hle hj := by
    have hlength : (roundPacket last).length = 20 := rfl
    have hlow : 16 ≤ j := hle
    have hhigh : j < 19 := by omega
    interval_cases j <;> rfl

theorem acceptsWhole_roundPacket : AcceptsWhole round 0 (roundPacket 0) :=
  (acceptsWhole_iff (by decide) (roundPacket 0)).2 (.inl ⟨by decide, fun _ _ => by decide⟩)

/-- A datagram without any bytes passes after the packet, and one whose last byte is not zero at
    once. -/
theorem not_acceptsWhole : ¬AcceptsWhole round 0 [] ∧ ¬AcceptsWhole round 0 (roundPacket 1) := by
  constructor
  · intro h
    have hwhole := h.whole_of_completes (by decide)
      ⟨roundPacket 0, rfl, checked_roundPacket 0, List.nil_prefix⟩
    exact absurd (whole_iff.1 hwhole).1 (by decide)
  · intro h
    have hwhole := h.whole_of_completes (by decide)
      ⟨roundPacket 1, rfl, checked_roundPacket 1, List.prefix_rfl⟩
    exact absurd ((whole_iff.1 hwhole).2.2 19 (by decide) (by decide)) (by decide)

end Cse461.Secrets.StepB
