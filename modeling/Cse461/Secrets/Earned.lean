import Cse461.Secrets.Peer

/-!
# What the server sends is earned

`run` of `ServerThread.java` against any peer, in any run (`Earned`).

* What the server sends are the packets of the protocol in their order: the response of step A,
  one acknowledgement for each of the `num1` packets, the final response of step B, and on the
  connection the responses of the steps C and D.
* Each datagram of the server is preceded by one of the peer for it: the one of step A, and for
  acknowledgement `i` one that starts with packet `i`. The final response takes one more, as the
  server leaves a packet unacknowledged at least once.
* The response of step D comes after `num2` packets of step D, each of which has its header in the
  bytes written to the connection, in a stretch of its own.

Which of the datagrams is the one that is acknowledged is left open: after one that is dropped,
any datagram passes that does not change the buffer.
-/

namespace Cse461.Secrets.Session

open Library

section

variable (D : Draws)

/-- The datagram of a move. -/
def Move.datagram : Move → Option Datagram
  | .send g => some g
  | .lose | .connect | .write _ | .server _ | .timeout => none

/-- The bytes of a move. -/
def Move.bytes : Move → List UInt8
  | .write p => p
  | .send _ | .lose | .connect | .server _ | .timeout => []

/-- All that the server sends over UDP. -/
def responses (id : Int32) : List (Except JavaException (List UInt8)) :=
  responseA D id :: ((List.range D.num1).map (StepB.acknowledgement (D.params id)) ++
    [StepB.finalResponse (D.params id) D.tcpPort D.secretB])

/-- The datagram of the peer that comes before datagram `i` of the server. -/
def Earns (id : Int32) : ℕ → Datagram → Prop
  | 0, g => serverThread (StepB.receiveInto
      (newBytes (sizeHeader + (helloWorld ++ [' ']).length)) g.data) = .ok id
  | i + 1, g => StepB.Begins (D.params id) i g.data

/-- The first `n` packets of step D are among the bytes written, each with its header. -/
structure Blocks (bytes : List UInt8) (n : ℕ) : Prop where
  length : n * sizeD D ≤ bytes.length
  header : ∀ i < n, ∃ k id, (i * sizeD D ≤ k ∧ k + sizeHeader < (i + 1) * sizeD D) ∧
    (0 ≤ id ∧ id ≤ 999) ∧ (bytes.drop k).take sizeHeader =
      header D.len2 1 (toByteArray D.secretC) ((toByteArray id).drop 2)

/-- What the server has sent to a peer that sent `sent` and wrote `bytes`, where `gs` are the
    datagrams that earned it. -/
structure Earned (sent : List Datagram) (bytes : List UInt8) (s : State) (id : Int32)
    (gs : List Datagram) : Prop where
  responses : s.toClient.map (fun r => .ok r.2) <+: responses D id
  packets : s.down.map .ok <+: [responseC D id, responseD D id]
  earns : ∀ i g, gs[i]? = some g → Earns D id i g
  enough : min s.toClient.length (D.num1 + 1) ≤ gs.length
  sublist : (gs ++ s.toServer).Sublist sent
  ports : ∀ r ∈ s.toClient, r.1 ∈ sent.map Datagram.src
  dropped : 0 < D.num1.val → s.toClient.length = D.num1 + 2 → D.num1 + 2 ≤ sent.length
  connected : s.down ≠ [] → s.connected = true ∧ s.toClient.length = D.num1 + 2
  blocks : s.down.length = 2 → Blocks D bytes D.num2

/-! ## The invariant -/

/-- The server is in the loop of step B. -/
structure InLoop (sent : List Datagram) (bytes : List UInt8) (s : State) (id : Int32)
    (gs : List Datagram) (port i : ℕ) (haveFailed : Bool) (bufIn : List UInt8) : Prop where
  le : i ≤ D.num1
  length : bufIn.length = StepB.packetSize (D.params id)
  replies : s.toClient.length = i + 1
  -- Packet `i` was received, but not acknowledged, or it is not in the buffer.
  earned : gs.length = i + 2 ∨ (gs.length = i + 1 ∧ StepB.Stale (D.params id) i bufIn)
  received : i + 1 + haveFailed.toNat + s.toServer.length ≤ sent.length
  last : i = D.num1 → 0 < D.num1.val → haveFailed = true
  port : port ∈ sent.map Datagram.src
  down : s.down = []
  up : s.up.flatten = bytes

/-- The server is in the loop of step D. -/
structure InD (bytes : List UInt8) (s : State) (i : ℕ) (bufIn : List UInt8) : Prop where
  le : i ≤ D.num2
  length : bufIn.length = sizeD D
  replies : s.toClient.length = D.num1 + 2
  down : s.down.length = 1
  up : s.up.flatten = bytes.drop (i * sizeD D)
  blocks : Blocks D bytes i

/-- Where the server is, and what it takes to be there. -/
def Stage (sent : List Datagram) (bytes : List UInt8) (s : State) (id : Int32)
    (gs : List Datagram) : Server → Prop
  | .listen => s.toClient = [] ∧ s.down = [] ∧ s.up.flatten = bytes
  | .stepA id' port => id' = id ∧ gs.length = 1 ∧ port ∈ sent.map Datagram.src ∧
      1 + s.toServer.length ≤ sent.length ∧ s.toClient = [] ∧ s.down = [] ∧ s.up.flatten = bytes
  | .loop id' port i haveFailed bufIn => id' = id ∧
      InLoop D sent bytes s id gs port i haveFailed bufIn
  | .accept id' => id' = id ∧ s.toClient.length = D.num1 + 2 ∧ s.down = [] ∧
      s.up.flatten = bytes
  | .stepD id' i bufIn => id' = id ∧ InD D bytes s i bufIn
  | .done | .thrown _ => True

/-- The invariant. -/
structure Held (sent : List Datagram) (bytes : List UInt8) (s : State) (id : Int32)
    (gs : List Datagram) : Prop where
  earned : Earned D sent bytes s id gs
  stage : Stage D sent bytes s id gs s.server

/-- What the peer and the network do to what the server has in front of it. -/
structure Adds (sent : List Datagram) (bytes : List UInt8) (s : State) (sent' : List Datagram)
    (bytes' : List UInt8) (s' : State) : Prop where
  server : s'.server = s.server
  toClient : s'.toClient = s.toClient
  down : s'.down = s.down
  connected : s.connected = true → s'.connected = true
  isPrefix : sent <+: sent'
  sublist : ∀ gs : List Datagram,
    (gs ++ s.toServer).Sublist sent → (gs ++ s'.toServer).Sublist sent'
  length : s'.toServer.length + sent.length ≤ s.toServer.length + sent'.length
  bytes : ∃ p, bytes' = bytes ++ p ∧ s'.up.flatten = s.up.flatten ++ p

end

section

variable {D : Draws} {sent sent' : List Datagram} {bytes bytes' : List UInt8} {s s' : State}
  {id : Int32} {gs : List Datagram}

/-! ### The peer -/

theorem Blocks.append {n : ℕ} (h : Blocks D bytes n) (p : List UInt8) :
    Blocks D (bytes ++ p) n where
  length := h.length.trans (by rw [List.length_append]; exact Nat.le_add_right ..)
  header i hi := by
    obtain ⟨k, id, hk, hid, hheader⟩ := h.header i hi
    -- The stretch ends before what is added.
    have hle : (i + 1) * sizeD D ≤ bytes.length :=
      (Nat.mul_le_mul_right (sizeD D) hi).trans h.length
    have hlong : sizeHeader ≤ (bytes.drop k).length := by
      rw [List.length_drop]
      omega
    refine ⟨k, id, hk, hid, ?_⟩
    rw [List.drop_append_of_le_length (by omega), List.take_append_of_le_length hlong, hheader]

theorem Earned.adds (h : Earned D sent bytes s id gs)
    (ha : Adds sent bytes s sent' bytes' s') : Earned D sent' bytes' s' id gs where
  responses := ha.toClient ▸ h.responses
  packets := ha.down ▸ h.packets
  earns := h.earns
  enough := ha.toClient ▸ h.enough
  sublist := ha.sublist gs h.sublist
  ports r hr := (ha.isPrefix.map _).subset (h.ports r (ha.toClient ▸ hr))
  dropped hnum hlength :=
    (h.dropped hnum (ha.toClient ▸ hlength)).trans ha.isPrefix.length_le
  connected hdown := by
    obtain ⟨hconnected, hlength⟩ := h.connected (ha.down ▸ hdown)
    exact ⟨ha.connected hconnected, ha.toClient ▸ hlength⟩
  blocks hdown := by
    obtain ⟨p, rfl, -⟩ := ha.bytes
    exact (h.blocks (ha.down ▸ hdown)).append p

/-- The stage is the same after the peer has gone on. -/
theorem Stage.adds {v : Server} (h : Stage D sent bytes s id gs v)
    (ha : Adds sent bytes s sent' bytes' s') : Stage D sent' bytes' s' id gs v := by
  obtain ⟨p, rfl, hup⟩ := ha.bytes
  have hports := (ha.isPrefix.map Datagram.src).subset
  have hlength := ha.length
  cases v with
  | listen =>
    obtain ⟨hclient, hdown, hflat⟩ := h
    exact ⟨ha.toClient.trans hclient, ha.down.trans hdown, by rw [hup, hflat]⟩
  | stepA id' port =>
    obtain ⟨hid, hgs, hport, hle, hclient, hdown, hflat⟩ := h
    exact ⟨hid, hgs, hports hport, by omega, ha.toClient.trans hclient, ha.down.trans hdown,
      by rw [hup, hflat]⟩
  | loop id' port i haveFailed bufIn =>
    obtain ⟨hid, hloop⟩ := h
    have hreceived := hloop.received
    exact ⟨hid,
      { hloop with
        replies := ha.toClient ▸ hloop.replies
        received := by omega
        port := hports hloop.port
        down := ha.down.trans hloop.down
        up := by rw [hup, hloop.up] }⟩
  | accept id' =>
    obtain ⟨hid, hclient, hdown, hflat⟩ := h
    exact ⟨hid, ha.toClient ▸ hclient, ha.down.trans hdown, by rw [hup, hflat]⟩
  | stepD id' i bufIn =>
    obtain ⟨hid, hd⟩ := h
    exact ⟨hid,
      { hd with
        replies := ha.toClient ▸ hd.replies
        down := ha.down ▸ hd.down
        up := by rw [hup, hd.up, List.drop_append_of_le_length hd.blocks.length]
        blocks := hd.blocks.append p }⟩
  | done | thrown e => trivial

theorem Held.adds (h : Held D sent bytes s id gs) (ha : Adds sent bytes s sent' bytes' s') :
    Held D sent' bytes' s' id gs :=
  ⟨h.earned.adds ha, ha.server ▸ h.stage.adds ha⟩

/-- The steps of the peer and of the network. -/
theorem adds_of_peerStep {a : Move} (hs : peerStep D s a = some s')
    (hserver : ∀ drop, a ≠ .server drop) (htimeout : a ≠ .timeout) :
    Adds sent bytes s (sent ++ a.datagram.toList) (bytes ++ a.bytes) s' := by
  cases a with
  | server drop => exact absurd rfl (hserver drop)
  | timeout => exact absurd rfl htimeout
  | send g =>
    obtain rfl := Option.some.inj hs
    refine ⟨rfl, rfl, rfl, fun h => h, List.prefix_append .., fun gs h => ?_, ?_, [], rfl, ?_⟩
    · rw [← List.append_assoc]
      exact h.append (List.Sublist.refl [g])
    · rw [List.length_append, List.length_append]
      exact le_of_eq (by simp [Move.datagram]; omega)
    · rw [List.append_nil]
  | lose =>
    rw [peerStep] at hs
    split at hs
    · cases hs
    · obtain rfl := Option.some.inj hs
      refine ⟨rfl, rfl, rfl, fun h => h, List.prefix_append .., fun gs h => ?_, ?_, [], rfl, ?_⟩
      · rw [Move.datagram, Option.toList_none, List.append_nil]
        exact ((List.Sublist.refl gs).append (List.tail_sublist _)).trans h
      · rw [List.length_tail, Move.datagram, Option.toList_none, List.append_nil]
        exact Nat.add_le_add_right (Nat.sub_le ..) _
      · rw [List.append_nil]
  | connect =>
    rw [peerStep] at hs
    split at hs
    · obtain rfl := Option.some.inj hs
      refine ⟨rfl, rfl, rfl, fun _ => rfl, List.prefix_append .., fun gs h => ?_, ?_, [], rfl, ?_⟩
      · rwa [Move.datagram, Option.toList_none, List.append_nil]
      · rw [Move.datagram, Option.toList_none, List.append_nil]
      · rw [List.append_nil]
    · cases hs
  | write p =>
    rw [peerStep] at hs
    split at hs
    · obtain rfl := Option.some.inj hs
      refine ⟨rfl, rfl, rfl, fun h => h, List.prefix_append .., fun gs h => ?_, ?_, p, rfl, ?_⟩
      · rwa [Move.datagram, Option.toList_none, List.append_nil]
      · rw [Move.datagram, Option.toList_none, List.append_nil]
      · rw [List.flatten_append, List.flatten_singleton]
    · cases hs

/-! ### What the server reads -/

/-- A read that fills the buffer takes as many bytes off the stream as there are in the buffer. The
    last ones to arrive are written to its start, and are more than a header. -/
theorem readLoop_filled {total n : ℕ} {buf b : List UInt8} {l rest : List (List UInt8)}
    (h : readLoop total buf l = some (n, b, rest)) (hn : n = buf.length) :
    b.length = buf.length ∧ ((total = buf.length ∧ b = buf ∧ rest = l) ∨
      ((buf.length ≤ total + l.flatten.length ∧
        rest.flatten = l.flatten.drop (buf.length - total)) ∧
          ∃ k, total + k + sizeHeader < buf.length ∧
            b.take sizeHeader = (l.flatten.drop k).take sizeHeader)) := by
  induction l generalizing total buf with
  | nil =>
    rw [readLoop] at h
    split at h
    · cases h
    · obtain ⟨rfl, rfl, rfl⟩ := h
      exact ⟨rfl, .inl ⟨hn, rfl, rfl⟩⟩
  | cons p l ih =>
    rw [readLoop] at h
    split at h
    · next hgo =>
      split at h
      · next hle =>
        have hlength := StepB.length_receiveInto hle
        obtain ⟨hb, h⟩ := ih h (hn.trans hlength.symm)
        rw [hlength] at hb h
        refine ⟨hb, .inr ?_⟩
        rw [List.flatten_cons, List.length_append]
        rcases h with ⟨htotal, rfl, rfl⟩ | ⟨⟨hlong, hrest⟩, k, hk, hfront⟩
        · -- The bytes that fill it.
          refine ⟨⟨by omega, ?_⟩, 0, by omega, ?_⟩
          · rw [List.drop_left' (by omega)]
          · rw [List.drop_zero, List.take_append_of_le_length (by omega),
              StepB.take_receiveInto (by omega) (by omega)]
        · have hsplit : buf.length - total = p.length + (buf.length - (total + p.length)) := by
            omega
          refine ⟨⟨by omega, ?_⟩, p.length + k, by omega, ?_⟩
          · rw [hrest, hsplit, List.drop_length_add_append]
          · rw [hfront, List.drop_length_add_append]
      · next hlong =>
        -- What does not fit is left for the next read.
        obtain ⟨rfl, rfl, rfl⟩ := h
        obtain rfl : total = 0 := by omega
        have hlong' := Nat.lt_of_not_le hlong
        refine ⟨by rw [List.length_take]; omega, .inr ⟨⟨?_, ?_⟩, 0, by omega, ?_⟩⟩
        · rw [List.flatten_cons, List.length_append]
          omega
        · rw [Nat.sub_zero, List.flatten_cons, List.flatten_cons,
            List.drop_append_of_le_length hlong'.le]
        · rw [List.drop_zero, List.take_take, List.flatten_cons,
            List.take_append_of_le_length (by omega), min_eq_left (by omega)]
    · obtain ⟨rfl, rfl, rfl⟩ := h
      exact ⟨rfl, .inl ⟨hn, rfl, rfl⟩⟩

/-- A packet that `stepD` accepts. -/
theorem Blocks.succ {i : ℕ} {bufIn b : List UInt8} {up rest : List (List UInt8)} {filled : Bool}
    (h : Blocks D bytes i) (hup : up.flatten = bytes.drop (i * sizeD D))
    (hlength : bufIn.length = sizeD D) (hread : read bufIn up = some (filled, b, rest))
    (hcheck : checkD D filled b = .ok ()) :
    b.length = sizeD D ∧ Blocks D bytes (i + 1) ∧
      rest.flatten = bytes.drop ((i + 1) * sizeD D) := by
  obtain ⟨⟨n, b', rest'⟩, hloop, hr⟩ := Option.map_eq_some_iff.1 hread
  obtain ⟨hfilled, rfl, rfl⟩ := Prod.mk.injEq .. ▸ hr
  cases filled with
  | false => cases hcheck
  | true =>
    have hvalid : validHeader (Int32.ofNat D.len2) D.secretC (Int32.ofNat (1 : UInt8).toNat) b =
        .ok true := by
      rw [checkD] at hcheck
      cases hvalid : validHeader (Int32.ofNat D.len2) D.secretC 1 b with
      | error e =>
        rw [hvalid] at hcheck
        cases hcheck
      | ok valid =>
        rw [hvalid] at hcheck
        cases valid with
        | false => cases hcheck
        | true => exact hvalid
    obtain ⟨id, hid, hheader⟩ := take_of_validHeader hvalid
    obtain ⟨hb, h'⟩ := readLoop_filled hloop (of_decide_eq_true hfilled)
    have hsucc : (i + 1) * sizeD D = i * sizeD D + sizeD D := Nat.succ_mul ..
    have hle := h.length
    rcases h' with ⟨hzero, -, -⟩ | ⟨⟨hlong, hrest⟩, k, hk, hfront⟩
    · -- The buffer is not empty.
      rw [hlength, sizeD, sizeHeader] at hzero
      omega
    · rw [hup, List.drop_drop] at hfront hrest
      rw [hup, List.length_drop] at hlong
      refine ⟨hb.trans hlength, ⟨by omega, fun j hj => ?_⟩, ?_⟩
      · rcases Nat.lt_succ_iff_lt_or_eq.1 hj with hj | rfl
        · exact h.header j hj
        · exact ⟨j * sizeD D + k, id, by omega, hid, hfront.symm.trans hheader⟩
      · rw [hrest, hsucc, hlength, Nat.sub_zero]

/-! ### What the server sends -/

theorem prefix_concat {α : Type*} {xs ys : List α} {y : α} (h : xs <+: ys)
    (hy : ys[xs.length]? = some y) : xs ++ [y] <+: ys := by
  obtain ⟨t, rfl⟩ := h
  rw [List.getElem?_append_right le_rfl, Nat.sub_self] at hy
  cases t with
  | nil => cases hy
  | cons z t =>
    obtain rfl := Option.some.inj hy
    exact ⟨t, List.append_cons .. ▸ rfl⟩

theorem getElem?_responses_ack {i : ℕ} (hi : i < D.num1) :
    (responses D id)[i + 1]? = some (StepB.acknowledgement (D.params id) i) := by
  rw [responses, List.getElem?_cons_succ, List.getElem?_append_left (by simpa using hi),
    List.getElem?_map, List.getElem?_range hi, Option.map_some]

theorem getElem?_responses_final : (responses D id)[D.num1.val + 1]? =
    some (StepB.finalResponse (D.params id) D.tcpPort D.secretB) := by
  rw [responses, List.getElem?_cons_succ, List.getElem?_append_right (by simp)]
  simp

/-- The server sends the next of its datagrams. -/
theorem Earned.reply (h : Earned D sent bytes s id gs) {gs' : List Datagram} {port : ℕ}
    {d : List UInt8} (hs' : s'.toClient = s.toClient ++ [(port, d)]) (hdown : s'.down = s.down)
    (hempty : s.down = []) (hnext : (Session.responses D id)[s.toClient.length]? = some (.ok d))
    (hport : port ∈ sent.map Datagram.src) (hearns : ∀ i g, gs'[i]? = some g → Earns D id i g)
    (henough : min (s.toClient.length + 1) (D.num1 + 1) ≤ gs'.length)
    (hsublist : (gs' ++ s'.toServer).Sublist sent)
    (hdropped : 0 < D.num1.val → s.toClient.length = D.num1 + 1 → D.num1 + 2 ≤ sent.length) :
    Earned D sent bytes s' id gs' where
  responses := by
    rw [hs', List.map_append]
    exact prefix_concat h.responses (by rwa [List.length_map])
  packets := hdown ▸ h.packets
  earns := hearns
  enough := by rwa [hs', List.length_append]
  sublist := hsublist
  ports r hr := by
    rcases List.mem_append.1 (hs' ▸ hr) with hr | hr
    · exact h.ports r hr
    · rwa [List.mem_singleton.1 hr]
  dropped hnum hlength := by
    rw [hs', List.length_append, List.length_singleton] at hlength
    exact hdropped hnum (Nat.succ.inj hlength)
  connected hne := absurd (hdown.trans hempty) hne
  blocks htwo := by
    rw [hdown, hempty] at htwo
    cases htwo

/-- The server stops. -/
theorem Earned.thrown (h : Earned D sent bytes s id gs) {l : List Datagram} {e : JavaException}
    (hl : (gs ++ l).Sublist sent) :
    Held D sent bytes { s with toServer := l, server := .thrown e } id gs :=
  ⟨{ h with sublist := hl }, trivial⟩

/-! ### The server -/

/-- The datagram of step A. -/
theorem Held.listen (h : Held D sent bytes s id gs) (hserver : s.server = .listen) {drop : Bool}
    (hs : serverStep D s drop = some s') : ∃ id gs, Held D sent bytes s' id gs := by
  have hstage := h.stage
  rw [hserver] at hstage
  obtain ⟨hclient, hdown, hflat⟩ := hstage
  simp only [serverStep, hserver, State.serverReceive] at hs
  cases hto : s.toServer with
  | nil => simp [hto] at hs
  | cons g l =>
    have hsublist : (g :: l).Sublist sent :=
      hto ▸ (List.sublist_append_right gs _).trans h.earned.sublist
    rw [hto] at hs
    dsimp only at hs
    split at hs
    · split at hs
      · next id' hid =>
        obtain rfl := Option.some.inj hs
        refine ⟨id', [g], ?_, rfl, rfl, ?_, ?_, hclient, hdown, hflat⟩
        · exact
            { responses := by rw [hclient]; exact List.nil_prefix
              packets := by rw [hdown]; exact List.nil_prefix
              earns := fun i g' hg' => by
                cases i with
                | zero => exact Option.some.inj hg' ▸ hid
                | succ i => cases hg'
              enough := by rw [hclient]; exact Nat.zero_le 1
              sublist := hsublist
              ports := fun r hr => absurd (hclient ▸ hr) List.not_mem_nil
              dropped := fun _ hlength => by
                rw [hclient] at hlength
                cases hlength
              connected := fun hne => absurd hdown hne
              blocks := fun htwo => by
                rw [hdown] at htwo
                cases htwo }
        · exact List.mem_map_of_mem (hsublist.subset List.mem_cons_self)
        · have hle := hsublist.length_le
          exact (Nat.add_comm 1 l.length).le.trans hle
      · -- It does not greet, and the server listens on.
        obtain rfl := Option.some.inj hs
        refine ⟨id, gs, { h.earned with sublist := ?_ }, hclient, hdown, hflat⟩
        refine List.Sublist.trans ?_ h.earned.sublist
        rw [hto]
        exact (List.Sublist.refl gs).append (List.sublist_cons_self g l)
    · cases hs

/-- The response of step A. -/
theorem Held.stepA (h : Held D sent bytes s id gs) {id' : Int32} {port : ℕ}
    (hserver : s.server = .stepA id' port) {drop : Bool}
    (hs : serverStep D s drop = some s') : Held D sent bytes s' id gs := by
  have hstage := h.stage
  rw [hserver] at hstage
  obtain ⟨rfl, hgs, hport, hle, hclient, hdown, hflat⟩ := hstage
  obtain ⟨d, hd, -⟩ := responseA_eq_ok D id'
  simp only [serverStep, hserver, hd, serverTry_ok] at hs
  obtain rfl := Option.some.inj hs
  refine ⟨h.earned.reply rfl rfl hdown ?_ hport h.earned.earns ?_ h.earned.sublist ?_, rfl,
    Nat.zero_le _, List.length_replicate, by rw [hclient]; rfl, .inr ⟨hgs, StepB.stale_newBytes _⟩,
    hle, fun hzero hnum => absurd hzero hnum.ne, hport, hdown, hflat⟩
  · rw [hclient, ← hd]
    rfl
  · rw [hclient, hgs]
    exact min_le_left ..
  · intro _ hlength
    rw [hclient, List.length_nil] at hlength
    omega

/-- A datagram that passes for packet `i`: it starts with it, or an earlier one did. -/
theorem InLoop.receive {port i : ℕ} {haveFailed : Bool} {bufIn : List UInt8}
    (h : InLoop D sent bytes s id gs port i haveFailed bufIn)
    (hearned : Earned D sent bytes s id gs) {g : Datagram} {l : List Datagram}
    (hsublist : (gs ++ g :: l).Sublist sent)
    (hchecked : StepB.Checked (D.params id) i (StepB.receiveInto bufIn g.data)) :
    ∃ gs', gs'.length = i + 2 ∧ (∀ j g, gs'[j]? = some g → Earns D id j g) ∧
      (gs' ++ l).Sublist sent := by
  rcases h.earned with hgs | ⟨hgs, hstale⟩
  · refine ⟨gs, hgs, hearned.earns, List.Sublist.trans ?_ hsublist⟩
    exact (List.Sublist.refl gs).append (List.sublist_cons_self g l)
  · refine ⟨gs ++ [g], by rw [List.length_append, hgs]; rfl, fun j g' hg' => ?_, ?_⟩
    · rcases lt_trichotomy j gs.length with hj | rfl | hj
      · rw [List.getElem?_append_left hj] at hg'
        exact hearned.earns j g' hg'
      · rw [List.getElem?_concat_length] at hg'
        obtain rfl := Option.some.inj hg'
        rw [hgs]
        exact hstale g.data hchecked
      · rw [List.getElem?_eq_none (by rw [List.length_append]; exact hj)] at hg'
        cases hg'
    · rwa [List.append_assoc]

/-- A packet of step B, or the end of it. -/
theorem Held.loop (h : Held D sent bytes s id gs) {id' : Int32} {port i : ℕ} {haveFailed : Bool}
    {bufIn : List UInt8} (hserver : s.server = .loop id' port i haveFailed bufIn) {drop : Bool}
    (hs : serverStep D s drop = some s') : ∃ gs, Held D sent bytes s' id gs := by
  have hstage := h.stage
  rw [hserver] at hstage
  obtain ⟨rfl, hloop⟩ := hstage
  have hreplies := hloop.replies
  have hreceived := hloop.received
  by_cases hi : i < D.num1
  · simp only [serverStep, hserver, if_pos hi, State.serverReceive] at hs
    cases hto : s.toServer with
    | nil => simp [hto] at hs
    | cons g l =>
      rw [hto, List.length_cons] at hreceived
      have hsublist : (gs ++ g :: l).Sublist sent := hto ▸ h.earned.sublist
      have hl : (gs ++ l).Sublist sent :=
        ((List.Sublist.refl gs).append (List.sublist_cons_self g l)).trans hsublist
      have hport : g.src ∈ sent.map Datagram.src :=
        List.mem_map_of_mem (hsublist.subset (List.mem_append_right gs List.mem_cons_self))
      rw [hto] at hs
      dsimp only at hs
      split at hs
      · cases hok : StepB.checkPacket (D.params id') i (StepB.receiveInto bufIn g.data) with
        | error e =>
          rw [hok, serverTry_error] at hs
          obtain rfl := Option.some.inj hs
          exact ⟨gs, h.earned.thrown hl⟩
        | ok u =>
          have hlength := (StepB.length_received bufIn g.data).trans hloop.length
          have hchecked := (StepB.checked_iff hlength).1 hok
          obtain ⟨gs', hgs', hearns, hsublist'⟩ := hloop.receive h.earned hsublist hchecked
          rw [hok, serverTry_ok] at hs
          split at hs
          · -- The acknowledgement is left out.
            obtain rfl := Option.some.inj hs
            refine ⟨gs', { h.earned with earns := hearns, sublist := hsublist', enough := ?_ }, rfl,
              hloop.le, hlength, hreplies, .inl hgs', ?_, fun hlast => absurd hlast hi.ne, hport,
              hloop.down, hloop.up⟩
            · rw [hreplies, hgs']
              omega
            · dsimp only
              rw [Bool.toNat_true]
              omega
          · next hacknowledged =>
            cases hd : StepB.acknowledgement (D.params id') i with
            | error e =>
              rw [hd, serverTry_error] at hs
              obtain rfl := Option.some.inj hs
              exact ⟨gs, h.earned.thrown hl⟩
            | ok d =>
              rw [hd, serverTry_ok] at hs
              obtain rfl := Option.some.inj hs
              refine ⟨gs', h.earned.reply rfl rfl hloop.down ?_ hport hearns ?_ hsublist' ?_, rfl,
                hi, hlength, ?_, .inr ⟨hgs', StepB.stale_of_checked hlength hchecked⟩, ?_, ?_,
                hport, hloop.down, hloop.up⟩
              · rw [hreplies, getElem?_responses_ack hi, hd]
              · rw [hreplies, hgs']
                omega
              · intro _ hlast
                omega
              · rw [List.length_append, hreplies]
                rfl
              · dsimp only
                omega
              · -- The last packet is not acknowledged before one was left out.
                intro hlast _
                by_contra hfailed
                exact hacknowledged (.inr ⟨by omega, hfailed⟩)
      · cases hs
  · -- All packets are acknowledged.
    obtain rfl : i = D.num1 := le_antisymm hloop.le (Nat.le_of_not_lt hi)
    obtain ⟨d, hd, -⟩ := finalResponse_eq_ok (D.params id') D.tcpPort D.secretB
    simp only [serverStep, hserver, if_neg hi, hd, serverTry_ok] at hs
    obtain rfl := Option.some.inj hs
    refine ⟨gs, h.earned.reply rfl rfl hloop.down ?_ hloop.port h.earned.earns ?_
      h.earned.sublist ?_, rfl, ?_, hloop.down, hloop.up⟩
    · rw [hreplies, getElem?_responses_final, hd]
    · rcases hloop.earned with hgs | ⟨hgs, -⟩
      · omega
      · omega
    · intro hnum _
      rw [hloop.last rfl hnum, Bool.toNat_true] at hreceived
      omega
    · rw [List.length_append, hreplies]
      rfl

/-- The server sends the next of its packets. -/
theorem Earned.write (h : Earned D sent bytes s id gs) {d : List UInt8}
    (hdown : s'.down = s.down ++ [d]) (hclient : s'.toClient = s.toClient)
    (hserver : s'.toServer = s.toServer) (hconnected : s'.connected = true)
    (hlength : s.toClient.length = D.num1 + 2)
    (hnext : [responseC D id, responseD D id][s.down.length]? = some (.ok d))
    (hblocks : s.down.length = 1 → Blocks D bytes D.num2) : Earned D sent bytes s' id gs where
  responses := hclient ▸ h.responses
  packets := by
    rw [hdown, List.map_append]
    exact prefix_concat h.packets (by rwa [List.length_map])
  earns := h.earns
  enough := hclient ▸ h.enough
  sublist := hserver ▸ h.sublist
  ports := hclient ▸ h.ports
  dropped := hclient ▸ h.dropped
  connected _ := ⟨hconnected, hclient ▸ hlength⟩
  blocks htwo := by
    rw [hdown, List.length_append] at htwo
    exact hblocks (Nat.succ.inj htwo)

/-- The response of step C. -/
theorem Held.accept (h : Held D sent bytes s id gs) {id' : Int32}
    (hserver : s.server = .accept id') {drop : Bool}
    (hs : serverStep D s drop = some s') : Held D sent bytes s' id gs := by
  have hstage := h.stage
  rw [hserver] at hstage
  obtain ⟨rfl, hclient, hdown, hflat⟩ := hstage
  obtain ⟨d, hd, -⟩ := responseC_eq_ok D id'
  simp only [serverStep, hserver, hd, serverTry_ok] at hs
  split at hs
  · next hconnected =>
    obtain rfl := Option.some.inj hs
    refine ⟨h.earned.write rfl rfl rfl hconnected hclient ?_ ?_, rfl, Nat.zero_le _,
      List.length_replicate, hclient, ?_, ?_, ?_, fun i hi => absurd hi (Nat.not_lt_zero i)⟩
    · rw [hdown, ← hd]
      rfl
    · intro hone
      rw [hdown] at hone
      cases hone
    · rw [hdown]
      rfl
    · rw [Nat.zero_mul, List.drop_zero, hflat]
    · rw [Nat.zero_mul]
      exact Nat.zero_le _
  · cases hs

/-- A packet of step D, or the end of it. -/
theorem Held.stepD (h : Held D sent bytes s id gs) {id' : Int32} {i : ℕ} {bufIn : List UInt8}
    (hserver : s.server = .stepD id' i bufIn) {drop : Bool}
    (hs : serverStep D s drop = some s') : Held D sent bytes s' id gs := by
  have hstage := h.stage
  rw [hserver] at hstage
  obtain ⟨rfl, hd⟩ := hstage
  by_cases hi : i < D.num2
  · simp only [serverStep, hserver, if_pos hi] at hs
    obtain ⟨⟨filled, b, rest⟩, hread, hs⟩ := Option.map_eq_some_iff.1 hs
    cases hcheck : checkD D filled b with
    | error e =>
      rw [hcheck, serverTry_error] at hs
      exact hs ▸ h.earned.thrown h.earned.sublist
    | ok u =>
      obtain ⟨hb, hblocks, hrest⟩ := hd.blocks.succ hd.up hd.length hread hcheck
      rw [hcheck, serverTry_ok] at hs
      obtain rfl := hs
      exact ⟨{ h.earned with }, rfl, hi, hb, hd.replies, hd.down, hrest, hblocks⟩
  · obtain rfl : i = D.num2 := le_antisymm hd.le (Nat.le_of_not_lt hi)
    obtain ⟨d, hd', -⟩ := responseD_eq_ok D id'
    simp only [serverStep, hserver, if_neg hi, hd', serverTry_ok] at hs
    obtain rfl := Option.some.inj hs
    have hne : s.down ≠ [] := List.ne_nil_of_length_eq_add_one hd.down
    refine ⟨h.earned.write rfl rfl rfl (h.earned.connected hne).1 hd.replies ?_
      fun _ => hd.blocks, trivial⟩
    rw [hd.down, ← hd']
    rfl

theorem Held.server (h : Held D sent bytes s id gs) {drop : Bool}
    (hs : serverStep D s drop = some s') : ∃ id gs, Held D sent bytes s' id gs := by
  cases hserver : s.server with
  | listen => exact h.listen hserver hs
  | stepA id' port => exact ⟨id, gs, h.stepA hserver hs⟩
  | loop id' port i haveFailed bufIn => exact ⟨id, h.loop hserver hs⟩
  | accept id' => exact ⟨id, gs, h.accept hserver hs⟩
  | stepD id' i bufIn => exact ⟨id, gs, h.stepD hserver hs⟩
  | done | thrown e =>
    simp only [serverStep, hserver] at hs
    cases hs

/-! ## Runs -/

/-- The datagrams that the peer sends. -/
def datagrams (l : List Move) : List Datagram := l.filterMap Move.datagram

/-- The bytes that it writes. -/
def stream (l : List Move) : List UInt8 := l.flatMap Move.bytes

theorem Held.step (h : Held D sent bytes s id gs) {a : Move} (hs : peerStep D s a = some s') :
    ∃ id gs, Held D (sent ++ a.datagram.toList) (bytes ++ a.bytes) s' id gs := by
  cases ha : a with
  | server drop =>
    rw [ha] at hs
    rw [Move.datagram, Option.toList_none, List.append_nil, Move.bytes, List.append_nil]
    exact h.server hs
  | timeout =>
    rw [ha] at hs
    rw [Move.datagram, Option.toList_none, List.append_nil, Move.bytes, List.append_nil]
    obtain ⟨v, hv, rfl⟩ := Option.map_eq_some_iff.1 hs
    obtain ⟨e, rfl⟩ := Server.timedOut_eq_some hv
    exact ⟨id, gs, h.earned.thrown h.earned.sublist⟩
  | send | lose | connect | write =>
    exact ⟨id, gs, h.adds (ha ▸ adds_of_peerStep hs (by simp [ha]) (by simp [ha]))⟩

theorem exists_held {l : List Move} (hl : (peer D).exec start l = some s) :
    ∃ id gs, Held D (datagrams l) (stream l) s id gs := by
  induction l using List.reverseRecOn generalizing s with
  | nil =>
    obtain rfl := Option.some.inj hl
    exact ⟨0, [], ⟨List.nil_prefix, List.nil_prefix, by simp, Nat.zero_le _, List.nil_sublist _,
      by simp [start], by simp [start], by simp [start], by simp [start]⟩, rfl, rfl, rfl⟩
  | append_singleton l a ih =>
    obtain ⟨s₁, hs₁, hs⟩ := System.exec_concat.1 hl
    obtain ⟨id, gs, h⟩ := ih hs₁
    rw [datagrams, stream, List.filterMap_append, List.flatMap_append, List.flatMap_singleton]
    have hsingle : [a].filterMap Move.datagram = a.datagram.toList := by
      cases a <;> rfl
    rw [hsingle]
    exact h.step hs

end

/-- A peer that repeats the packet of step B with an empty datagram. -/
def visit : List Move :=
  [.send ⟨12235, 50000, header 12 1 [0, 0, 0, 0] [1, 216] ++ toByteArrayString helloWorld⟩,
    .server false, .server false,
    .send ⟨40000, 50001, header 4 1 (toByteArray 1) [1, 216] ++ [0, 0, 0, 0]⟩, .server false,
    .send ⟨40000, 50001, []⟩, .server false, .server false, .connect, .server false,
    .write (header 4 1 (toByteArray 3) [1, 216] ++ [65, 65, 65, 65]), .server false, .server false]

end Cse461.Secrets.Session
