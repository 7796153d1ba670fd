import Cse461.Library.Transition
import Cse461.Secrets.Packet

/-!
# Step B over a lossy network

`stepB` of `Client.java` and of `ServerThread.java`, and the datagrams between them.
The client sends `num1` numbered packets one after the other, each again and again
until a datagram comes back; the server counts the packets it has acknowledged,
leaves some unacknowledged on purpose, and throws at a packet it does not expect.

The network may lose any datagram. It neither delays nor repeats one: the client
times out when nothing is in flight.

* `State.Survives`: the server threw neither of the exceptions that stand for a
  violation of the protocol, and acknowledged the packets that the client is done with;
* `Late`: the server received a datagram after the network had lost one of its own.
  The client cannot tell whether its packet or the acknowledgement was lost, sends the
  packet again, and the server is already at the next one;
* `survives_iff_not_late`: that is the only way in which step B fails.
-/

namespace Cse461.Secrets.StepB

open Library

/-- What the two sides know when step B starts: the draws of step A, and the ports of
    the sockets that the client used in step A and uses in step B. -/
structure Params where
  num1 : ℕ
  len1 : ℕ
  secretA : Int32
  id : Int32
  portA : ℕ
  portB : ℕ
  num1_lt : num1 < 2 ^ 31
  len1_lt : len1 < 100

/-- Where the client is. -/
inductive Client
  | send (i : ℕ)
  | receive (i : ℕ)
  | final
  | done (bufIn : List UInt8)
  | thrown (e : JavaException)
  deriving DecidableEq

/-- Where the server is. -/
inductive Server
  | loop
  | done
  | thrown (e : JavaException)
  deriving DecidableEq

/-- The two sides, the datagrams in flight, and the packets acknowledged so far. -/
structure State where
  client : Client
  server : Server
  i : ℕ
  haveFailed : Bool
  bufIn : List UInt8
  clientPort : ℕ
  toServer : List (List UInt8)
  toClient : List (List UInt8)
  acks : List ℕ
  deriving DecidableEq

/-- The steps of the two sides and of the network. The server's `rand` decides whether
    it drops an acknowledgement, and draws the port and the secret of `serverFinish`. -/
inductive Action
  | clientSend
  | clientReceive
  | clientTimeout
  | serverReceive (drop : Bool)
  | serverTimeout
  | serverFinish (tcpPort secretB : Int32)
  | loseToServer (k : ℕ)
  | loseToClient (k : ℕ)
  deriving DecidableEq

/-- `socket.receive`: a datagram is written over the start of the buffer. -/
def receiveInto (buf d : List UInt8) : List UInt8 := d.take buf.length ++ buf.drop d.length

section

variable (P : Params)

/-! ## The client -/

/-- The datagram of packet `i`. -/
def clientPacket (i : ℕ) : Except JavaException (List UInt8) :=
  packetizeClient (toByteArray (Int32.ofNat i) ++ List.replicate P.len1 0)
    (toByteArray P.secretA) ['b', '1']

/-- The head of the loop. -/
def Client.next (i : ℕ) : Client := if i < P.num1 then .send i else .final

/-- `socket.receive` of the client. What comes back for a packet is not looked at. -/
def Client.received (d : List UInt8) : Client → Option Client
  | .receive i => some (.next P (i + 1))
  | .final => some (.done (receiveInto (List.replicate (sizeHeader + 2 * sizeInt) 0) d))
  | _ => none

/-- The timeout of the client's socket, which the loop catches. -/
def Client.timedOut : Client → Option Client
  | .receive i => some (.send i)
  | .final => some (.thrown .socketTimeout)
  | _ => none

/-- The packets that the client is done with. -/
def Client.passed : Client → ℕ
  | .send i | .receive i => i
  | .final | .done _ | .thrown _ => P.num1

/-! ## The server -/

/-- The size of the payload. -/
def payloadSize : ℕ := P.len1 + sizeInt

/-- The size of `bufIn`. -/
def packetSize : ℕ := sizeHeader + payloadSize P + padding (sizeHeader + payloadSize P)

/-- The checks that a received packet goes through. -/
def checkPacket (i : ℕ) (bufIn : List UInt8) : Except JavaException Unit := do
  unless (← validHeader (Int32.ofNat (payloadSize P)) P.secretA 1 bufIn) do
    throw .illegalArgument
  unless (bufIn.drop (sizeHeader + sizeInt)).dropLast.all (· = 0) do
    throw .illegalArgument
  let seqNum ← extractInt bufIn sizeHeader
  unless seqNum = Int32.ofNat i do
    throw .illegalState

/-- The acknowledgement of packet `i`. -/
def acknowledgement (i : ℕ) : Except JavaException (List UInt8) :=
  packetize (toByteArray (Int32.ofNat i)) (toByteArray P.secretA) ['b', '1'] P.id

/-- The final response. -/
def finalResponse (tcpPort secretB : Int32) : Except JavaException (List UInt8) :=
  packetize (toByteArray tcpPort ++ toByteArray secretB) (toByteArray P.secretA) ['b', '2'] P.id

/-- `udpSocket.send`. The client's socket of step A is closed: only what goes to the one
    of step B can be received. -/
def State.sendToClient (s : State) (d : List UInt8) : State :=
  if s.clientPort = P.portB then { s with toClient := s.toClient ++ [d] } else s

/-- A round of the server's loop. -/
def State.received (s : State) (d : List UInt8) (drop : Bool) : State :=
  let bufIn := receiveInto s.bufIn d
  let s := { s with bufIn := bufIn, clientPort := P.portB }
  match checkPacket P s.i bufIn with
  | .error e => { s with server := .thrown e }
  | .ok () =>
    if drop ∨ (s.i = P.num1 - 1 ∧ ¬s.haveFailed) then
      { s with haveFailed := true }
    else
      match acknowledgement P s.i with
      | .error e => { s with server := .thrown e }
      | .ok bufOut => { s.sendToClient P bufOut with i := s.i + 1, acks := s.acks ++ [s.i] }

/-! ## The system -/

/-- A step. -/
def step (s : State) : Action → Option State
  | .clientSend =>
    match s.client with
    | .send i =>
      match clientPacket P i with
      | .ok d => some { s with client := .receive i, toServer := s.toServer ++ [d] }
      | .error e => some { s with client := .thrown e }
    | _ => none
  | .clientReceive =>
    match s.toClient with
    | d :: l => (s.client.received P d).map fun c => { s with client := c, toClient := l }
    | [] => none
  | .clientTimeout =>
    if s.toServer = [] ∧ s.toClient = [] then
      s.client.timedOut.map fun c => { s with client := c }
    else
      none
  | .serverReceive drop =>
    match s.toServer with
    | d :: l =>
      if s.server = .loop ∧ s.i < P.num1 then
        some ({ s with toServer := l }.received P d drop)
      else
        none
    | [] => none
  | .serverTimeout =>
    if s.server = .loop ∧ s.i < P.num1 ∧ s.toServer = [] then
      some { s with server := .thrown .socketTimeout }
    else
      none
  | .serverFinish tcpPort secretB =>
    if s.server = .loop ∧ ¬s.i < P.num1 then
      match finalResponse P tcpPort secretB with
      | .ok d => some { s.sendToClient P d with server := .done }
      | .error e => some { s with server := .thrown e }
    else
      none
  | .loseToServer k =>
    if k < s.toServer.length then some { s with toServer := s.toServer.eraseIdx k } else none
  | .loseToClient k =>
    if k < s.toClient.length then some { s with toClient := s.toClient.eraseIdx k } else none

/-- The state at the start of step B. -/
def start : State where
  client := .next P 0
  server := .loop
  i := 0
  haveFailed := false
  bufIn := List.replicate (packetSize P) 0
  clientPort := P.portA
  toServer := []
  toClient := []
  acks := []

/-- Step B. -/
def stepB : System State Action where
  init s := s = start P
  step := step P

/-- The server did not end with one of the exceptions for a violation of the protocol,
    and has acknowledged every packet that the client is done with. -/
def State.Survives (s : State) : Prop :=
  s.server ≠ .thrown .illegalState ∧ s.server ≠ .thrown .illegalArgument ∧
    ∀ i < s.client.passed P, i ∈ s.acks

end

/-- The network lost a datagram to the client. -/
def Lost (l : List Action) : Prop := ∃ k, .loseToClient k ∈ l

/-- The server received a datagram after the network had lost one of its own. -/
def Late (l : List Action) : Prop :=
  ∃ k drop, [.loseToClient k, .serverReceive drop].Sublist l

/-! ## Packets -/

section

variable {P : Params}

theorem length_receiveInto {buf d : List UInt8} (h : d.length ≤ buf.length) :
    (receiveInto buf d).length = buf.length := by
  rw [receiveInto, List.take_of_length_le h, List.length_append, List.length_drop]
  omega

/-- A datagram of the size of the buffer replaces it. -/
theorem receiveInto_of_length_eq {buf d : List UInt8} (h : d.length = buf.length) :
    receiveInto buf d = d := by
  rw [receiveInto, List.take_of_length_le h.le, List.drop_eq_nil_of_le h.ge, List.append_nil]

/-- What `packetize` makes of a packet of the client. -/
theorem clientPacket_eq (i : ℕ) : clientPacket P i = .ok
    (header (payloadSize P) 1 (toByteArray P.secretA) [0x1, 0xD8] ++
      (toByteArray (Int32.ofNat i) ++ (List.replicate P.len1 0 ++
        List.replicate (padding (sizeHeader + payloadSize P)) 0))) := by
  have hlength : (toByteArray (Int32.ofNat i) ++ List.replicate P.len1 0).length =
      payloadSize P := by
    rw [List.length_append, length_toByteArray, List.length_replicate, payloadSize, sizeInt,
      Nat.add_comm]
  rw [clientPacket, packetizeClient, packet, if_neg (by rw [length_toByteArray]; decide), hlength,
    List.append_assoc]
  rfl

theorem acknowledgement_eq_ok (i : ℕ) : ∃ d, acknowledgement P i = .ok d :=
  ⟨_, rfl⟩

theorem finalResponse_eq_ok (tcpPort secretB : Int32) :
    ∃ d, finalResponse P tcpPort secretB = .ok d :=
  ⟨_, rfl⟩

theorem clientPacket_eq_ok (i : ℕ) : ∃ d, clientPacket P i = .ok d ∧ d.length = packetSize P := by
  refine ⟨_, clientPacket_eq i, ?_⟩
  rw [List.length_append, length_header rfl rfl, List.length_append, List.length_append,
    length_toByteArray, List.length_replicate, List.length_replicate, packetSize, payloadSize,
    sizeHeader, sizeInt]
  omega

/-- The length in the header is the one that the server expects, and it fits. -/
theorem length_fits (P : Params) : 12 + Int32.ofNat (payloadSize P) ≤
    Int32.ofNat (12 + (payloadSize P + padding (sizeHeader + payloadSize P))) := by
  have hlen := P.len1_lt
  have hpadding : padding (sizeHeader + payloadSize P) < 4 := Nat.mod_lt _ (by decide)
  rw [payloadSize, sizeInt] at *
  rw [show (12 : Int32) = Int32.ofNat 12 from rfl, ← Int32.ofNat_add, Int32.le_iff_toInt_le,
    Int32.toInt_ofNat_of_lt (by omega), Int32.toInt_ofNat_of_lt (by omega)]
  omega

theorem ofNat_injective {i j : ℕ} (hi : i < 2 ^ 31) (hj : j < 2 ^ 31) :
    Int32.ofNat i = Int32.ofNat j ↔ i = j := by
  refine ⟨fun h => ?_, fun h => h ▸ rfl⟩
  have hint := congrArg Int32.toInt h
  rw [Int32.toInt_ofNat_of_lt hi, Int32.toInt_ofNat_of_lt hj] at hint
  exact_mod_cast hint

/-- A packet of the client passes all checks of the server but that of its number. -/
theorem checkPacket_clientPacket {i c : ℕ} (hi : i < 2 ^ 31) (hc : c < 2 ^ 31) {d : List UInt8}
    (hd : clientPacket P c = .ok d) :
    checkPacket P i d = if c = i then .ok () else .error .illegalState := by
  obtain rfl := Except.ok.inj ((clientPacket_eq c).symm.trans hd)
  set zeros := List.replicate P.len1 (0 : UInt8) ++
    List.replicate (padding (sizeHeader + payloadSize P)) 0
  set hdr := header (payloadSize P) 1 (toByteArray P.secretA) [0x1, 0xD8]
  have hlength : (toByteArray (Int32.ofNat c) ++ zeros).length =
      payloadSize P + padding (sizeHeader + payloadSize P) := by
    simp only [zeros, List.length_append, length_toByteArray, List.length_replicate, payloadSize,
      sizeInt]
    omega
  have hvalid : validHeader (Int32.ofNat (payloadSize P)) P.secretA 1
      (hdr ++ (toByteArray (Int32.ofNat c) ++ zeros)) = .ok true := by
    rw [validHeader_header, hlength]
    have hid : 0 ≤ Int32.ofNat (256 * (0x1 : UInt8).toNat + (0xD8 : UInt8).toNat) ∧
        Int32.ofNat (256 * (0x1 : UInt8).toNat + (0xD8 : UInt8).toNat) ≤ 999 := by decide
    exact congrArg Except.ok (decide_eq_true ⟨⟨rfl, length_fits P⟩, rfl, rfl, hid⟩)
  have hzeros : ((hdr ++ (toByteArray (Int32.ofNat c) ++ zeros)).drop
      (sizeHeader + sizeInt)).dropLast.all (· = 0) = true := by
    have hdrop : (hdr ++ (toByteArray (Int32.ofNat c) ++ zeros)).drop (sizeHeader + sizeInt) =
        zeros := by
      rw [← List.append_assoc]
      exact List.drop_left' (by rw [List.length_append, length_header rfl rfl]; rfl)
    rw [hdrop, List.all_eq_true]
    intro b hb
    rcases List.mem_append.1 (List.mem_of_mem_dropLast hb) with hb | hb
    · exact decide_eq_true (List.eq_of_mem_replicate hb)
    · exact decide_eq_true (List.eq_of_mem_replicate hb)
  have hseqNum : extractInt (hdr ++ (toByteArray (Int32.ofNat c) ++ zeros)) sizeHeader =
      .ok (Int32.ofNat c) :=
    extractInt_toByteArray (length_header rfl rfl) _
  rw [checkPacket, hvalid, hseqNum]
  simp only [bind, Except.bind, hzeros, ofNat_injective hc hi, if_true]
  split
  · rfl
  · rfl

end

/-! ## Loss patterns -/

theorem lost_concat {l : List Action} {a : Action} :
    Lost (l ++ [a]) ↔ Lost l ∨ ∃ k, a = .loseToClient k := by
  simp only [Lost, List.mem_append, List.mem_singleton, exists_or, eq_comm]

theorem late_concat {l : List Action} {a : Action} :
    Late (l ++ [a]) ↔ Late l ∨ Lost l ∧ ∃ drop, a = .serverReceive drop := by
  constructor
  · rintro ⟨k, drop, h⟩
    obtain ⟨l₁, l₂, heq, h₁, h₂⟩ := List.sublist_append_iff.1 h
    rcases List.sublist_singleton.1 h₂ with rfl | rfl
    · rw [List.append_nil] at heq
      exact .inl ⟨k, drop, heq ▸ h₁⟩
    · have hsplit : [.loseToClient k] ++ [.serverReceive drop] = l₁ ++ [a] := heq
      obtain ⟨rfl, hlast⟩ := List.append_inj' hsplit rfl
      exact .inr ⟨⟨k, List.singleton_sublist.1 h₁⟩, drop, (List.cons.inj hlast).1.symm⟩
  · rintro (⟨k, drop, h⟩ | ⟨⟨k, h⟩, drop, rfl⟩)
    · exact ⟨k, drop, h.trans (List.sublist_append_left l [a])⟩
    · exact ⟨k, drop, (List.singleton_sublist.2 h).append (List.Sublist.refl _)⟩

/-! ## Runs -/

section

variable {P : Params} {s s' : State} {l : List Action} {a : Action}

/-- The two sides as long as the server is in its loop: at most one datagram is in flight,
    it is about the packet that the client waits for, and the server is ahead of the client
    by an acknowledgement that is in flight or lost. -/
structure Looping (P : Params) (lost : Prop) (s : State) : Prop where
  toServer : s.toServer = [] ∨ ∃ i < P.num1, s.client = .receive i ∧ s.toClient = [] ∧
    ∃ d, s.toServer = [d] ∧ clientPacket P i = .ok d
  toClient : s.toClient = [] ∨ ∃ i, s.client = .receive i ∧ ∃ d, s.toClient = [d]
  ahead : ¬lost ∧ s.i = s.client.passed P + s.toClient.length ∨
    lost ∧ s.toClient = [] ∧ s.i = s.client.passed P + 1

/-- What holds after the steps `l`. -/
structure Inv (P : Params) (l : List Action) (s : State) : Prop where
  acks : s.acks = List.range s.i
  le : s.i ≤ P.num1
  bufIn : s.bufIn.length = packetSize P
  active : ∀ i, s.client = .send i ∨ s.client = .receive i → i < P.num1
  running : s.server ≠ .done → s.client.passed P + s.toClient.length ≤ s.i
  loop : s.server = .loop → Looping P (Lost l) s ∧ ¬Late l
  done : s.server = .done → s.i = P.num1 ∧ ¬Late l
  thrown : ∀ e, s.server = .thrown e →
    e = .socketTimeout ∧ ¬Late l ∨ e = .illegalState ∧ Late l

@[simp] theorem Client.passed_send (i : ℕ) : (Client.send i).passed P = i := rfl

@[simp] theorem Client.passed_receive (i : ℕ) : (Client.receive i).passed P = i := rfl

@[simp] theorem Client.passed_final : Client.final.passed P = P.num1 := rfl

@[simp] theorem Client.passed_done (d : List UInt8) : (Client.done d).passed P = P.num1 := rfl

@[simp] theorem Client.passed_thrown (e : JavaException) :
    (Client.thrown e).passed P = P.num1 := rfl

theorem Client.passed_next {i : ℕ} (h : i ≤ P.num1) : (Client.next P i).passed P = i := by
  rw [Client.next]
  split
  · rfl
  · exact le_antisymm (not_lt.1 ‹_›) h

theorem Client.lt_of_next {i j : ℕ}
    (h : Client.next P i = .send j ∨ Client.next P i = .receive j) : j < P.num1 := by
  rw [Client.next] at h
  split at h
  · rcases h with h | h
    · cases h
      assumption
    · cases h
  · rcases h with h | h <;> cases h

namespace Inv

/-- The network's losses and the server's receipts are what `Lost` and `Late` look at. -/
theorem quiet (h : Inv P l s) (hlost : ∀ k, a ≠ .loseToClient k)
    (hlate : ∀ drop, a ≠ .serverReceive drop) : Inv P (l ++ [a]) s := by
  have hl : Lost (l ++ [a]) ↔ Lost l := by
    rw [lost_concat, or_iff_left fun ⟨k, hk⟩ => hlost k hk]
  have ht : Late (l ++ [a]) ↔ Late l := by
    rw [late_concat, or_iff_left fun ⟨_, drop, hd⟩ => hlate drop hd]
  obtain ⟨hacks, hle, hbufIn, hactive, hrunning, hloop, hdone, hthrown⟩ := h
  exact ⟨hacks, hle, hbufIn, hactive, hrunning,
    fun hs => ⟨propext hl ▸ (hloop hs).1, ht.not.2 (hloop hs).2⟩,
    fun hs => ⟨(hdone hs).1, ht.not.2 (hdone hs).2⟩,
    fun e he => by rw [ht]; exact hthrown e he⟩

theorem clientSend (h : Inv P l s) (hs : step P s .clientSend = some s') : Inv P l s' := by
  simp only [step] at hs
  split at hs
  · rename_i i hclient
    obtain ⟨d, hd, -⟩ := clientPacket_eq_ok (P := P) i
    rw [hd] at hs
    obtain rfl := Option.some.inj hs
    have hi : i < P.num1 := h.active i (.inl hclient)
    refine ⟨h.acks, h.le, h.bufIn, ?_, ?_, ?_, h.done, h.thrown⟩
    · rintro j (hj | hj)
      · cases hj
      · cases hj
        exact hi
    · simpa [hclient] using h.running
    · intro hserver
      obtain ⟨hloop, hlate⟩ := h.loop hserver
      have hsent : s.toServer = [] := by
        rcases hloop.toServer with ht | ⟨j, -, hj, -⟩
        · exact ht
        · rw [hclient] at hj
          cases hj
      have hback : s.toClient = [] := by
        rcases hloop.toClient with ht | ⟨j, hj, -⟩
        · exact ht
        · rw [hclient] at hj
          cases hj
      refine ⟨⟨.inr ⟨i, hi, rfl, hback, d, by simp [hsent], hd⟩, .inl hback, ?_⟩, hlate⟩
      simpa [hclient] using hloop.ahead
  · cases hs

theorem passed_le (h : Inv P l s) : s.client.passed P ≤ P.num1 := by
  cases hclient : s.client with
  | send i => exact (h.active i (.inl hclient)).le
  | receive i => exact (h.active i (.inr hclient)).le
  | final => rfl
  | done d => rfl
  | thrown e => rfl

theorem clientReceive (h : Inv P l s) (hs : step P s .clientReceive = some s') : Inv P l s' := by
  simp only [step] at hs
  split at hs
  · rename_i d rest hback
    obtain ⟨c, hc, rfl⟩ := Option.map_eq_some_iff.1 hs
    -- The client is done with one packet more, for the datagram that it received.
    have hpassed : c.passed P ≤ s.client.passed P + 1 ∧
        (s.server = .loop → c.passed P = s.client.passed P + 1 ∧ s.toServer = [] ∧ rest = []) := by
      cases hclient : s.client with
      | receive i =>
        rw [hclient] at hc
        obtain rfl := Option.some.inj hc
        have hi : i + 1 ≤ P.num1 := h.active i (.inr hclient)
        refine ⟨by simp [Client.passed_next hi], fun hserver => ?_⟩
        obtain ⟨hloop, -⟩ := h.loop hserver
        refine ⟨by simp [Client.passed_next hi], ?_, ?_⟩
        · rcases hloop.toServer with ht | ⟨-, -, -, ht, -⟩
          · exact ht
          · rw [hback] at ht
            cases ht
        · rcases hloop.toClient with ht | ⟨-, -, d', ht⟩
          · rw [hback] at ht
            cases ht
          · rw [hback] at ht
            exact (List.cons.inj ht).2
      | final =>
        rw [hclient] at hc
        obtain rfl := Option.some.inj hc
        refine ⟨by simp, fun hserver => ?_⟩
        obtain ⟨hloop, -⟩ := h.loop hserver
        rcases hloop.toClient with ht | ⟨i, hi, -⟩
        · rw [hback] at ht
          cases ht
        · rw [hclient] at hi
          cases hi
      | send i | done d | thrown e =>
        rw [hclient] at hc
        cases hc
    have hactive : ∀ i, c = .send i ∨ c = .receive i → i < P.num1 := by
      cases hclient : s.client with
      | receive i =>
        rw [hclient] at hc
        obtain rfl := Option.some.inj hc
        exact fun j => Client.lt_of_next
      | final =>
        rw [hclient] at hc
        obtain rfl := Option.some.inj hc
        rintro j (hj | hj) <;> cases hj
      | send i | done d | thrown e =>
        rw [hclient] at hc
        cases hc
    refine ⟨h.acks, h.le, h.bufIn, hactive, fun hserver => ?_, fun hserver => ?_, h.done,
      h.thrown⟩
    · have hrunning := h.running hserver
      rw [hback, List.length_cons] at hrunning
      have := hpassed.1
      dsimp only
      omega
    · obtain ⟨hloop, hlate⟩ := h.loop hserver
      obtain ⟨hc', hsent, rfl⟩ := hpassed.2 hserver
      refine ⟨⟨.inl hsent, .inl rfl, ?_⟩, hlate⟩
      rcases hloop.ahead with ⟨hlost, hi⟩ | ⟨-, ht, -⟩
      · refine .inl ⟨hlost, ?_⟩
        rw [hback, List.length_singleton] at hi
        simp [hi, hc']
      · rw [hback] at ht
        cases ht
  · cases hs

theorem clientTimeout (h : Inv P l s) (hs : step P s .clientTimeout = some s') : Inv P l s' := by
  simp only [step] at hs
  split at hs
  · rename_i hempty
    obtain ⟨hsent, hback⟩ := hempty
    obtain ⟨c, hc, rfl⟩ := Option.map_eq_some_iff.1 hs
    have hpassed : c.passed P = s.client.passed P ∧
        ∀ i, c = .send i ∨ c = .receive i → i < P.num1 := by
      cases hclient : s.client with
      | receive i =>
        rw [hclient] at hc
        obtain rfl := Option.some.inj hc
        refine ⟨rfl, ?_⟩
        rintro j (hj | hj)
        · cases hj
          exact h.active i (.inr hclient)
        · cases hj
      | final =>
        rw [hclient] at hc
        obtain rfl := Option.some.inj hc
        refine ⟨rfl, ?_⟩
        rintro j (hj | hj) <;> cases hj
      | send i | done d | thrown e =>
        rw [hclient] at hc
        cases hc
    refine ⟨h.acks, h.le, h.bufIn, hpassed.2, fun hserver => ?_, fun hserver => ?_, h.done,
      h.thrown⟩
    · simpa [hpassed.1] using h.running hserver
    · obtain ⟨hloop, hlate⟩ := h.loop hserver
      exact ⟨⟨.inl hsent, .inl hback, by simpa [hpassed.1] using hloop.ahead⟩, hlate⟩
  · cases hs

theorem loseToServer {k : ℕ} (h : Inv P l s) (hs : step P s (.loseToServer k) = some s') :
    Inv P l s' := by
  simp only [step] at hs
  split at hs
  · rename_i hk
    obtain rfl := Option.some.inj hs
    refine ⟨h.acks, h.le, h.bufIn, h.active, h.running, fun hserver => ?_, h.done, h.thrown⟩
    obtain ⟨hloop, hlate⟩ := h.loop hserver
    refine ⟨⟨.inl ?_, hloop.toClient, hloop.ahead⟩, hlate⟩
    rcases hloop.toServer with ht | ⟨-, -, -, -, d, ht, -⟩
    · rw [ht]
      rfl
    · rw [ht, List.length_singleton, Nat.lt_one_iff] at hk
      rw [ht, hk]
      rfl
  · cases hs

/-- A datagram to the client is lost: while the server is in its loop, an acknowledgement. -/
theorem loseToClient {k : ℕ} (h : Inv P l s) (hs : step P s (.loseToClient k) = some s') :
    Inv P (l ++ [.loseToClient k]) s' := by
  have hlate : Late (l ++ [.loseToClient k]) ↔ Late l := by
    rw [late_concat, or_iff_left]
    rintro ⟨-, drop, hd⟩
    cases hd
  simp only [step] at hs
  split at hs
  · rename_i hk
    obtain rfl := Option.some.inj hs
    have hlength : (s.toClient.eraseIdx k).length + 1 = s.toClient.length := by
      rw [List.length_eraseIdx_of_lt hk]
      omega
    refine ⟨h.acks, h.le, h.bufIn, h.active, fun hserver => ?_, fun hserver => ?_,
      fun hserver => by simpa [hlate] using h.done hserver,
      fun e he => by simpa [hlate] using h.thrown e he⟩
    · have hrunning := h.running hserver
      dsimp only
      omega
    · obtain ⟨hloop, hnot⟩ := h.loop hserver
      rcases hloop.toClient with ht | ⟨i, hi, d, ht⟩
      · rw [ht] at hk
        cases hk
      · have hback : s.toClient.eraseIdx k = [] := by
          rw [ht, List.length_singleton, Nat.lt_one_iff] at hk
          rw [ht, hk]
          rfl
        have hsent : s.toServer = [] := by
          rcases hloop.toServer with hn | ⟨-, -, -, hn, -⟩
          · exact hn
          · rw [hn] at ht
            cases ht
        refine ⟨⟨.inl hsent, .inl hback, .inr ⟨lost_concat.2 (.inr ⟨k, rfl⟩), hback, ?_⟩⟩,
          hlate.not.2 hnot⟩
        rcases hloop.ahead with ⟨-, hi⟩ | ⟨-, hn, -⟩
        · rw [ht, List.length_singleton] at hi
          exact hi
        · rw [hn] at ht
          cases ht
  · cases hs

theorem serverTimeout (h : Inv P l s) (hs : step P s .serverTimeout = some s') : Inv P l s' := by
  simp only [step] at hs
  split at hs
  · rename_i hserver
    obtain rfl := Option.some.inj hs
    have hlate : ¬Late l := (h.loop hserver.1).2
    refine ⟨h.acks, h.le, h.bufIn, h.active, fun _ => h.running (by rw [hserver.1]; decide),
      fun he => (by cases he), fun he => (by cases he), fun e he => .inl ⟨?_, hlate⟩⟩
    cases he
    rfl
  · cases hs

theorem serverFinish {tcpPort secretB : Int32} (h : Inv P l s)
    (hs : step P s (.serverFinish tcpPort secretB) = some s') : Inv P l s' := by
  simp only [step] at hs
  split at hs
  · rename_i hserver
    obtain ⟨d, hd⟩ := finalResponse_eq_ok (P := P) tcpPort secretB
    rw [hd] at hs
    obtain rfl := Option.some.inj hs
    have hi : s.i = P.num1 := le_antisymm h.le (not_lt.1 hserver.2)
    have hlate : ¬Late l := (h.loop hserver.1).2
    rw [State.sendToClient]
    split
    · exact ⟨h.acks, h.le, h.bufIn, h.active, fun he => absurd rfl he, fun he => (by cases he),
        fun _ => ⟨hi, hlate⟩, fun e he => (by cases he)⟩
    · exact ⟨h.acks, h.le, h.bufIn, h.active, fun he => absurd rfl he, fun he => (by cases he),
        fun _ => ⟨hi, hlate⟩, fun e he => (by cases he)⟩
  · cases hs

/-- What the server receives is the packet that the client waits for. It is the packet that
    the server expects unless its acknowledgement was lost. -/
theorem serverReceive {drop : Bool} (h : Inv P l s)
    (hs : step P s (.serverReceive drop) = some s') : Inv P (l ++ [.serverReceive drop]) s' := by
  have hlost : Lost (l ++ [.serverReceive drop]) ↔ Lost l := by
    rw [lost_concat, or_iff_left]
    rintro ⟨k, hk⟩
    cases hk
  have hlate : Late (l ++ [.serverReceive drop]) ↔ Late l ∨ Lost l := by
    rw [late_concat, and_iff_left ⟨drop, rfl⟩]
  simp only [step] at hs
  split at hs
  · rename_i d' rest hsent
    split at hs
    · rename_i hserver
      obtain rfl := Option.some.inj hs
      obtain ⟨hloop, hnot⟩ := h.loop hserver.1
      obtain ⟨i, hi, hclient, hback, d, hd, hpacket⟩ :
          ∃ i < P.num1, s.client = .receive i ∧ s.toClient = [] ∧
            ∃ d, s.toServer = [d] ∧ clientPacket P i = .ok d :=
        hloop.toServer.resolve_left (by rw [hsent]; exact List.cons_ne_nil d' rest)
      obtain ⟨rfl, rfl⟩ := List.cons.inj (hsent.symm.trans hd)
      have hlength : d'.length = s.bufIn.length := by
        obtain ⟨d, hd, hlength⟩ := clientPacket_eq_ok (P := P) i
        rw [h.bufIn, ← hlength, Except.ok.inj (hd.symm.trans hpacket)]
      have hnum := P.num1_lt
      have hcheck : checkPacket P s.i (receiveInto s.bufIn d') =
          if i = s.i then .ok () else .error .illegalState := by
        rw [receiveInto_of_length_eq hlength]
        exact checkPacket_clientPacket (by omega) (by omega) hpacket
      have hbufIn : (receiveInto s.bufIn d').length = packetSize P := by
        rw [length_receiveInto hlength.le, h.bufIn]
      have hactive : ∀ j, s.client = .send j ∨ s.client = .receive j → j < P.num1 := h.active
      have hahead := hloop.ahead
      rw [hclient, Client.passed_receive, hback, List.length_nil, Nat.add_zero] at hahead
      simp only [State.received, hcheck]
      rcases hahead with ⟨hnotLost, hsi⟩ | ⟨hwas, -, hsi⟩
      · -- The two sides are at the same packet.
        have hnotLate : ¬Late (l ++ [.serverReceive drop]) := by
          rw [hlate]
          exact not_or_intro hnot hnotLost
        rw [if_pos hsi.symm]
        dsimp only
        split
        · refine ⟨h.acks, h.le, hbufIn, hactive, fun _ => ?_, fun _ => ⟨⟨.inl rfl, .inl hback, ?_⟩,
            hnotLate⟩, fun he => ?_, fun e he => ?_⟩
          · exact h.running (by rw [hserver.1]; decide)
          · exact .inl ⟨hlost.not.2 hnotLost, by simp [hclient, hback, hsi]⟩
          · rw [hserver.1] at he
            cases he
          · rw [hserver.1] at he
            cases he
        · obtain ⟨bufOut, hout⟩ := acknowledgement_eq_ok (P := P) s.i
          rw [hout]
          dsimp only
          rw [State.sendToClient, if_pos rfl]
          refine ⟨?_, hserver.2, hbufIn, hactive, fun _ => ?_, fun _ => ⟨⟨.inl rfl, ?_, ?_⟩,
            hnotLate⟩, fun he => ?_, fun e he => ?_⟩
          · rw [h.acks, List.range_succ]
          · simp [hclient, hback, hsi]
          · exact .inr ⟨i, hclient, bufOut, by simp [hback]⟩
          · exact .inl ⟨hlost.not.2 hnotLost, by simp [hclient, hback, hsi]⟩
          · rw [hserver.1] at he
            cases he
          · rw [hserver.1] at he
            cases he
      · -- The acknowledgement of the packet was lost, and the server is at the next one.
        rw [if_neg (by omega)]
        refine ⟨h.acks, h.le, hbufIn, hactive, fun _ => ?_, fun he => (by cases he),
          fun he => (by cases he), fun e he => .inr ⟨?_, hlate.2 (.inr hwas)⟩⟩
        · exact h.running (by rw [hserver.1]; decide)
        · cases he
          rfl
    · cases hs
  · cases hs

end Inv

theorem Inv.start : Inv P [] (start P) where
  acks := rfl
  le := Nat.zero_le _
  bufIn := List.length_replicate
  active _ := Client.lt_of_next
  running _ := by simp [StepB.start, Client.passed_next (P := P) (Nat.zero_le _)]
  loop _ := by
    refine ⟨⟨.inl rfl, .inl rfl, .inl ⟨fun ⟨_, hk⟩ => absurd hk List.not_mem_nil, ?_⟩⟩, ?_⟩
    · simp [StepB.start, Client.passed_next (P := P) (Nat.zero_le _)]
    · rintro ⟨k, drop, hl⟩
      cases hl
  done h := by cases h
  thrown _ h := by cases h

theorem Inv.step (h : Inv P l s) (hs : step P s a = some s') : Inv P (l ++ [a]) s' := by
  cases a with
  | clientSend => exact (h.clientSend hs).quiet (by simp) (by simp)
  | clientReceive => exact (h.clientReceive hs).quiet (by simp) (by simp)
  | clientTimeout => exact (h.clientTimeout hs).quiet (by simp) (by simp)
  | serverReceive drop => exact h.serverReceive hs
  | serverTimeout => exact (h.serverTimeout hs).quiet (by simp) (by simp)
  | serverFinish tcpPort secretB => exact (h.serverFinish hs).quiet (by simp) (by simp)
  | loseToServer k => exact (h.loseToServer hs).quiet (by simp) (by simp)
  | loseToClient k => exact h.loseToClient hs

theorem Inv.exec (h : (stepB P).exec (StepB.start P) l = some s) : Inv P l s := by
  induction l using List.reverseRecOn generalizing s with
  | nil => exact Option.some.inj h ▸ Inv.start
  | append_singleton l a ih =>
    obtain ⟨s₁, hs₁, hs⟩ := System.exec_concat.1 h
    exact (ih hs₁).step hs

/-- After every run, the server has thrown neither of the exceptions for a violation of the
    protocol, and has acknowledged the packets that the client is done with, if and only if
    it did not receive a datagram after the network had lost one of its own. -/
theorem survives_iff_not_late (h : (stepB P).exec (start P) l = some s) :
    s.Survives P ↔ ¬Late l := by
  obtain ⟨hacks, -, -, hactive, hrunning, hloop, hdone, hthrown⟩ := Inv.exec h
  have hpassed : ∀ i < s.client.passed P, i ∈ s.acks := by
    intro i hi
    have := (Inv.exec h).passed_le
    rw [hacks, List.mem_range]
    by_cases hserver : s.server = .done
    · have := (hdone hserver).1
      omega
    · have := hrunning hserver
      omega
  constructor
  · rintro ⟨hstate, hargument, -⟩
    cases hserver : s.server with
    | loop => exact (hloop hserver).2
    | done => exact (hdone hserver).2
    | thrown e =>
      rcases hthrown e hserver with ⟨-, hlate⟩ | ⟨rfl, -⟩
      · exact hlate
      · exact absurd hserver hstate
  · intro hlate
    refine ⟨fun hserver => ?_, fun hserver => ?_, hpassed⟩
    · rcases hthrown _ hserver with ⟨he, -⟩ | ⟨-, h⟩
      · cases he
      · exact hlate h
    · rcases hthrown _ hserver with ⟨he, -⟩ | ⟨he, -⟩ <;> cases he

end

/-- Two packets, without further payload. -/
def twoPackets : Params where
  num1 := 2
  len1 := 0
  secretA := 7
  id := 472
  portA := 50000
  portB := 50001
  num1_lt := by decide
  len1_lt := by decide

/-- The first packet is lost, sent again, and acknowledged. -/
def resent : List Action :=
  [.clientSend, .loseToServer 0, .clientTimeout, .clientSend, .serverReceive false, .clientReceive]

/-- Losing a packet does no harm. -/
theorem survives_resent : ∃ s, (stepB twoPackets).exec (start twoPackets) resent = some s ∧
    s.Survives twoPackets := by
  have hrun : ((stepB twoPackets).exec (start twoPackets) resent).isSome := by decide +kernel
  obtain ⟨s, hs⟩ := Option.isSome_iff_exists.1 hrun
  refine ⟨s, hs, (survives_iff_not_late hs).2 ?_⟩
  rintro ⟨k, drop, h⟩
  simpa [resent] using h.subset List.mem_cons_self

/-- The acknowledgement of the first packet is lost, and the packet sent again. -/
def unacknowledged : List Action :=
  [.clientSend, .serverReceive false, .loseToClient 0, .clientTimeout, .clientSend,
    .serverReceive false]

/-- Losing an acknowledgement makes the server throw at the packet sent again. -/
theorem not_survives_unacknowledged :
    ∃ s, (stepB twoPackets).exec (start twoPackets) unacknowledged = some s ∧
      ¬s.Survives twoPackets := by
  have hserver : ((stepB twoPackets).exec (start twoPackets) unacknowledged).map State.server =
      some (.thrown .illegalState) := by decide +kernel
  obtain ⟨s, hs, hthrown⟩ := Option.map_eq_some_iff.1 hserver
  exact ⟨s, hs, fun h => h.1 hthrown⟩

end Cse461.Secrets.StepB
