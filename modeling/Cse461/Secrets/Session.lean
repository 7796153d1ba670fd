import Cse461.Secrets.StepB

/-!
# A session

`main` of `Client.java` and, against it, `run` of `ServerThread.java`, through the
steps A to D. The threads take turns in any order; what they share is the network.

* Nothing is lost on the network, and the order is kept. A datagram is received by the
  socket open on its port; if there is none any more, it is discarded.
* A read from a TCP connection hands over a packet that was written as a whole.
* A socket times out when nothing else can happen. The timeout of the client (half a
  second) comes before the one of the server (three seconds).

The server's choices are in `Draws`, but for the acknowledgements that it drops, which
come with each step.
-/

namespace Cse461.Secrets.Session

open Library

/-- What the server draws, and the ports of the sockets: `portA` and `portB` are those
    of the client in the steps A and B. -/
structure Draws where
  num1 : Fin 50
  len1 : Fin 100
  num2 : Fin 50
  len2 : Fin 50
  secretA : Int32
  secretB : Int32
  secretC : Int32
  secretD : Int32
  c : UInt8
  udpPort : Int32
  tcpPort : Int32
  portA : ℕ
  portB : ℕ

/-- What the client reads of the response of step A. -/
structure Offer where
  num : Int32
  len : Int32
  udpPort : Int32
  secretA : Int32
  deriving DecidableEq

/-- What the client reads of the response of step C. -/
structure Demand where
  num : Int32
  len : Int32
  secretC : Int32
  c : UInt8
  deriving DecidableEq

/-- Where the client is, with what it has read so far. -/
inductive Client
  | sendA
  | receiveA
  | openB (o : Offer)
  | sendB (o : Offer) (i : ℕ)
  | receiveB (o : Offer) (i : ℕ)
  | final (o : Offer)
  | connect (secretA tcpPort secretB : Int32)
  | readC (secretA secretB : Int32)
  | writeD (secretA secretB : Int32) (t : Demand) (i : ℕ)
  | readD (secretA secretB secretC : Int32)
  | done (secretA secretB secretC secretD : Int32)
  | thrown (e : JavaException)
  deriving DecidableEq

/-- Where the server is: `Server.main` until it has received the datagram of step A, and
    the thread from then on. -/
inductive Server
  | listen
  | stepA (id : Int32) (clientPort : ℕ)
  | loop (id : Int32) (clientPort i : ℕ) (haveFailed : Bool) (bufIn : List UInt8)
  | accept (id : Int32)
  | stepD (id : Int32) (i : ℕ) (bufIn : List UInt8)
  | done
  | thrown (e : JavaException)
  deriving DecidableEq

/-- A datagram to the server. -/
structure Datagram where
  dest : Int32
  src : ℕ
  data : List UInt8
  deriving DecidableEq

/-- The two sides, the datagrams in flight (those to the client with their port), whether
    the client has connected, and the packets in the two directions of the connection. -/
structure State where
  client : Client
  server : Server
  toServer : List Datagram
  toClient : List (ℕ × List UInt8)
  connected : Bool
  up : List (List UInt8)
  down : List (List UInt8)
  deriving DecidableEq

/-- The steps of the two sides and of the network. -/
inductive Action
  | client
  | server (drop : Bool)
  | clientTimeout
  | serverTimeout
  | discardToClient
  | discardToServer
  deriving DecidableEq

/-- Go on if `x` throws nothing. -/
def State.clientTry {α : Type} (s : State) (x : Except JavaException α) (f : α → State) : State :=
  match x with
  | .ok a => f a
  | .error e => { s with client := .thrown e }

/-- Go on if `x` throws nothing. -/
def State.serverTry {α : Type} (s : State) (x : Except JavaException α) (f : α → State) : State :=
  match x with
  | .ok a => f a
  | .error e => { s with server := .thrown e }

/-- `toByteArray` of a `String`. -/
def toByteArrayString (s : List Char) : List UInt8 :=
  s.map (fun c => UInt8.ofNat c.toNat) ++ [0]

/-- The text of the datagram of step A. -/
def helloWorld : List Char := ['h', 'e', 'l', 'l', 'o', ' ', 'w', 'o', 'r', 'l', 'd']

/-- `new byte[n]`. -/
def newBytes (n : ℕ) : List UInt8 := List.replicate n 0

/-- The loop of `PacketUtil.read`, given how much has been read: `in.read(buf)` writes a
    packet over the start of the buffer, as far as it fits. `none` stands for a read
    that waits. -/
def readLoop (total : ℕ) (buf : List UInt8) :
    List (List UInt8) → Option (ℕ × List UInt8 × List (List UInt8))
  | [] => if total + sizeHeader < buf.length then none else some (total, buf, [])
  | p :: l =>
    if total + sizeHeader < buf.length then
      if p.length ≤ buf.length then
        readLoop (total + p.length) (StepB.receiveInto buf p) l
      else
        some (total + buf.length, p.take buf.length, p.drop buf.length :: l)
    else
      some (total, buf, p :: l)

/-- `PacketUtil.read`: whether it filled the buffer, the buffer, and what is left. -/
def read (buf : List UInt8) (l : List (List UInt8)) :
    Option (Bool × List UInt8 × List (List UInt8)) :=
  (readLoop 0 buf l).map fun r => (r.1 = buf.length, r.2)

section

variable (D : Draws)

/-! ## The client -/

/-- The datagram of step A. -/
def packetA : Except JavaException (List UInt8) :=
  packetizeClient (toByteArrayString helloWorld) [0, 0, 0, 0] ['a', '1']

/-- What `main` extracts from the response of step A. -/
def parseA (resA : List UInt8) : Except JavaException Offer := do
  let num ← extractInt resA sizeHeader
  let len ← extractInt resA (sizeHeader + sizeInt)
  let udpPort ← extractInt resA (sizeHeader + sizeInt * 2)
  let secretA ← extractInt resA (sizeHeader + sizeInt * 3)
  return ⟨num, len, udpPort, secretA⟩

/-- The datagram of packet `i`. -/
def packetB (o : Offer) (i : ℕ) : Except JavaException (List UInt8) :=
  if 4 + o.len < 0 then
    throw .negativeArraySize
  else if 4 + o.len < 4 then
    throw .arrayIndexOutOfBounds
  else
    packetizeClient (toByteArray (Int32.ofNat i) ++ newBytes o.len.toNatClampNeg)
      (toByteArray o.secretA) ['b', '1']

/-- The head of the loop of `stepB`. -/
def Client.nextB (o : Offer) (i : ℕ) : Client :=
  if (i : ℤ) < o.num.toInt then .sendB o i else .final o

/-- What `main` extracts from the response of step B. -/
def parseB (resB : List UInt8) : Except JavaException (Int32 × Int32) := do
  let tcpPort ← extractInt resB sizeHeader
  let secretB ← extractInt resB (sizeHeader + sizeInt)
  return (tcpPort, secretB)

/-- What `main` extracts from the response of step C, and the size of the payload that
    `stepD` makes. -/
def parseC (resC : List UInt8) : Except JavaException Demand := do
  let num ← extractInt resC sizeHeader
  let len ← extractInt resC (sizeHeader + sizeInt)
  let secretC ← extractInt resC (sizeHeader + sizeInt * 2)
  match resC[sizeHeader + sizeInt * 3]? with
  | none => throw .arrayIndexOutOfBounds
  | some c => if len < 0 then throw .negativeArraySize else return ⟨num, len, secretC, c⟩

/-- A packet of step D. -/
def packetD (t : Demand) : Except JavaException (List UInt8) :=
  packetizeClient (List.replicate t.len.toNatClampNeg t.c) (toByteArray t.secretC) ['d', '1']

/-- `socket.receive`, on the socket with this port. -/
def State.clientReceive (s : State) (port : ℕ) (f : State → List UInt8 → State) : Option State :=
  match s.toClient with
  | (p, d) :: l => if p = port then some (f { s with toClient := l } d) else none
  | [] => none

/-- The server accepts connections on `tcpPort`. -/
def Server.listens : Server → Bool
  | .accept _ => true
  | _ => false

/-- A step of the client. -/
def clientStep (s : State) : Option State :=
  match s.client with
  | .sendA => some (s.clientTry packetA fun d =>
      { s with client := .receiveA, toServer := s.toServer ++ [⟨12235, D.portA, d⟩] })
  | .receiveA => s.clientReceive D.portA fun s d =>
      s.clientTry (parseA (StepB.receiveInto (newBytes (sizeHeader + 4 * sizeInt)) d)) fun o =>
        { s with client := .openB o }
  | .openB o => some { s with client := .nextB o 0 }
  | .sendB o i => some (s.clientTry (packetB o i) fun d =>
      { s with client := .receiveB o i, toServer := s.toServer ++ [⟨o.udpPort, D.portB, d⟩] })
  | .receiveB o i => s.clientReceive D.portB fun s _ => { s with client := .nextB o (i + 1) }
  | .final o => s.clientReceive D.portB fun s d =>
      s.clientTry (parseB (StepB.receiveInto (newBytes (sizeHeader + 2 * sizeInt)) d)) fun r =>
        { s with client := .connect o.secretA r.1 r.2 }
  | .connect secretA tcpPort secretB =>
    if tcpPort = D.tcpPort ∧ s.server.listens then
      some { s with client := .readC secretA secretB, connected := true }
    else
      some { s with client := .thrown .connect }
  | .readC secretA secretB =>
    (read (newBytes (sizeHeader + 4 * sizeInt)) s.down).map fun r =>
      s.clientTry (parseC r.2.1) fun t =>
        { s with client := .writeD secretA secretB t 0, down := r.2.2 }
  | .writeD secretA secretB t i =>
    if (i : ℤ) < t.num.toInt then
      some (s.clientTry (packetD t) fun d =>
        { s with client := .writeD secretA secretB t (i + 1), up := s.up ++ [d] })
    else
      some { s with client := .readD secretA secretB t.secretC }
  | .readD secretA secretB secretC =>
    (read (newBytes (sizeHeader + sizeInt)) s.down).map fun r =>
      s.clientTry (extractInt r.2.1 sizeHeader) fun secretD =>
        { s with client := .done secretA secretB secretC secretD, down := r.2.2 }
  | .done _ _ _ _ | .thrown _ => none

/-! ## The server -/

/-- The constructor of `ServerThread`, which returns `record.id`. -/
def serverThread (data : List UInt8) : Except JavaException Int32 := do
  let valid ← validHeader 12 0 1 data
  let body := (data.drop sizeHeader).takeWhile (· ≠ 0)
  if ¬valid ∨ body ++ [0] ≠ toByteArrayString helloWorld then
    throw .illegalArgument
  else
    extractInt ([0, 0] ++ (data.drop (sizeInt * 2 + 2)).take 2) 0

/-- The response of step A. -/
def responseA (id : Int32) : Except JavaException (List UInt8) :=
  packetize (toByteArray (Int32.ofNat D.num1) ++ (toByteArray (Int32.ofNat D.len1) ++
    (toByteArray D.udpPort ++ toByteArray D.secretA))) (newBytes sizeInt) ['a', '2'] id

/-- What `stepB` of the server goes by. -/
def Draws.params (id : Int32) : StepB.Params where
  num1 := D.num1
  len1 := D.len1
  secretA := D.secretA
  id := id
  portA := D.portA
  portB := D.portB
  num1_lt := by omega
  len1_lt := D.len1.isLt

/-- The response of step C. -/
def responseC (id : Int32) : Except JavaException (List UInt8) :=
  packetize (toByteArray (Int32.ofNat D.num2) ++ (toByteArray (Int32.ofNat D.len2) ++
    (toByteArray D.secretC ++ [D.c]))) (toByteArray D.secretB) ['c', '2'] id

/-- The size of `bufIn` in `stepD`. -/
def sizeD : ℕ := sizeHeader + (D.len2 + padding D.len2)

/-- The checks that a packet of step D goes through, given what `read` returned. -/
def checkD (filled : Bool) (bufIn : List UInt8) : Except JavaException Unit := do
  unless filled do
    throw .illegalArgument
  unless (← validHeader (Int32.ofNat D.len2) D.secretC 1 bufIn) do
    throw .illegalArgument
  unless ((bufIn.drop sizeHeader).take D.len2).all (· = D.c) do
    throw .illegalArgument

/-- The response of step D. -/
def responseD (id : Int32) : Except JavaException (List UInt8) :=
  packetize (toByteArray D.secretD) (toByteArray D.secretC) ['d', '2'] id

/-- `udpSocket.receive`, on the socket with this port. -/
def State.serverReceive (s : State) (port : Int32) (f : State → Datagram → State) :
    Option State :=
  match s.toServer with
  | g :: l => if g.dest = port then some (f { s with toServer := l } g) else none
  | [] => none

/-- A step of the server. -/
def serverStep (s : State) (drop : Bool) : Option State :=
  match s.server with
  | .listen => s.serverReceive 12235 fun s g =>
      match serverThread (StepB.receiveInto (newBytes (sizeHeader + (helloWorld ++ [' ']).length))
        g.data) with
      | .ok id => { s with server := .stepA id g.src }
      | .error _ => s
  | .stepA id port => some (s.serverTry (responseA D id) fun d =>
      { s with
        server := .loop id port 0 false (newBytes (StepB.packetSize (D.params id)))
        toClient := s.toClient ++ [(port, d)] })
  | .loop id port i haveFailed bufIn =>
    if i < D.num1 then
      s.serverReceive D.udpPort fun s g =>
        let bufIn := StepB.receiveInto bufIn g.data
        s.serverTry (StepB.checkPacket (D.params id) i bufIn) fun _ =>
          if drop ∨ (i = D.num1 - 1 ∧ ¬haveFailed) then
            { s with server := .loop id g.src i true bufIn }
          else
            s.serverTry (StepB.acknowledgement (D.params id) i) fun d =>
              { s with
                server := .loop id g.src (i + 1) haveFailed bufIn
                toClient := s.toClient ++ [(g.src, d)] }
    else
      some (s.serverTry (StepB.finalResponse (D.params id) D.tcpPort D.secretB) fun d =>
        { s with server := .accept id, toClient := s.toClient ++ [(port, d)] })
  | .accept id =>
    if s.connected then
      some (s.serverTry (responseC D id) fun d =>
        { s with server := .stepD id 0 (newBytes (sizeD D)), down := s.down ++ [d] })
    else
      none
  | .stepD id i bufIn =>
    if i < D.num2 then
      (read bufIn s.up).map fun r =>
        s.serverTry (checkD D r.1 r.2.1) fun _ =>
          { s with server := .stepD id (i + 1) r.2.1, up := r.2.2 }
    else
      some (s.serverTry (responseD D id) fun d =>
        { s with server := .done, down := s.down ++ [d] })
  | .done | .thrown _ => none

/-! ## The system -/

/-- The timeout of the client's socket in `stepB`. -/
def Client.timedOut : Client → Option Client
  | .receiveB o i => some (.sendB o i)
  | .final _ => some (.thrown .socketTimeout)
  | _ => none

/-- The timeouts of the server. `read` catches its own and returns false. -/
def Server.timedOut : Server → Option Server
  | .loop _ _ _ _ _ | .accept _ => some (.thrown .socketTimeout)
  | .stepD _ _ _ => some (.thrown .illegalArgument)
  | _ => none

/-- The port on which the client receives datagrams. -/
def Client.port : Client → Option ℕ
  | .sendA | .receiveA => some D.portA
  | .sendB _ _ | .receiveB _ _ | .final _ => some D.portB
  | _ => none

/-- The port on which the thread receives datagrams. -/
def Server.port : Server → Option Int32
  | .stepA _ _ | .loop _ _ _ _ _ => some D.udpPort
  | _ => none

/-- A step. -/
def step (s : State) : Action → Option State
  | .client => clientStep D s
  | .server drop => serverStep D s drop
  | .clientTimeout =>
    if s.toServer = [] ∧ s.toClient = [] ∧ serverStep D s false = none then
      s.client.timedOut.map fun c => { s with client := c }
    else
      none
  | .serverTimeout =>
    if s.toServer = [] ∧ s.toClient = [] ∧ serverStep D s false = none ∧ clientStep D s = none ∧
        s.client.timedOut = none then
      s.server.timedOut.map fun v => { s with server := v }
    else
      none
  | .discardToClient =>
    match s.toClient with
    | (p, _) :: l => if s.client.port D = some p then none else some { s with toClient := l }
    | [] => none
  | .discardToServer =>
    match s.toServer with
    | g :: l =>
      if g.dest = 12235 ∨ s.server.port D = some g.dest then none
      else some { s with toServer := l }
    | [] => none

/-- The state before the client is started. -/
def start : State where
  client := .sendA
  server := .listen
  toServer := []
  toClient := []
  connected := false
  up := []
  down := []

/-- The client against the server. -/
def session : System State Action where
  init s := s = start
  step := step D

/-- Both are done, and the secrets that the client prints are those of the record. -/
def State.Agreed (s : State) : Prop :=
  s.client = .done D.secretA D.secretB D.secretC D.secretD ∧ s.server = .done

/-- Every run goes through: nobody rejects a packet, nobody waits for what does not come,
    and the two agree at the end, which comes unless acknowledgements are dropped for ever. -/
structure Completes : Prop where
  accepted : ∀ s, (session D).Reachable s → ∀ e, s.client ≠ .thrown e ∧ s.server ≠ .thrown e
  delivered : ∀ s, (session D).Reachable s → (∀ a, step D s a = none) → s.Agreed D
  ends : ∃ n, ∀ l s, (session D).exec start l = some s → l.length ≤ n + 3 * l.count (.server true)

end

/-! ## What is exchanged -/

/-- A packet is its header, its payload and its padding. -/
theorem packetize_eq_ok (payload prevSecret : List UInt8) (step : List Char) (id : Int32)
    {digit : UInt8} (hsecret : prevSecret.length = 4) (hstep : parseStep step = .ok digit) :
    ∃ hdr zeros,
      packetize payload prevSecret step id = .ok (hdr ++ (payload ++ zeros)) ∧
        hdr.length = sizeHeader ∧ zeros.length = padding (sizeHeader + payload.length) := by
  refine ⟨header payload.length digit prevSecret ((toByteArray id).drop 2),
    List.replicate (padding (sizeHeader + payload.length)) 0, ?_, length_header hsecret rfl,
    List.length_replicate⟩
  rw [packetize, packet, if_neg (fun h => h hsecret), hstep]
  rfl

/-- A packet of the size of the buffer is read as a whole. -/
theorem read_eq {buf p : List UInt8} {l : List (List UInt8)} (hbuf : sizeHeader < buf.length)
    (h : p.length = buf.length) : read buf (p :: l) = some (true, p, l) := by
  have hend : ∀ r, readLoop (0 + p.length) p r = some (p.length, p, r) := by
    intro r
    cases r with
    | nil => rw [readLoop, if_neg (by omega), Nat.zero_add]
    | cons q r => rw [readLoop, if_neg (by omega), Nat.zero_add]
  rw [read, readLoop, if_pos (by omega), if_pos h.le, StepB.receiveInto_of_length_eq h, hend]
  simp [h]

/-- A read waits as long as there is no packet. -/
theorem read_nil {buf : List UInt8} (hbuf : sizeHeader < buf.length) : read buf [] = none := by
  rw [read, readLoop, if_pos (by omega)]
  rfl

/-- With a buffer for a header only, nothing is read, and `read` reports an error. -/
theorem read_header {buf : List UInt8} (hbuf : buf.length = sizeHeader)
    (l : List (List UInt8)) : read buf l = some (false, buf, l) := by
  cases l with
  | nil =>
    rw [read, readLoop, if_neg (by omega)]
    simp [hbuf, sizeHeader]
  | cons p l =>
    rw [read, readLoop, if_neg (by omega)]
    simp [hbuf, sizeHeader]

section

variable (D : Draws)

/-- What the client reads of the response of step A. -/
def Draws.offer : Offer :=
  ⟨Int32.ofNat D.num1, Int32.ofNat D.len1, D.udpPort, D.secretA⟩

/-- What the client reads of the response of step C. -/
def Draws.demand : Demand :=
  ⟨Int32.ofNat D.num2, Int32.ofNat D.len2, D.secretC, D.c⟩

variable {D}

theorem receiveInto_newBytes {n : ℕ} {d : List UInt8} (h : d.length = n) :
    StepB.receiveInto (newBytes n) d = d :=
  StepB.receiveInto_of_length_eq (h.trans List.length_replicate.symm)

/-- The server accepts the datagram of step A. -/
theorem packetA_eq_ok : ∃ d, packetA = .ok d ∧
    serverThread (StepB.receiveInto (newBytes (sizeHeader + (helloWorld ++ [' ']).length)) d) =
      .ok 472 :=
  ⟨_, rfl, by decide +kernel⟩

/-- The client reads the response of step A as it was meant. -/
theorem responseA_eq_ok (D : Draws) (id : Int32) : ∃ d, responseA D id = .ok d ∧
    parseA (StepB.receiveInto (newBytes (sizeHeader + 4 * sizeInt)) d) = .ok D.offer := by
  set fields := [Int32.ofNat D.num1, Int32.ofNat D.len1, D.udpPort, D.secretA]
  have hpayload : toByteArray (Int32.ofNat D.num1) ++ (toByteArray (Int32.ofNat D.len1) ++
      (toByteArray D.udpPort ++ toByteArray D.secretA)) = fields.flatMap toByteArray := by
    simp [fields]
  obtain ⟨hdr, zeros, hd, hhdr, hzeros⟩ := packetize_eq_ok (fields.flatMap toByteArray)
    (newBytes sizeInt) ['a', '2'] id rfl rfl
  rw [responseA, hpayload]
  refine ⟨_, hd, ?_⟩
  rw [receiveInto_newBytes (by simp [fields, hhdr, hzeros, sizeInt, sizeHeader, padding]), parseA]
  have hfield : ∀ k n, fields[k]? = some n → extractInt (hdr ++ (fields.flatMap toByteArray ++
      zeros)) (sizeHeader + sizeInt * k) = .ok n := fun k n => extractInt_payload hhdr
  have hnum := hfield 0 _ rfl
  have hlen := hfield 1 _ rfl
  rw [Nat.mul_zero, Nat.add_zero] at hnum
  rw [Nat.mul_one] at hlen
  rw [hnum, hlen, hfield 2 _ rfl, hfield 3 _ rfl]
  rfl

/-- The client reads the response of step B as it was meant. -/
theorem finalResponse_eq_ok (P : StepB.Params) (tcpPort secretB : Int32) :
    ∃ d, StepB.finalResponse P tcpPort secretB = .ok d ∧
      parseB (StepB.receiveInto (newBytes (sizeHeader + 2 * sizeInt)) d) =
        .ok (tcpPort, secretB) := by
  set fields := [tcpPort, secretB]
  have hpayload : toByteArray tcpPort ++ toByteArray secretB = fields.flatMap toByteArray := by
    simp [fields]
  obtain ⟨hdr, zeros, hd, hhdr, hzeros⟩ := packetize_eq_ok (fields.flatMap toByteArray)
    (toByteArray P.secretA) ['b', '2'] P.id rfl rfl
  rw [StepB.finalResponse, hpayload]
  refine ⟨_, hd, ?_⟩
  rw [receiveInto_newBytes (by simp [fields, hhdr, hzeros, sizeInt, sizeHeader, padding]), parseB]
  have hfield : ∀ k n, fields[k]? = some n → extractInt (hdr ++ (fields.flatMap toByteArray ++
      zeros)) (sizeHeader + sizeInt * k) = .ok n := fun k n => extractInt_payload hhdr
  have htcpPort := hfield 0 _ rfl
  have hsecretB := hfield 1 _ rfl
  rw [Nat.mul_zero, Nat.add_zero] at htcpPort
  rw [Nat.mul_one] at hsecretB
  rw [htcpPort, hsecretB]
  rfl

/-- The client reads the response of step C as it was meant. -/
theorem responseC_eq_ok (D : Draws) (id : Int32) : ∃ d, responseC D id = .ok d ∧
    d.length = sizeHeader + 4 * sizeInt ∧ parseC d = .ok D.demand := by
  set fields := [Int32.ofNat D.num2, Int32.ofNat D.len2, D.secretC]
  have hpayload : toByteArray (Int32.ofNat D.num2) ++ (toByteArray (Int32.ofNat D.len2) ++
      (toByteArray D.secretC ++ [D.c])) = fields.flatMap toByteArray ++ [D.c] := by
    simp [fields]
  obtain ⟨hdr, zeros, hd, hhdr, hzeros⟩ := packetize_eq_ok (fields.flatMap toByteArray ++ [D.c])
    (toByteArray D.secretB) ['c', '2'] id rfl rfl
  rw [responseC, hpayload]
  refine ⟨_, hd, by simp [fields, hhdr, hzeros, sizeInt, sizeHeader, padding], ?_⟩
  rw [parseC, List.append_assoc]
  have hfield : ∀ k n, fields[k]? = some n → extractInt (hdr ++ (fields.flatMap toByteArray ++
      ([D.c] ++ zeros))) (sizeHeader + sizeInt * k) = .ok n := fun k n => extractInt_payload hhdr
  have hnum := hfield 0 _ rfl
  have hlen := hfield 1 _ rfl
  rw [Nat.mul_zero, Nat.add_zero] at hnum
  rw [Nat.mul_one] at hlen
  have hc : (hdr ++ (fields.flatMap toByteArray ++ ([D.c] ++ zeros)))[sizeHeader + sizeInt * 3]? =
      some D.c := by
    rw [← List.append_assoc, List.getElem?_append_right (by simp [fields, hhdr, sizeInt])]
    simp [fields, hhdr, sizeInt]
  have hnonneg : ¬Int32.ofNat D.len2 < 0 := by
    have : ∀ n : Fin 50, ¬Int32.ofNat n < 0 := by decide
    exact this D.len2
  rw [hnum, hlen, hfield 2 _ rfl, hc]
  simp only [bind, Except.bind, if_neg hnonneg]
  rfl

/-- The client reads the response of step D as it was meant. -/
theorem responseD_eq_ok (D : Draws) (id : Int32) : ∃ d, responseD D id = .ok d ∧
    d.length = sizeHeader + sizeInt ∧ extractInt d sizeHeader = .ok D.secretD := by
  obtain ⟨hdr, zeros, hd, hhdr, hzeros⟩ := packetize_eq_ok (toByteArray D.secretD)
    (toByteArray D.secretC) ['d', '2'] id rfl rfl
  refine ⟨_, hd, by simp [hhdr, hzeros, sizeInt, sizeHeader, padding], ?_⟩
  exact extractInt_toByteArray hhdr D.secretD

/-- The client sends in step B what `StepB` says. -/
theorem packetB_offer (D : Draws) (id : Int32) (i : ℕ) :
    packetB D.offer i = StepB.clientPacket (D.params id) i := by
  have hlen : ∀ n : Fin 100, ¬4 + Int32.ofNat n < 0 ∧ ¬4 + Int32.ofNat n < 4 ∧
      (Int32.ofNat n).toNatClampNeg = n := by decide
  obtain ⟨hneg, hsmall, heq⟩ := hlen D.len1
  rw [packetB, Draws.offer, if_neg hneg, if_neg hsmall, heq]
  rfl

/-- The server accepts the packets of step D, if it reads them as a whole. -/
theorem packetD_eq_ok (D : Draws) : ∃ d, packetD D.demand = .ok d ∧ d.length = sizeD D ∧
    checkD D true d = .ok () := by
  have hlen : ∀ n : Fin 50, (Int32.ofNat n).toNatClampNeg = n ∧
      12 + Int32.ofNat n ≤ Int32.ofNat (12 + (n + padding (sizeHeader + n))) ∧
      padding (sizeHeader + n) = padding n := by decide
  obtain ⟨heq, hfits, hpadding⟩ := hlen D.len2
  set body := List.replicate D.len2 D.c ++
    List.replicate (padding (sizeHeader + D.len2)) (0 : UInt8) with hbody
  set hdr := header D.len2 1 (toByteArray D.secretC) [0x1, 0xD8]
  have hhdr : hdr.length = sizeHeader := length_header rfl rfl
  have hlength : body.length = D.len2 + padding (sizeHeader + D.len2) := by
    simp [body]
  have hpacket : packetD D.demand = .ok (hdr ++ body) := by
    rw [packetD, Draws.demand, packetizeClient, packet, if_neg (by rw [length_toByteArray]; decide)]
    simp only [heq, List.length_replicate]
    rfl
  have hvalid : validHeader (Int32.ofNat D.len2) D.secretC 1 (hdr ++ body) = .ok true := by
    rw [validHeader_header, hlength]
    have hid : 0 ≤ Int32.ofNat (256 * (0x1 : UInt8).toNat + (0xD8 : UInt8).toNat) ∧
        Int32.ofNat (256 * (0x1 : UInt8).toNat + (0xD8 : UInt8).toNat) ≤ 999 := by decide
    exact congrArg Except.ok (decide_eq_true ⟨⟨rfl, hfits⟩, rfl, rfl, hid⟩)
  have hc : (((hdr ++ body).drop sizeHeader).take D.len2).all (· = D.c) = true := by
    rw [← hhdr, List.drop_left, hbody, List.take_left' List.length_replicate, List.all_eq_true]
    exact fun b hb => decide_eq_true (List.eq_of_mem_replicate hb)
  refine ⟨_, hpacket, ?_, ?_⟩
  · rw [List.length_append, hhdr, hlength, hpadding, sizeD]
  · rw [checkD, hvalid]
    simp only [bind, Except.bind, hc, if_true]
    rfl

end

end Cse461.Secrets.Session
