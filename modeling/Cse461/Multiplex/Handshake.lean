import Cse461.Library.ByteOrder
import Cse461.Library.Transition
import Cse461.Multiplex.BounceBack

/-!
# The handshake

`main` of `server.c` and of `client.c`, until the connections of a client are open. The client
sends the number of its connections in a datagram; the server binds a new socket to a port drawn
at random, sends the port back, and starts a thread of `serve_client` that accepts the
connections; the client opens them one after the other, over its network interfaces.

* There are any number of clients. The network loses, repeats and reorders datagrams: one that was
  sent may be received at any time, again and again, or never. Anybody may send to the server.
* Nobody but the server sends to a client, and only clients connect.
* `connect` of a client returns before the connection is complete at the server. It may
  be completed at any time after that, before or after the others, or never.
* `bind` fails on a port that another thread has, and the loop of `bind_random_port` goes on. No
  socket is closed.

In any run, each thread has the connections of one client only, and none of them twice; a client
that is through has all of them on one thread, which knows their number, and a thread that is
through has accepted all connections of its client (`Paired`). Nothing is said of the order in
which a thread accepts them.
-/

namespace Cse461.Multiplex.Handshake

open Library

/-- At the other end of a datagram. -/
inductive Peer (ι : Type)
  | client (i : ι)
  | other
  deriving DecidableEq

/-- Where `main` of a client is. -/
inductive Client
  /-- Before `send_udp`. -/
  | start
  /-- `recieve_udp`. -/
  | waiting
  /-- The loop around `open_tcp`, in its round `i`. -/
  | connecting (port : UInt16) (i : ℕ)
  /-- After the loop. -/
  | connected (port : UInt16)
  | exited
  deriving DecidableEq

/-- A thread of `serve_client`, with its socket. A connection is known by its client and by its
    number there. -/
structure ServeClient (ι : Type) where
  numConn : Int32
  port : UInt16
  /-- Whom the port was sent to. Nothing reads it. -/
  peer : Peer ι
  listening : Bool
  /-- The connections for which `connect` returned, and that are not complete yet. -/
  pending : List (ι × ℕ)
  /-- The connections that are complete, and not accepted yet. -/
  backlog : List (ι × ℕ)
  accepted : List (ι × ℕ)

/-- The clients, the datagrams that were sent, and the threads of the server. -/
structure State (ι : Type) where
  client : ι → Client
  toServer : List (Peer ι × List UInt8)
  toClient : List (Peer ι × List UInt8)
  threads : List (ServeClient ι)

/-- What may happen next. -/
inductive Action (ι : Type)
  /-- A client sends the number of its connections. -/
  | send (i : ι)
  /-- Somebody else sends a datagram to the server. -/
  | inject (d : List UInt8)
  /-- The server receives the `k`-th of the datagrams, and `rand` returns `rand` in the last round
      of `bind_random_port`. -/
  | serve (k rand : ℕ)
  /-- A client receives the `k`-th of the datagrams. -/
  | receive (i : ι) (k : ℕ)
  | timeout (i : ι)
  /-- `connect` of a client returns 0. -/
  | connect (i : ι)
  /-- The `k`-th of the connections that a port waits for is complete. -/
  | complete (port : UInt16) (k : ℕ)
  /-- `open_tcp` of a client returns -1. -/
  | fail (i : ι)
  /-- `listen` of the thread on a port. -/
  | listen (port : UInt16)
  /-- `accept` of the thread on a port. -/
  | accept (port : UInt16)

variable {ι : Type}

/-! ## The functions -/

/-- The bytes of `htonl(num_conn)`. -/
def htonl (numConn : Int32) : List UInt8 := ByteOrder.big.bytes32 numConn.toUInt32

/-- The bytes of `htons(port)`. -/
def htons (port : UInt16) : List UInt8 := [(port / 256).toUInt8, port.toUInt8]

/-- `ntohs` of the bytes that were received. -/
def ntohs : List UInt8 → Option UInt16
  | hi :: lo :: _ => some (hi.toUInt16 * 256 + lo.toUInt16)
  | _ => none

/-- `ntohl(arg->num_conn)`, where the datagram has as many bytes, and the number is not out of
    range. -/
def validate (d : List UInt8) : Option Int32 :=
  match ByteOrder.big.word32 d with
  | none => none
  | some n => if Int32.ofNat maxConn < n.toInt32 ∨ n.toInt32 < 0 then none else some n.toInt32

/-- `(rand() % port_range) + 256`. -/
def randomPort (rand : ℕ) : UInt16 := UInt16.ofNat (rand % (65524 - 256) + 256)

/-- The head of the loop around `open_tcp`. -/
def Client.next (numConn : Int32) (port : UInt16) (i : ℕ) : Client :=
  if (i : ℤ) < numConn.toInt then .connecting port i else .connected port

/-- The port that a client got. -/
def Client.port : Client → Option UInt16
  | .connecting port _ | .connected port => some port
  | .start | .waiting | .exited => none

/-- The loop of `serve_client`: `accept` returns the connection that was complete first. -/
def ServeClient.accept (t : ServeClient ι) : ServeClient ι :=
  if (t.accepted.length : ℤ) < t.numConn.toInt then
    { t with accepted := t.accepted ++ t.backlog.take 1, backlog := t.backlog.drop 1 }
  else
    t

/-- The client `i` opens its connection `j`. -/
def ServeClient.connect (t : ServeClient ι) (i : ι) (j : ℕ) : ServeClient ι :=
  { t with pending := t.pending ++ [(i, j)] }

/-- The connection `k` is complete. -/
def ServeClient.complete (t : ServeClient ι) (k : ℕ) : ServeClient ι :=
  { t with backlog := t.backlog ++ t.pending[k]?.toList, pending := t.pending.eraseIdx k }

/-- The connections of a thread: those that were accepted, and those that are to be. -/
def ServeClient.connections (t : ServeClient ι) : List (ι × ℕ) :=
  t.accepted ++ (t.backlog ++ t.pending)

/-- Change the thread on a port. -/
def onPort (port : UInt16) (f : ServeClient ι → ServeClient ι) (threads : List (ServeClient ι)) :
    List (ServeClient ι) :=
  threads.map fun t => if t.port = port then f t else t

section

variable [DecidableEq ι] (numConn : ι → Int32)

/-- A step, where the client `i` was started with `numConn i` addresses. -/
def step (s : State ι) : Action ι → Option (State ι)
  | .send i =>
    match s.client i with
    | .start => some { s with
        client := Function.update s.client i .waiting
        toServer := s.toServer ++ [(.client i, htonl (numConn i))] }
    | _ => none
  | .inject d => some { s with toServer := s.toServer ++ [(.other, d)] }
  | .serve k rand =>
    match s.toServer[k]? with
    | none => none
    | some (src, d) =>
      match validate d with
      | none => some s
      | some n =>
        if randomPort rand ∈ s.threads.map ServeClient.port then
          none
        else
          some { s with
            toClient := s.toClient ++ [(src, htons (randomPort rand))]
            threads := s.threads ++ [⟨n, randomPort rand, src, false, [], [], []⟩] }
  | .receive i k =>
    match s.client i, s.toClient[k]? with
    | .waiting, some (dest, d) =>
      if dest = .client i then
        (ntohs d).map fun port =>
          { s with client := Function.update s.client i (.next (numConn i) port 0) }
      else
        none
    | _, _ => none
  | .timeout i =>
    match s.client i with
    | .waiting => some { s with client := Function.update s.client i .exited }
    | _ => none
  | .connect i =>
    match s.client i with
    | .connecting port j =>
      if s.threads.any fun t => t.port = port ∧ t.listening then
        some { s with
          client := Function.update s.client i (.next (numConn i) port (j + 1))
          threads := onPort port (fun t => t.connect i j) s.threads }
      else
        none
    | _ => none
  | .complete port k =>
    some { s with threads := onPort port (fun t => t.complete k) s.threads }
  | .fail i =>
    match s.client i with
    | .connecting _ _ => some { s with client := Function.update s.client i .exited }
    | _ => none
  | .listen port =>
    some { s with threads := onPort port (fun t => { t with listening := true }) s.threads }
  | .accept port => some { s with threads := onPort port ServeClient.accept s.threads }

/-- Before any client is started. -/
def start : State ι := ⟨fun _ => .start, [], [], []⟩

/-- The clients and the server. -/
def handshake : System (State ι) (Action ι) where
  init s := s = start
  step := step numConn

/-- The first `j` connections of a client. -/
def opened (i : ι) (j : ℕ) : List (ι × ℕ) := (List.range j).map fun k => (i, k)

/-- All connections of a client. -/
def allOpened (i : ι) : List (ι × ℕ) := opened i (numConn i).toNatClampNeg

/-- The clients and the threads belong together. -/
structure Paired (s : State ι) : Prop where
  ports : (s.threads.map ServeClient.port).Nodup
  own : ∀ i i' port, (s.client i).port = some port → (s.client i').port = some port → i = i'
  threads : ∀ t ∈ s.threads, t.connections = [] ∨ ∃ i j,
    t.connections.Perm (opened i j) ∧ t.numConn = numConn i ∧ (j : ℤ) ≤ t.numConn.toInt
  connected : ∀ i port, s.client i = .connected port → ∃ t ∈ s.threads,
    t.port = port ∧ t.numConn = numConn i ∧ t.connections.Perm (allOpened numConn i)
  accepted : ∀ t ∈ s.threads, t.accepted ≠ [] → (t.accepted.length : ℤ) = t.numConn.toInt →
    ∃ i, t.numConn = numConn i ∧ t.accepted.Perm (allOpened numConn i)
  refused : ∀ i, Int32.ofNat maxConn < numConn i → (s.client i).port = none

/-! ## The invariant -/

/-- The port of a client, and how many of its connections are open. -/
def Client.place (n : Int32) : Client → Option (UInt16 × ℕ)
  | .connecting port j => some (port, j)
  | .connected port => some (port, n.toNatClampNeg)
  | .start | .waiting | .exited => none

/-- The invariant. -/
structure Inv (s : State ι) : Prop where
  hellos : ∀ i d, (Peer.client i, d) ∈ s.toServer → d = htonl (numConn i)
  replies : ∀ r ∈ s.toClient, ∃ t ∈ s.threads, r = (t.peer, htons t.port)
  ports : (s.threads.map ServeClient.port).Nodup
  number : ∀ t ∈ s.threads, ∀ i, t.peer = .client i →
    t.numConn = numConn i ∧ numConn i ≤ Int32.ofNat maxConn
  -- The client has not read its reply yet.
  fresh : ∀ i, s.client i = .start ∨ s.client i = .waiting → ∀ t ∈ s.threads,
    t.peer = .client i → t.connections = []
  clients : ∀ i port j, (s.client i).place (numConn i) = some (port, j) → ∃ t ∈ s.threads,
    t.peer = .client i ∧ t.port = port ∧ t.connections.Perm (opened i j)
  lt : ∀ i port j, s.client i = .connecting port j → (j : ℤ) < (numConn i).toInt
  threads : ∀ t ∈ s.threads, t.connections = [] ∨ ∃ i j, t.peer = .client i ∧
    t.connections.Perm (opened i j) ∧ (j : ℤ) ≤ (numConn i).toInt

end

/-! ### What is read back -/

theorem ntohs_htons (port : UInt16) : ntohs (htons port) = some port := by
  refine congrArg some (UInt16.toNat.inj ?_)
  have := port.toNat_lt
  simp
  omega

/-- A number that the server accepts is the one that was sent. -/
theorem validate_htonl {n m : Int32} (h : validate (htonl n) = some m) :
    m = n ∧ n ≤ Int32.ofNat maxConn := by
  have hword : ByteOrder.big.word32 (htonl n) = some n.toUInt32 := by
    have h := ByteOrder.word32_bytes32 .big n.toUInt32 []
    rwa [List.append_nil] at h
  rw [validate, hword] at h
  dsimp only at h
  rw [Int32.toInt32_toUInt32] at h
  split at h
  · cases h
  · next hrange =>
    obtain rfl := Option.some.inj h
    exact ⟨rfl, Int32.not_lt.1 fun hlt => hrange (.inl hlt)⟩

theorem opened_succ (i : ι) (j : ℕ) : opened i (j + 1) = opened i j ++ [(i, j)] := by
  rw [opened, List.range_succ, List.map_append]
  rfl

theorem place_next {n : Int32} (port : UInt16) {j : ℕ} (hj : j = 0 ∨ (j : ℤ) ≤ n.toInt) :
    (Client.next n port j).place n = some (port, j) := by
  rw [Client.next]
  split
  · rfl
  · have hn : n.toNatClampNeg = j := by
      rw [Int32.toNatClampNeg]
      omega
    rw [Client.place, hn]

theorem lt_of_next_eq {n : Int32} {port port' : UInt16} {j j' : ℕ}
    (h : Client.next n port j = .connecting port' j') : (j' : ℤ) < n.toInt := by
  rw [Client.next] at h
  split at h
  · next hj =>
    obtain ⟨-, rfl⟩ := Client.connecting.inj h
    exact hj
  · cases h

theorem next_ne (n : Int32) (port : UInt16) (j : ℕ) :
    ¬(Client.next n port j = .start ∨ Client.next n port j = .waiting) := by
  rw [Client.next]
  split
  · simp
  · simp

theorem exists_place {c : Client} {port : UInt16} (n : Int32) (h : c.port = some port) :
    ∃ j, c.place n = some (port, j) := by
  cases c with
  | connecting port' j =>
    obtain rfl := Option.some.inj h
    exact ⟨j, rfl⟩
  | connected port' =>
    obtain rfl := Option.some.inj h
    exact ⟨_, rfl⟩
  | start | waiting | exited => cases h

/-! ### The threads -/

theorem ServeClient.connections_connect {t : ServeClient ι} {i : ι} {j : ℕ}
    (h : t.connections.Perm (opened i j)) :
    (t.connect i j).connections.Perm (opened i (j + 1)) := by
  have hconnect : (t.connect i j).connections = t.connections ++ [(i, j)] := by
    simp [connections, connect]
  rw [hconnect, opened_succ]
  exact h.append_right _

/-- A connection that is complete is still there. -/
theorem ServeClient.connections_complete (t : ServeClient ι) (k : ℕ) :
    (t.complete k).connections.Perm t.connections := by
  have hpending : (t.pending[k]?.toList ++ t.pending.eraseIdx k).Perm t.pending := by
    by_cases hk : k < t.pending.length
    · rw [List.getElem?_eq_getElem hk]
      exact List.getElem_cons_eraseIdx_perm hk
    · rw [List.getElem?_eq_none (not_lt.1 hk), List.eraseIdx_of_length_le (not_lt.1 hk)]
      exact .refl _
  change (t.accepted ++ (t.backlog ++ _ ++ _)).Perm (t.accepted ++ (t.backlog ++ _))
  rw [List.append_assoc]
  exact (hpending.append_left _).append_left _

theorem ServeClient.connections_accept (t : ServeClient ι) :
    t.accept.connections = t.connections := by
  rw [ServeClient.accept]
  split
  · simp only [connections, List.append_assoc]
    rw [← List.append_assoc (t.backlog.take 1), List.take_append_drop]
  · rfl

theorem length_opened (i : ι) (j : ℕ) : (opened i j).length = j := by simp [opened]

/-- As the ports are distinct, one thread is changed. -/
theorem mem_onPort {threads : List (ServeClient ι)} {t t' : ServeClient ι}
    {f : ServeClient ι → ServeClient ι} (hports : (threads.map ServeClient.port).Nodup)
    (ht : t ∈ threads) :
    t' ∈ onPort t.port f threads ↔ t' = f t ∨ (t' ∈ threads ∧ t'.port ≠ t.port) := by
  rw [onPort, List.mem_map]
  constructor
  · rintro ⟨t₁, ht₁, rfl⟩
    by_cases hport : t₁.port = t.port
    · obtain rfl := List.inj_on_of_nodup_map hports ht₁ ht hport
      exact .inl (if_pos rfl)
    · rw [if_neg hport]
      exact .inr ⟨ht₁, hport⟩
  · rintro (rfl | ⟨ht', hport⟩)
    · exact ⟨t, ht, if_pos rfl⟩
    · exact ⟨t', ht', if_neg hport⟩

theorem map_port_onPort {port : UInt16} {f : ServeClient ι → ServeClient ι}
    (hf : ∀ t, (f t).port = t.port) (threads : List (ServeClient ι)) :
    (onPort port f threads).map ServeClient.port = threads.map ServeClient.port := by
  rw [onPort, List.map_map]
  refine List.map_congr_left fun t _ => ?_
  rw [Function.comp_apply]
  split
  · exact hf t
  · rfl

/-! ### The steps -/

section

variable {numConn : ι → Int32} {s s' : State ι} {i : ι}

/-- What the invariant comes to. -/
theorem Inv.paired (h : Inv numConn s) : Paired numConn s where
  ports := h.ports
  own i i' port hi hi' := by
    obtain ⟨j, hj⟩ := exists_place (numConn i) hi
    obtain ⟨j', hj'⟩ := exists_place (numConn i') hi'
    obtain ⟨t, ht, hpeer, hport, -⟩ := h.clients i port j hj
    obtain ⟨t', ht', hpeer', hport', -⟩ := h.clients i' port j' hj'
    obtain rfl := List.inj_on_of_nodup_map h.ports ht ht' (hport.trans hport'.symm)
    exact Peer.client.inj (hpeer.symm.trans hpeer')
  threads t ht := by
    rcases h.threads t ht with hnil | ⟨i, j, hpeer, hconnections, hj⟩
    · exact .inl hnil
    · have hnum := (h.number t ht i hpeer).1
      exact .inr ⟨i, j, hconnections, hnum, hnum ▸ hj⟩
  connected i port hi := by
    obtain ⟨t, ht, hpeer, hport, hconnections⟩ := h.clients i port _ (by rw [hi]; rfl)
    exact ⟨t, ht, hport, (h.number t ht i hpeer).1, hconnections⟩
  accepted t ht hne hlength := by
    rcases h.threads t ht with hnil | ⟨i, j, hpeer, hconnections, hj⟩
    · exact absurd (List.append_eq_nil_iff.1 hnil).1 hne
    · -- No connection is left that was not accepted, as there are not more than `numConn i`.
      have hnum := (h.number t ht i hpeer).1
      have hcount := hconnections.length_eq
      rw [ServeClient.connections, List.length_append, length_opened] at hcount
      rw [hnum] at hlength
      have hrest : t.backlog ++ t.pending = [] := List.length_eq_zero_iff.1 (by omega)
      have hall : (numConn i).toNatClampNeg = j := by
        rw [Int32.toNatClampNeg]
        omega
      rw [ServeClient.connections, hrest, List.append_nil] at hconnections
      exact ⟨i, hnum, by rw [allOpened, hall]; exact hconnections⟩
  refused i hi := by
    cases hport : (s.client i).port with
    | none => rfl
    | some port =>
      obtain ⟨j, hj⟩ := exists_place (numConn i) hport
      obtain ⟨t, ht, hpeer, -⟩ := h.clients i port j hj
      exact absurd (h.number t ht i hpeer).2 (Int32.not_le.2 hi)

/-- A thread goes on, with the connections that it has. -/
theorem Inv.mapThreads (h : Inv numConn s) {g : ServeClient ι → ServeClient ι}
    (hg : ∀ t, (g t).numConn = t.numConn ∧ (g t).port = t.port ∧ (g t).peer = t.peer ∧
      (g t).connections.Perm t.connections) :
    Inv numConn { s with threads := s.threads.map g } where
  hellos := h.hellos
  replies r hr := by
    obtain ⟨t, ht, rfl⟩ := h.replies r hr
    exact ⟨g t, List.mem_map_of_mem ht, by rw [(hg t).2.1, (hg t).2.2.1]⟩
  ports := by
    have hport : ServeClient.port ∘ g = ServeClient.port := funext fun t => (hg t).2.1
    rw [List.map_map, hport]
    exact h.ports
  number := by
    rintro _ hmem i hpeer
    obtain ⟨t, ht, rfl⟩ := List.mem_map.1 hmem
    rw [(hg t).2.2.1] at hpeer
    rw [(hg t).1]
    exact h.number t ht i hpeer
  fresh i hi := by
    rintro _ hmem hpeer
    obtain ⟨t, ht, rfl⟩ := List.mem_map.1 hmem
    rw [(hg t).2.2.1] at hpeer
    have hperm := (hg t).2.2.2
    rw [h.fresh i hi t ht hpeer] at hperm
    exact hperm.eq_nil
  clients i port j hplace := by
    obtain ⟨t, ht, hpeer, hport, hconnections⟩ := h.clients i port j hplace
    refine ⟨g t, List.mem_map_of_mem ht, ?_⟩
    rw [(hg t).2.1, (hg t).2.2.1]
    exact ⟨hpeer, hport, (hg t).2.2.2.trans hconnections⟩
  lt := h.lt
  threads := by
    rintro _ hmem
    obtain ⟨t, ht, rfl⟩ := List.mem_map.1 hmem
    have hperm := (hg t).2.2.2
    rw [(hg t).2.2.1]
    rcases h.threads t ht with hnil | ⟨i, j, hpeer, hconnections, hj⟩
    · exact .inl (hnil ▸ hperm).eq_nil
    · exact .inr ⟨i, j, hpeer, hperm.trans hconnections, hj⟩

/-- The server sends a port, and starts a thread on it. -/
theorem Inv.serve (h : Inv numConn s) {src : Peer ι} {d : List UInt8} {n : Int32} {port : UInt16}
    (hd : (src, d) ∈ s.toServer) (hn : validate d = some n)
    (hport : port ∉ s.threads.map ServeClient.port) :
    Inv numConn { s with
      toClient := s.toClient ++ [(src, htons port)]
      threads := s.threads ++ [⟨n, port, src, false, [], [], []⟩] } where
  hellos := h.hellos
  replies r hr := by
    rcases List.mem_append.1 hr with hr | hr
    · obtain ⟨t, ht, hrt⟩ := h.replies r hr
      exact ⟨t, List.mem_append_left _ ht, hrt⟩
    · exact ⟨_, List.mem_append_right _ List.mem_cons_self, List.mem_singleton.1 hr⟩
  ports := by
    rw [List.map_append]
    exact h.ports.append (List.nodup_singleton _) (List.disjoint_singleton.2 hport)
  number t ht i hpeer := by
    rcases List.mem_append.1 ht with ht | ht
    · exact h.number t ht i hpeer
    · obtain rfl := List.mem_singleton.1 ht
      dsimp only at hpeer
      subst hpeer
      rw [h.hellos i d hd] at hn
      exact validate_htonl hn
  fresh i hi t ht hpeer := by
    rcases List.mem_append.1 ht with ht | ht
    · exact h.fresh i hi t ht hpeer
    · obtain rfl := List.mem_singleton.1 ht
      rfl
  clients i port' j hplace := by
    obtain ⟨t, ht, h'⟩ := h.clients i port' j hplace
    exact ⟨t, List.mem_append_left _ ht, h'⟩
  lt := h.lt
  threads t ht := by
    rcases List.mem_append.1 ht with ht | ht
    · exact h.threads t ht
    · obtain rfl := List.mem_singleton.1 ht
      exact .inl rfl

variable [DecidableEq ι]

/-- A client goes on, and the threads are the same. -/
theorem Inv.setClient (h : Inv numConn s) {c : Client}
    (hfresh : c = .start ∨ c = .waiting → s.client i = .start ∨ s.client i = .waiting)
    (hplace : ∀ port j, c.place (numConn i) = some (port, j) → ∃ t ∈ s.threads,
      t.peer = .client i ∧ t.port = port ∧ t.connections.Perm (opened i j))
    (hlt : ∀ port j, c = .connecting port j → (j : ℤ) < (numConn i).toInt) :
    Inv numConn { s with client := Function.update s.client i c } where
  hellos := h.hellos
  replies := h.replies
  ports := h.ports
  number := h.number
  fresh i' hi' := by
    dsimp only at hi'
    rcases eq_or_ne i' i with rfl | hne
    · rw [Function.update_self] at hi'
      exact h.fresh i' (hfresh hi')
    · rw [Function.update_of_ne hne] at hi'
      exact h.fresh i' hi'
  clients i' port j hi' := by
    dsimp only at hi'
    rcases eq_or_ne i' i with rfl | hne
    · rw [Function.update_self] at hi'
      exact hplace port j hi'
    · rw [Function.update_of_ne hne] at hi'
      exact h.clients i' port j hi'
  lt i' port j hi' := by
    dsimp only at hi'
    rcases eq_or_ne i' i with rfl | hne
    · rw [Function.update_self] at hi'
      exact hlt port j hi'
    · rw [Function.update_of_ne hne] at hi'
      exact h.lt i' port j hi'
  threads := h.threads

/-- A connection of a client is one of its own thread. -/
theorem Inv.connect (h : Inv numConn s) {port : UInt16} {j : ℕ}
    (hi : s.client i = .connecting port j) :
    Inv numConn { s with
      client := Function.update s.client i (.next (numConn i) port (j + 1))
      threads := onPort port (fun t => t.connect i j) s.threads } := by
  have hj := h.lt i port j hi
  obtain ⟨t, ht, hpeer, rfl, hconnections⟩ := h.clients i port j (by rw [hi]; rfl)
  have hmem : ∀ t', t' ∈ onPort t.port (fun t => t.connect i j) s.threads ↔
      t' = t.connect i j ∨ (t' ∈ s.threads ∧ t'.port ≠ t.port) := fun _ => mem_onPort h.ports ht
  have hopened : (t.connect i j).connections.Perm (opened i (j + 1)) :=
    ServeClient.connections_connect hconnections
  -- The thread of another client is not the one that is changed.
  have hother : ∀ t' ∈ s.threads, ∀ i', t'.peer = .client i' → i' ≠ i → t'.port ≠ t.port := by
    intro t' ht' i' hpeer' hne hport
    obtain rfl := List.inj_on_of_nodup_map h.ports ht' ht hport
    exact hne (Peer.client.inj (hpeer'.symm.trans hpeer))
  constructor
  · exact h.hellos
  · intro r hr
    obtain ⟨t', ht', rfl⟩ := h.replies r hr
    by_cases hport : t'.port = t.port
    · obtain rfl := List.inj_on_of_nodup_map h.ports ht' ht hport
      exact ⟨_, (hmem _).2 (.inl rfl), rfl⟩
    · exact ⟨t', (hmem t').2 (.inr ⟨ht', hport⟩), rfl⟩
  · have hports : (onPort t.port (fun t => t.connect i j) s.threads).map ServeClient.port =
        s.threads.map ServeClient.port :=
      map_port_onPort (f := fun t => t.connect i j) (fun _ => rfl) s.threads
    rw [hports]
    exact h.ports
  · intro t' ht' i' hpeer'
    rcases (hmem t').1 ht' with rfl | ⟨ht', -⟩
    · exact h.number t ht i' hpeer'
    · exact h.number t' ht' i' hpeer'
  · intro i' hi' t' ht' hpeer'
    dsimp only at hi'
    rcases eq_or_ne i' i with rfl | hne
    · rw [Function.update_self] at hi'
      exact absurd hi' (next_ne _ _ _)
    · -- Another client that has no connections yet: the thread is not one for it.
      rw [Function.update_of_ne hne] at hi'
      rcases (hmem t').1 ht' with rfl | ⟨ht', -⟩
      · exact absurd (Peer.client.inj (hpeer'.symm.trans hpeer)) hne
      · exact h.fresh i' hi' t' ht' hpeer'
  · intro i' port' j' hi'
    dsimp only at hi'
    rcases eq_or_ne i' i with rfl | hne
    · rw [Function.update_self, place_next _ (.inr (by omega))] at hi'
      obtain ⟨rfl, rfl⟩ := Prod.mk.inj (Option.some.inj hi')
      exact ⟨_, (hmem _).2 (.inl rfl), hpeer, rfl, hopened⟩
    · rw [Function.update_of_ne hne] at hi'
      obtain ⟨t', ht', hpeer', h'⟩ := h.clients i' port' j' hi'
      exact ⟨t', (hmem t').2 (.inr ⟨ht', hother t' ht' i' hpeer' hne⟩), hpeer', h'⟩
  · intro i' port' j' hi'
    dsimp only at hi'
    rcases eq_or_ne i' i with rfl | hne
    · rw [Function.update_self] at hi'
      exact lt_of_next_eq hi'
    · rw [Function.update_of_ne hne] at hi'
      exact h.lt i' port' j' hi'
  · intro t' ht'
    rcases (hmem t').1 ht' with rfl | ⟨ht', -⟩
    · exact .inr ⟨i, j + 1, hpeer, hopened, by omega⟩
    · exact h.threads t' ht'

theorem Inv.step (h : Inv numConn s) {a : Action ι} (hs : Handshake.step numConn s a = some s') :
    Inv numConn s' := by
  cases a with
  | send i =>
    rw [Handshake.step] at hs
    split at hs
    · next hi =>
      obtain rfl := Option.some.inj hs
      have hset := h.setClient (i := i) (c := .waiting) (fun _ => .inl hi)
        (fun port j hplace => by cases hplace) (fun port j hc => by cases hc)
      refine { hset with hellos := fun i' d hd => ?_ }
      rcases List.mem_append.1 hd with hd | hd
      · exact h.hellos i' d hd
      · obtain ⟨hpeer, rfl⟩ := Prod.mk.inj (List.mem_singleton.1 hd)
        rw [Peer.client.inj hpeer]
    · cases hs
  | inject d =>
    obtain rfl := Option.some.inj hs
    refine { h with hellos := fun i d' hd => ?_ }
    rcases List.mem_append.1 hd with hd | hd
    · exact h.hellos i d' hd
    · cases (Prod.mk.inj (List.mem_singleton.1 hd)).1
  | serve k rand =>
    rw [Handshake.step] at hs
    split at hs
    · cases hs
    · next src d hk =>
      split at hs
      · obtain rfl := Option.some.inj hs
        exact h
      · next n hn =>
        split at hs
        · cases hs
        · next hport =>
          obtain rfl := Option.some.inj hs
          exact h.serve (List.mem_of_getElem? hk) hn hport
  | receive i k =>
    rw [Handshake.step] at hs
    split at hs
    · next dest d hi hk =>
      split at hs
      · next hdest =>
        obtain ⟨port, hport, rfl⟩ := Option.map_eq_some_iff.1 hs
        obtain ⟨t, ht, hr⟩ := h.replies _ (List.mem_of_getElem? hk)
        obtain ⟨hpeer, rfl⟩ := Prod.mk.inj hr
        rw [ntohs_htons] at hport
        obtain rfl := Option.some.inj hport
        rw [hdest] at hpeer
        -- The reply is for the thread `t`, which has no connections yet.
        refine h.setClient (fun hc => absurd hc (next_ne _ _ _)) (fun port j hplace => ?_)
          fun port j hc => lt_of_next_eq hc
        rw [place_next _ (.inl rfl)] at hplace
        obtain ⟨rfl, rfl⟩ := Prod.mk.inj (Option.some.inj hplace)
        have hnil := h.fresh i (.inr hi) t ht hpeer.symm
        exact ⟨t, ht, hpeer.symm, rfl, by rw [hnil]; exact .nil⟩
      · cases hs
    · cases hs
  | timeout i =>
    rw [Handshake.step] at hs
    split at hs
    · obtain rfl := Option.some.inj hs
      exact h.setClient (by simp) (fun port j hplace => by cases hplace)
        fun port j hc => by cases hc
    · cases hs
  | connect i =>
    rw [Handshake.step] at hs
    split at hs
    · next port j hi =>
      split at hs
      · obtain rfl := Option.some.inj hs
        exact h.connect hi
      · cases hs
    · cases hs
  | complete port k =>
    obtain rfl := Option.some.inj hs
    refine h.mapThreads fun t => ?_
    split
    · exact ⟨rfl, rfl, rfl, t.connections_complete k⟩
    · exact ⟨rfl, rfl, rfl, .refl _⟩
  | fail i =>
    rw [Handshake.step] at hs
    split at hs
    · obtain rfl := Option.some.inj hs
      exact h.setClient (by simp) (fun port j hplace => by cases hplace)
        fun port j hc => by cases hc
    · cases hs
  | listen port =>
    obtain rfl := Option.some.inj hs
    refine h.mapThreads fun t => ?_
    split
    · exact ⟨rfl, rfl, rfl, .refl _⟩
    · exact ⟨rfl, rfl, rfl, .refl _⟩
  | accept port =>
    obtain rfl := Option.some.inj hs
    refine h.mapThreads fun t => ?_
    have hconnections := t.connections_accept
    split
    · refine ⟨?_, ?_, ?_, by rw [hconnections]⟩
      all_goals
        rw [ServeClient.accept]
        split
        · rfl
        · rfl
    · exact ⟨rfl, rfl, rfl, .refl _⟩

/-- In any run, a thread has connections of one client, and a client that is through has all of
    its connections on one thread. -/
theorem exec_paired {l : List (Action ι)} (hl : (handshake numConn).exec start l = some s) :
    Paired numConn s := by
  have hreachable : (handshake numConn).Reachable s := System.reachable_of_exec rfl hl
  have hinv : Inv numConn s := by
    refine hreachable.invariant (I := Inv numConn) ?_ fun s a s' h hs => h.step hs
    rintro s rfl
    exact ⟨by simp [start], by simp [start], List.nodup_nil, by simp [start], by simp [start],
      by simp [start, Client.place], by simp [start], by simp [start]⟩
  exact hinv.paired

end

/-- Two clients, of which the first has two connections; its datagram is received twice, and its
    second connection is complete before the first. -/
def twoClients : List (Action (Fin 2)) :=
  [.send 0, .inject [0, 0, 0, 9], .send 1, .serve 1 7, .serve 0 44, .serve 2 45, .serve 0 50,
    .receive 0 0, .listen 300, .connect 0, .receive 1 1, .listen 301, .connect 1, .connect 0,
    .complete 300 1, .accept 300, .complete 301 0, .complete 300 0, .accept 301, .accept 300]

/-- Both are through, and the threads accepted all of their connections. -/
theorem exec_paired_twoClients : ∃ s : State (Fin 2),
    (handshake fun i => if i = 0 then 2 else 1).exec start twoClients = some s ∧
      (s.client 0 = .connected 300 ∧ s.client 1 = .connected 301 ∧
        s.threads.map ServeClient.accepted = [[(0, 1), (0, 0)], [(1, 0)], []]) ∧
        Paired (fun i => if i = 0 then 2 else 1) s := by
  have hrun : ((handshake fun i : Fin 2 => if i = 0 then 2 else 1).exec start twoClients).any
      (fun s => s.client 0 = .connected 300 ∧ s.client 1 = .connected 301 ∧
        s.threads.map ServeClient.accepted = [[(0, 1), (0, 0)], [(1, 0)], []]) = true := by
    decide +kernel
  obtain ⟨s, hs, hclients⟩ := (Option.any_eq_true ..).1 hrun
  exact ⟨s, hs, of_decide_eq_true hclients, exec_paired hs⟩

end Cse461.Multiplex.Handshake
