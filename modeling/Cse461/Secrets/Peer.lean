import Cse461.Secrets.Acceptance
import Cse461.Secrets.Session

/-!
# The server against any peer

`run` of `ServerThread.java`, against a peer that sends what it likes: any datagrams to any
port, in any number and order, and any bytes over the connection, cut in any way. The
network may lose datagrams, and the server may time out.

What the server drew is a parameter of a run (`Draws`). A run reads no draw ahead of time
(`Unread`): before the peer has sent `secretA`, it is the same for other draws from step B on,
and before step D is done it is the same for another `secretD`. This is no secrecy: all draws are
those of one `java.util.Random`, so that the first of them tell a peer much about the others.
Anybody may connect in step C: `secretB` is not asked for.
-/

namespace Cse461.Secrets.Session

open Library

/-- What the peer does, and what happens otherwise. -/
inductive Move
  /-- A datagram is sent to the server. -/
  | send (g : Datagram)
  /-- Datagrams get lost, or no socket is open on their port. -/
  | lose
  /-- The peer connects. -/
  | connect
  /-- Some bytes arrive on the connection. -/
  | write (p : List UInt8)
  /-- The server goes on. -/
  | server (drop : Bool)
  /-- A socket of the server times out. -/
  | timeout
  deriving DecidableEq

/-- A datagram that starts with packet `i`: with the header and the number, of packet 0 with the
    header up to the step at least. -/
def StepB.Begins (P : StepB.Params) (i : ℕ) (d : List UInt8) : Prop :=
  ∃ id, (0 ≤ id ∧ id ≤ 999) ∧
    d.take (if i = 0 then 10 else 16) = (StepB.front P i id).take (if i = 0 then 10 else 16)

/-- What is in the buffer is not packet `i`, but for a datagram that starts with it. -/
def StepB.Stale (P : StepB.Params) (i : ℕ) (bufIn : List UInt8) : Prop :=
  ∀ d, StepB.Checked P i (StepB.receiveInto bufIn d) → StepB.Begins P i d

/-- What the peer knows is in the header. -/
def HasSecret (secret : Int32) (d : List UInt8) : Prop :=
  (d.drop sizeInt).take sizeInt = toByteArray secret

section

variable (D : Draws)

/-- A step of the peer, or of the server. The side of the client in `State` is not used. -/
def peerStep (s : State) : Move → Option State
  | .send g => some { s with toServer := s.toServer ++ [g] }
  | .lose => if s.toServer = [] then none else some { s with toServer := s.toServer.tail }
  | .connect => if s.server.listens then some { s with connected := true } else none
  | .write p => if s.connected then some { s with up := s.up ++ [p] } else none
  | .server drop => serverStep D s drop
  | .timeout => s.server.timedOut.map fun v => { s with server := v }

/-- The server against any peer. -/
def peer : System State Move where
  init s := s = start
  step := peerStep D

/-- The draws up to step B are the same. -/
structure Draws.SameB (D D' : Draws) : Prop where
  num1 : D'.num1 = D.num1
  len1 : D'.len1 = D.len1
  secretA : D'.secretA = D.secretA
  udpPort : D'.udpPort = D.udpPort

/-- The draws that a run did not come to: it is the same for others, with all that the server
    sends in it. -/
structure Unread : Prop where
  afterB : 0 < D.num1.val → ∀ D' l, D.SameB D' →
    (∀ g, .send g ∈ l → ¬HasSecret D.secretA g.data) →
      (peer D').exec start l = (peer D).exec start l
  secretD : ∀ secretD l s, (peer D).exec start l = some s → s.server ≠ .done →
    (peer { D with secretD := secretD }).exec start l = some s

end

section

variable {D D' : Draws} {s s' : State} {a : Move}

/-! ## What the peer does -/

/-- What a step is, and what it leaves as it was. -/
inductive Step (D : Draws) (s : State) : Move → State → Prop
  | server {s' : State} {drop : Bool} : serverStep D s drop = some s' → Step D s (.server drop) s'
  | timeout {v : Server} : s.server.timedOut = some v →
      Step D s .timeout { s with server := v }
  | other {a : Move} {s' : State} : s'.server = s.server →
      (∀ g ∈ s'.toServer, g ∈ s.toServer ∨ a = .send g) →
      (∀ D', peerStep D' s a = some s') → Step D s a s'

theorem peerStep_cases (h : peerStep D s a = some s') : Step D s a s' := by
  cases a with
  | server drop => exact .server h
  | timeout =>
    obtain ⟨v, hv, rfl⟩ := Option.map_eq_some_iff.1 h
    exact .timeout hv
  | send g =>
    obtain rfl := Option.some.inj h
    refine .other rfl (fun g' hg' => ?_) fun _ => rfl
    rcases List.mem_append.1 hg' with hg' | hg'
    · exact .inl hg'
    · exact .inr (by rw [List.mem_singleton.1 hg'])
  | lose =>
    rw [peerStep] at h
    split at h
    · cases h
    · next hne =>
      obtain rfl := Option.some.inj h
      exact .other rfl (fun g hg => .inl (List.mem_of_mem_tail hg)) fun _ => if_neg hne
  | connect =>
    rw [peerStep] at h
    split at h
    · next hlistens =>
      obtain rfl := Option.some.inj h
      exact .other rfl (fun g hg => .inl hg) fun _ => if_pos hlistens
    · cases h
  | write p =>
    rw [peerStep] at h
    split at h
    · next hconnected =>
      obtain rfl := Option.some.inj h
      exact .other rfl (fun g hg => .inl hg) fun _ => if_pos hconnected
    · cases h

theorem Server.timedOut_eq_some {v v' : Server} (h : v.timedOut = some v') :
    ∃ e, v' = .thrown e := by
  cases v with
  | loop | accept | stepD =>
    cases h
    exact ⟨_, rfl⟩
  | listen | stepA | done | thrown => cases h

/-! ## Before step B is done -/

/-- A byte of the front that is not in the buffer is in the datagram, with all that comes
    before it. -/
theorem StepB.take_of_checked {P : StepB.Params} {i k : ℕ} {bufIn d : List UInt8} (hk : k < 16)
    (hlength : bufIn.length = StepB.packetSize P)
    (hne : ∀ id, bufIn[k]? ≠ (StepB.front P i id)[k]?)
    (h : StepB.Checked P i (StepB.receiveInto bufIn d)) :
    ∃ id, (0 ≤ id ∧ id ≤ 999) ∧ d.take (k + 1) = (StepB.front P i id).take (k + 1) := by
  have hsize : 16 ≤ StepB.packetSize P := (StepB.packetSize_spec P).2.trans' (Nat.le_add_right ..)
  obtain ⟨id, hid, hfront⟩ := h.front
  have hbyte : (StepB.receiveInto bufIn d)[k]? = (StepB.front P i id)[k]? := by
    rw [← hfront, List.getElem?_take_of_lt (by exact hk)]
  have hlong : k < d.length := by
    -- A datagram that is shorter leaves the byte as it was.
    by_contra hshort
    rw [StepB.getElem?_receiveInto (by omega), if_neg hshort] at hbyte
    exact hne id hbyte
  have htake := StepB.take_receiveInto (by omega : k + 1 ≤ bufIn.length) hlong
  have hmin : min (k + 1) (sizeHeader + sizeInt) = k + 1 := min_eq_left hk
  exact ⟨id, hid, by rw [← htake, ← hfront, List.take_take, hmin]⟩

/-- The step in the header is not in the buffer from the start. -/
theorem StepB.stale_newBytes (P : StepB.Params) :
    StepB.Stale P 0 (newBytes (StepB.packetSize P)) := by
  intro d h
  refine StepB.take_of_checked (k := 9) (by decide) List.length_replicate (fun id hbyte => ?_) h
  rw [List.getElem?_replicate] at hbyte
  split at hbyte
  · cases hbyte
  · cases hbyte

/-- The number in the buffer is the one of the packet before. -/
theorem StepB.stale_of_checked {P : StepB.Params} {i : ℕ} {bufIn : List UInt8}
    (hlength : bufIn.length = StepB.packetSize P) (h : StepB.Checked P i bufIn) :
    StepB.Stale P (i + 1) bufIn := by
  intro d hd
  obtain ⟨id', -, hfront⟩ := h.front
  refine StepB.take_of_checked (k := 15) (by decide) hlength (fun id hbyte => ?_) hd
  have hlast : (StepB.front P i id')[15]? = (StepB.front P (i + 1) id)[15]? := by
    rw [← hbyte, ← hfront, List.getElem?_take_of_lt (by decide)]
  have hnum : toByte (Int32.ofNat i) = toByte (Int32.ofNat (i + 1)) := Option.some.inj hlast
  have hmod := congrArg UInt8.toNat hnum
  simp only [toByte, UInt32.toNat_toUInt8] at hmod
  have hnat : ∀ n : ℕ, (Int32.ofNat n).toUInt32.toNat = n % 2 ^ 32 := fun _ => rfl
  rw [hnat, hnat] at hmod
  omega

/-- Without the secret, the first packet does not pass. -/
theorem checkPacket_of_not_hasSecret {P : StepB.Params} {d : List UInt8}
    (h : ¬HasSecret P.secretA d) :
    ∃ e, StepB.checkPacket P 0 (StepB.receiveInto (newBytes (StepB.packetSize P)) d) =
      .error e := by
  cases hok : StepB.checkPacket P 0 (StepB.receiveInto (newBytes (StepB.packetSize P)) d) with
  | error e => exact ⟨e, rfl⟩
  | ok u =>
    have hlength := StepB.length_received (newBytes (StepB.packetSize P)) d
    rw [newBytes, List.length_replicate] at hlength
    obtain ⟨id, -, hfront⟩ := StepB.stale_newBytes P d ((StepB.checked_iff hlength).1 hok)
    refine absurd ?_ h
    have hdrop : (d.drop sizeInt).take sizeInt = ((d.take 10).take 8).drop sizeInt := by
      rw [List.take_take, List.drop_take]
      rfl
    rw [HasSecret, hdrop]
    exact congrArg (fun l : List UInt8 => (l.take 8).drop sizeInt) hfront

/-- The server is not past the first packet of step B, and nothing that it could receive
    carries the secret. -/
structure Before (D : Draws) (s : State) : Prop where
  datagrams : ∀ g ∈ s.toServer, ¬HasSecret D.secretA g.data
  server : s.server = .listen ∨ (∃ id port, s.server = .stepA id port) ∨
    (∃ id port, s.server =
      .loop id port 0 false (newBytes (StepB.packetSize (D.params id)))) ∨
    ∃ e, s.server = .thrown e

theorem Draws.SameB.params (h : D.SameB D') (id : Int32) :
    StepB.packetSize (D'.params id) = StepB.packetSize (D.params id) ∧
      StepB.checkPacket (D'.params id) = StepB.checkPacket (D.params id) := by
  have hsize : StepB.payloadSize (D'.params id) = StepB.payloadSize (D.params id) := by
    simp only [StepB.payloadSize, Draws.params, h.len1]
  have hsecret : (D'.params id).secretA = (D.params id).secretA := h.secretA
  refine ⟨by rw [StepB.packetSize, StepB.packetSize, hsize], ?_⟩
  funext i bufIn
  rw [StepB.checkPacket, StepB.checkPacket, hsize, hsecret]

theorem Draws.SameB.responseA (h : D.SameB D') (id : Int32) :
    Session.responseA D' id = Session.responseA D id := by
  rw [Session.responseA, Session.responseA, h.num1, h.len1, h.secretA, h.udpPort]

theorem serverTry_error {α : Type} (e : JavaException) (f : α → State) :
    s.serverTry (.error e) f = { s with server := .thrown e } := rfl

theorem serverTry_ok {α : Type} (x : α) (f : α → State) : s.serverTry (.ok x) f = f x := rfl

/-- The server takes the same step. -/
theorem Before.serverStep_eq (h : Before D s) (hnum : 0 < D.num1.val) (hsame : D.SameB D')
    (drop : Bool) : serverStep D' s drop = serverStep D s drop := by
  rcases h.server with hserver | ⟨id, port, hserver⟩ | ⟨id, port, hserver⟩ | ⟨e, hserver⟩
  · simp only [serverStep, hserver]
  · simp only [serverStep, hserver, hsame.responseA, (hsame.params id).1]
  · simp only [serverStep, hserver, hsame.num1, if_pos hnum, State.serverReceive, hsame.udpPort,
      (hsame.params id).2]
    cases hto : s.toServer with
    | nil => rfl
    | cons g l =>
      dsimp only
      split
      · -- The datagram does not pass.
        obtain ⟨e, he⟩ := checkPacket_of_not_hasSecret (P := D.params id)
          (h.datagrams g (hto ▸ List.mem_cons_self))
        rw [he, serverTry_error, serverTry_error]
      · rfl
  · simp only [serverStep, hserver]

/-- The server does not get past the first packet. -/
theorem Before.serverStep (h : Before D s) (hnum : 0 < D.num1.val) {drop : Bool}
    (hs : Session.serverStep D s drop = some s') : Before D s' := by
  rcases h.server with hserver | ⟨id, port, hserver⟩ | ⟨id, port, hserver⟩ | ⟨e, hserver⟩
  · simp only [Session.serverStep, hserver, State.serverReceive] at hs
    cases hto : s.toServer with
    | nil => simp [hto] at hs
    | cons g l =>
      have hl : ∀ g' ∈ l, ¬HasSecret D.secretA g'.data :=
        fun g' hg' => h.datagrams g' (hto ▸ List.mem_cons_of_mem _ hg')
      rw [hto] at hs
      dsimp only at hs
      split at hs
      · split at hs
        · obtain rfl := Option.some.inj hs
          exact ⟨hl, .inr (.inl ⟨_, _, rfl⟩)⟩
        · obtain rfl := Option.some.inj hs
          exact ⟨hl, .inl rfl⟩
      · cases hs
  · obtain ⟨d, hd, -⟩ := responseA_eq_ok D id
    simp only [Session.serverStep, hserver, hd] at hs
    obtain rfl := Option.some.inj hs
    exact ⟨h.datagrams, .inr (.inr (.inl ⟨id, port, rfl⟩))⟩
  · simp only [Session.serverStep, hserver, if_pos hnum, State.serverReceive] at hs
    cases hto : s.toServer with
    | nil => simp [hto] at hs
    | cons g l =>
      have hl : ∀ g' ∈ l, ¬HasSecret D.secretA g'.data :=
        fun g' hg' => h.datagrams g' (hto ▸ List.mem_cons_of_mem _ hg')
      rw [hto] at hs
      dsimp only at hs
      split at hs
      · obtain ⟨e, he⟩ := checkPacket_of_not_hasSecret (P := D.params id)
          (h.datagrams g (hto ▸ List.mem_cons_self))
        rw [he, serverTry_error] at hs
        obtain rfl := Option.some.inj hs
        exact ⟨hl, .inr (.inr (.inr ⟨e, rfl⟩))⟩
      · cases hs
  · simp only [Session.serverStep, hserver] at hs
    cases hs

/-- Whatever the peer does, as long as it does not send the secret. -/
theorem Before.step (h : Before D s) (hnum : 0 < D.num1.val)
    (ha : ∀ g, a = .send g → ¬HasSecret D.secretA g.data) (hs : peerStep D s a = some s') :
    Before D s' := by
  cases peerStep_cases hs with
  | server hs => exact h.serverStep hnum hs
  | timeout hv => exact ⟨h.datagrams, .inr (.inr (.inr (Server.timedOut_eq_some hv)))⟩
  | other hserver hsent _ =>
    refine ⟨fun g hg => ?_, hserver ▸ h.server⟩
    rcases hsent g hg with hg | rfl
    · exact h.datagrams g hg
    · exact ha g rfl

theorem exec_afterB (hnum : 0 < D.num1.val) (hsame : D.SameB D') {l : List Move}
    (hl : ∀ g, .send g ∈ l → ¬HasSecret D.secretA g.data) :
    (peer D').exec start l = (peer D).exec start l := by
  refine System.exec_congr (I := Before D) (G := fun a => ∀ g, a = .send g →
    ¬HasSecret D.secretA g.data) (fun s a hs _ => ?_) (fun s a s' hs ha h => ?_) ?_ ?_
  · cases a with
    | server drop => exact hs.serverStep_eq hnum hsame drop
    | send | lose | connect | write | timeout => rfl
  · exact hs.step hnum ha h
  · exact ⟨fun g hg => absurd hg List.not_mem_nil, .inl rfl⟩
  · rintro a ha g rfl
    exact hl g ha

/-! ## Before step D is done -/

/-- The draws, but for the last secret. -/
theorem Draws.with_secretD (D : Draws) (x : Int32) :
    responseA { D with secretD := x } = responseA D ∧
      Draws.params { D with secretD := x } = D.params ∧
      responseC { D with secretD := x } = responseC D ∧
      checkD { D with secretD := x } = checkD D ∧ sizeD { D with secretD := x } = sizeD D :=
  ⟨rfl, rfl, rfl, rfl, rfl⟩

theorem serverStep_secretD (x : Int32) {drop : Bool} (hs : serverStep D s drop = some s')
    (hdone : s'.server ≠ .done) :
    s.server ≠ .done ∧ serverStep { D with secretD := x } s drop = some s' := by
  obtain ⟨hA, hparams, hC, hcheck, hsize⟩ := D.with_secretD x
  cases hserver : s.server with
  | listen | stepA id port | loop id port i haveFailed bufIn | accept id =>
    refine ⟨by simp, ?_⟩
    simp only [serverStep, hserver] at hs ⊢
    simpa only [hA, hparams, hC, hsize] using hs
  | stepD id i bufIn =>
    refine ⟨by simp, ?_⟩
    simp only [serverStep, hserver, hcheck] at hs ⊢
    by_cases hi : i < D.num2.val
    · rw [if_pos hi] at hs ⊢
      exact hs
    · -- The last secret would be sent.
      obtain ⟨d, hd, -⟩ := responseD_eq_ok D id
      rw [if_neg hi, hd] at hs
      obtain rfl := Option.some.inj hs
      exact absurd rfl hdone
  | done | thrown e =>
    simp only [serverStep, hserver] at hs
    cases hs

theorem exec_secretD (x : Int32) {l : List Move} (hl : (peer D).exec start l = some s)
    (hs : s.server ≠ .done) : (peer { D with secretD := x }).exec start l = some s := by
  refine System.exec_of_steps (Q := fun s => s.server ≠ .done) (fun s a s' ha hs' => ?_) hl hs
  cases peerStep_cases ha with
  | server ha => exact serverStep_secretD x ha hs'
  | timeout hv =>
    refine ⟨fun hdone => ?_, ha⟩
    rw [hdone] at hv
    cases hv
  | other hserver _ hstep => exact ⟨hserver ▸ hs', hstep _⟩

/-- A run reads no draw ahead of time. -/
theorem draws_unread (D : Draws) : Unread D where
  afterB hnum _ _ hsame hl := exec_afterB hnum hsame hl
  secretD x _ _ hl hs := exec_secretD x hl hs

end

end Cse461.Secrets.Session
