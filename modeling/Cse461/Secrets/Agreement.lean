import Cse461.Secrets.Session

/-!
# The client and the server agree

A session goes through phases (`Phase`), each with a bound on the number of steps
left: a step leads to a phase with a smaller bound, but for the drop of an
acknowledgement, which adds a round (`Phase.step`). In each phase but the last there
is a step to take (`Phase.progress`).

Two draws break this. If `num1` is zero, the server never hears from the socket that
the client opens for step B, and sends the response to the one that the client has
closed. If `len2` is zero and `num2` is not, the server reads with a buffer for a header
only, and `PacketUtil.read` then reports an error without having read.

* `completes_iff`: every run goes through if and only if neither is the case.
-/

namespace Cse461.Secrets.Session

open Library

variable {D : Draws} {n : ℕ} {s s' : State} {a : Action}

/-- A bound on the steps from packet `c` of step B on. -/
def stepsFrom (D : Draws) (c : ℕ) (haveFailed : Bool) : ℕ :=
  2 * D.num2 + 9 + 3 * (D.num1 - c) + if haveFailed then 0 else 3

/-- Step D can be done. -/
def Draws.Readable (D : Draws) : Prop := D.num2.val = 0 ∨ 1 ≤ D.len2.val

/-- The phases of a session, with a bound on the steps left. -/
inductive Phase (D : Draws) : ℕ → State → Prop
  | sendA : Phase D (stepsFrom D 0 false + 5) ⟨.sendA, .listen, [], [], false, [], []⟩
  | requested {d : List UInt8} : packetA = .ok d →
      Phase D (stepsFrom D 0 false + 4)
        ⟨.receiveA, .listen, [⟨12235, D.portA, d⟩], [], false, [], []⟩
  | accepted : Phase D (stepsFrom D 0 false + 3)
      ⟨.receiveA, .stepA 472 D.portA, [], [], false, [], []⟩
  | offered {d buf : List UInt8} : responseA D 472 = .ok d →
      buf.length = StepB.packetSize (D.params 472) →
      Phase D (stepsFrom D 0 false + 2)
        ⟨.receiveA, .loop 472 D.portA 0 false buf, [], [(D.portA, d)], false, [], []⟩
  | openB {buf : List UInt8} : buf.length = StepB.packetSize (D.params 472) →
      Phase D (stepsFrom D 0 false + 1)
        ⟨.openB D.offer, .loop 472 D.portA 0 false buf, [], [], false, [], []⟩
  | sendB {c port : ℕ} {haveFailed : Bool} {buf : List UInt8} : c < D.num1 →
      buf.length = StepB.packetSize (D.params 472) →
      Phase D (stepsFrom D c haveFailed)
        ⟨.sendB D.offer c, .loop 472 port c haveFailed buf, [], [], false, [], []⟩
  | sentB {c port : ℕ} {haveFailed : Bool} {buf d : List UInt8} : c < D.num1 →
      buf.length = StepB.packetSize (D.params 472) →
      StepB.clientPacket (D.params 472) c = .ok d →
      Phase D (stepsFrom D (c + 1) haveFailed + 2)
        ⟨.receiveB D.offer c, .loop 472 port c haveFailed buf, [⟨D.udpPort, D.portB, d⟩], [],
          false, [], []⟩
  | dropped {c : ℕ} {buf : List UInt8} : c < D.num1 →
      buf.length = StepB.packetSize (D.params 472) →
      Phase D (stepsFrom D c true + 1)
        ⟨.receiveB D.offer c, .loop 472 D.portB c true buf, [], [], false, [], []⟩
  | acknowledged {c : ℕ} {haveFailed : Bool} {buf d : List UInt8} : c < D.num1 →
      buf.length = StepB.packetSize (D.params 472) →
      Phase D (stepsFrom D (c + 1) haveFailed + 1)
        ⟨.receiveB D.offer c, .loop 472 D.portB (c + 1) haveFailed buf, [], [(D.portB, d)],
          false, [], []⟩
  | sentAll {haveFailed : Bool} {buf : List UInt8} :
      Phase D (2 * D.num2 + 9)
        ⟨.final D.offer, .loop 472 D.portB D.num1 haveFailed buf, [], [], false, [], []⟩
  | lastAcknowledged {c : ℕ} {d e : List UInt8} : c + 1 = D.num1 →
      StepB.finalResponse (D.params 472) D.tcpPort D.secretB = .ok e →
      Phase D (2 * D.num2 + 8)
        ⟨.receiveB D.offer c, .accept 472, [], [(D.portB, d), (D.portB, e)], false, [], []⟩
  | final {e : List UInt8} :
      StepB.finalResponse (D.params 472) D.tcpPort D.secretB = .ok e →
      Phase D (2 * D.num2 + 7) ⟨.final D.offer, .accept 472, [], [(D.portB, e)], false, [], []⟩
  | connect : Phase D (2 * D.num2 + 6)
      ⟨.connect D.secretA D.tcpPort D.secretB, .accept 472, [], [], false, [], []⟩
  | connected : Phase D (2 * D.num2 + 5)
      ⟨.readC D.secretA D.secretB, .accept 472, [], [], true, [], []⟩
  | demanded {buf d : List UInt8} : buf.length = sizeD D → responseC D 472 = .ok d →
      Phase D (2 * D.num2 + 4)
        ⟨.readC D.secretA D.secretB, .stepD 472 0 buf, [], [], true, [], [d]⟩
  | writing {i j : ℕ} {buf d : List UInt8} : i ≤ j → j ≤ D.num2 → buf.length = sizeD D →
      packetD D.demand = .ok d → i = 0 ∨ D.Readable →
      Phase D (D.num2 - j + 2 + (D.num2 - i + 1))
        ⟨.writeD D.secretA D.secretB D.demand j, .stepD 472 i buf, [], [], true,
          List.replicate (j - i) d, []⟩
  | written {i : ℕ} {buf d : List UInt8} : i ≤ D.num2 → buf.length = sizeD D →
      packetD D.demand = .ok d → i = 0 ∨ D.Readable →
      Phase D (1 + (D.num2 - i + 1))
        ⟨.readD D.secretA D.secretB D.secretC, .stepD 472 i buf, [], [], true,
          List.replicate (D.num2 - i) d, []⟩
  | answeredEarly {d e : List UInt8} : D.num2.val = 0 → responseC D 472 = .ok d →
      responseD D 472 = .ok e →
      Phase D 3 ⟨.readC D.secretA D.secretB, .done, [], [], true, [], [d, e]⟩
  | answeredWriting {e : List UInt8} : D.Readable → responseD D 472 = .ok e →
      Phase D 2
        ⟨.writeD D.secretA D.secretB D.demand D.num2, .done, [], [], true, [], [e]⟩
  | answered {e : List UInt8} : D.Readable → responseD D 472 = .ok e →
      Phase D 1 ⟨.readD D.secretA D.secretB D.secretC, .done, [], [], true, [], [e]⟩
  | done : D.Readable →
      Phase D 0
        ⟨.done D.secretA D.secretB D.secretC D.secretD, .done, [], [], true, [], []⟩

@[simp] theorem State.clientTry_ok {α : Type} (x : α) (f : α → State) :
    s.clientTry (.ok x) f = f x := rfl

@[simp] theorem State.serverTry_ok {α : Type} (x : α) (f : α → State) :
    s.serverTry (.ok x) f = f x := rfl

theorem nextB_offer (D : Draws) (i : ℕ) :
    Client.nextB D.offer i = if i < D.num1 then .sendB D.offer i else .final D.offer := by
  have hnum : D.offer.num.toInt = D.num1 := Int32.toInt_ofNat_of_lt (by omega)
  rw [Client.nextB, hnum]
  simp only [Nat.cast_lt]

theorem lt_demand (D : Draws) (i : ℕ) : (i : ℤ) < D.demand.num.toInt ↔ i < D.num2 := by
  have hnum : D.demand.num.toInt = D.num2 := Int32.toInt_ofNat_of_lt (by omega)
  rw [hnum, Nat.cast_lt]

theorem stepsFrom_succ {c : ℕ} (hc : c < D.num1) (haveFailed : Bool) :
    stepsFrom D c haveFailed = stepsFrom D (c + 1) haveFailed + 3 := by
  rw [stepsFrom, stepsFrom]
  omega

theorem le_stepsFrom (D : Draws) (c : ℕ) (haveFailed : Bool) :
    2 * D.num2 + 9 ≤ stepsFrom D c haveFailed := by
  rw [stepsFrom]
  omega

/-- A step of the client leads to a phase with fewer steps left. -/
theorem Phase.clientStep (hnum : 0 < D.num1.val) (h : Phase D n s)
    (hs : Session.clientStep D s = some s') : ∃ m < n, Phase D m s' := by
  cases h with
  | sendA =>
    obtain ⟨d, hd, -⟩ := packetA_eq_ok
    simp only [Session.clientStep, hd, State.clientTry_ok] at hs
    obtain rfl := Option.some.inj hs
    exact ⟨_, Nat.lt_succ_self _, .requested hd⟩
  | offered hd hbuf =>
    obtain ⟨d, hd', hparse⟩ := responseA_eq_ok D 472
    obtain rfl := Except.ok.inj (hd'.symm.trans hd)
    simp only [Session.clientStep, State.clientReceive, if_true, hparse, State.clientTry_ok] at hs
    obtain rfl := Option.some.inj hs
    exact ⟨_, Nat.lt_succ_self _, .openB hbuf⟩
  | openB hbuf =>
    simp only [Session.clientStep, nextB_offer, if_pos hnum] at hs
    obtain rfl := Option.some.inj hs
    exact ⟨_, Nat.lt_succ_self _, .sendB hnum hbuf⟩
  | sendB hc hbuf =>
    rename_i c port haveFailed buf
    obtain ⟨d, hd, -⟩ := StepB.clientPacket_eq_ok (P := D.params 472) c
    simp only [Session.clientStep, packetB_offer D 472, hd, State.clientTry_ok] at hs
    obtain rfl := Option.some.inj hs
    exact ⟨_, by rw [stepsFrom_succ hc]; omega, .sentB hc hbuf hd⟩
  | acknowledged hc hbuf =>
    rename_i c haveFailed buf d
    simp only [Session.clientStep, State.clientReceive, if_true, nextB_offer] at hs
    split at hs
    · obtain rfl := Option.some.inj hs
      exact ⟨_, Nat.lt_succ_self _, .sendB ‹_› hbuf⟩
    · obtain rfl := Option.some.inj hs
      have hlast : c + 1 = D.num1 := by omega
      rw [hlast]
      exact ⟨_, Nat.lt_succ_of_le (le_stepsFrom D _ _), .sentAll⟩
  | lastAcknowledged hc he =>
    simp only [Session.clientStep, State.clientReceive, if_true, nextB_offer,
      if_neg hc.not_lt] at hs
    obtain rfl := Option.some.inj hs
    exact ⟨_, Nat.lt_succ_self _, .final he⟩
  | final he =>
    obtain ⟨e, he', hparse⟩ := finalResponse_eq_ok (D.params 472) D.tcpPort D.secretB
    obtain rfl := Except.ok.inj (he'.symm.trans he)
    simp only [Session.clientStep, State.clientReceive, if_true, hparse, State.clientTry_ok] at hs
    obtain rfl := Option.some.inj hs
    exact ⟨_, Nat.lt_succ_self _, .connect⟩
  | connect =>
    simp only [Session.clientStep, Server.listens, and_self, if_true] at hs
    obtain rfl := Option.some.inj hs
    exact ⟨_, Nat.lt_succ_self _, .connected⟩
  | demanded hbuf hd =>
    obtain ⟨d, hd', hlength, hparse⟩ := responseC_eq_ok D 472
    obtain rfl := Except.ok.inj (hd'.symm.trans hd)
    have hread : read (newBytes (sizeHeader + 4 * sizeInt)) [d] = some (true, d, []) :=
      read_eq (by decide) hlength
    simp only [Session.clientStep, hread, Option.map_some, hparse, State.clientTry_ok] at hs
    obtain rfl := Option.some.inj hs
    obtain ⟨p, hp, -⟩ := packetD_eq_ok D
    refine ⟨_, ?_, .writing (d := p) le_rfl (Nat.zero_le _) hbuf hp (.inl rfl)⟩
    omega
  | writing hij hj hbuf hd hreadable =>
    rename_i i j buf d
    simp only [Session.clientStep, lt_demand, hd, State.clientTry_ok] at hs
    split at hs
    · rename_i hlt
      obtain rfl := Option.some.inj hs
      have hsucc : j - i + 1 = j + 1 - i := by omega
      rw [← List.replicate_succ', hsucc]
      refine ⟨_, ?_, .writing (hij.trans (Nat.le_succ j)) hlt hbuf hd hreadable⟩
      omega
    · rename_i hlt
      obtain rfl := Option.some.inj hs
      obtain rfl : j = D.num2 := le_antisymm hj (not_lt.1 hlt)
      refine ⟨_, ?_, .written hij hbuf hd hreadable⟩
      omega
  | answeredEarly hnum2 hd he =>
    obtain ⟨d, hd', hlength, hparse⟩ := responseC_eq_ok D 472
    obtain rfl := Except.ok.inj (hd'.symm.trans hd)
    have hread : ∀ l, read (newBytes (sizeHeader + 4 * sizeInt)) (d :: l) = some (true, d, l) :=
      fun l => read_eq (by decide) hlength
    simp only [Session.clientStep, hread, Option.map_some, hparse, State.clientTry_ok] at hs
    obtain rfl := Option.some.inj hs
    rw [← hnum2]
    exact ⟨_, by decide, .answeredWriting (.inl hnum2) he⟩
  | answeredWriting hreadable he =>
    simp only [Session.clientStep, lt_demand, lt_irrefl, if_false] at hs
    obtain rfl := Option.some.inj hs
    exact ⟨_, by decide, .answered hreadable he⟩
  | answered hreadable he =>
    obtain ⟨e, he', hlength, hsecret⟩ := responseD_eq_ok D 472
    obtain rfl := Except.ok.inj (he'.symm.trans he)
    have hread : read (newBytes (sizeHeader + sizeInt)) [e] = some (true, e, []) :=
      read_eq (by decide) hlength
    simp only [Session.clientStep, hread, Option.map_some, hsecret, State.clientTry_ok] at hs
    obtain rfl := Option.some.inj hs
    exact ⟨_, by decide, .done hreadable⟩
  | requested | accepted | sentB | dropped | sentAll | done =>
    simp [Session.clientStep, State.clientReceive] at hs
  | connected =>
    have hread : read (newBytes (sizeHeader + 4 * sizeInt)) [] = none := read_nil (by decide)
    simp [Session.clientStep, hread] at hs
  | written =>
    have hread : read (newBytes (sizeHeader + sizeInt)) [] = none := read_nil (by decide)
    simp [Session.clientStep, hread] at hs

theorem sizeHeader_lt_sizeD (hnum2 : D.num2.val ≠ 0) (h : D.Readable) : sizeHeader < sizeD D := by
  have := h.resolve_left hnum2
  rw [sizeD]
  omega

/-- What the server makes of the packets of step D: without a payload, it does not get
    to read them. -/
theorem serverStep_stepD {i k : ℕ} {buf d : List UInt8} {c : Client} (hi : i < D.num2)
    (hbuf : buf.length = sizeD D) (hd : packetD D.demand = .ok d) {down : List (List UInt8)}
    {drop : Bool}
    (hs : serverStep D ⟨c, .stepD 472 i buf, [], [], true, List.replicate k d, down⟩ drop =
      some s') :
    (D.Readable ∧ ∃ l, k = l + 1 ∧ ∃ buf', buf'.length = sizeD D ∧
      s' = ⟨c, .stepD 472 (i + 1) buf', [], [], true, List.replicate l d, down⟩) ∨
    ¬D.Readable ∧ s'.server = .thrown .illegalArgument := by
  have hnum2 : D.num2.val ≠ 0 := by omega
  simp only [serverStep, if_pos hi] at hs
  by_cases hreadable : D.Readable
  · refine .inl ⟨hreadable, ?_⟩
    have hsize := hbuf ▸ sizeHeader_lt_sizeD hnum2 hreadable
    cases k with
    | zero => simp [read_nil hsize] at hs
    | succ l =>
      obtain ⟨d', hd', hlength, hcheck⟩ := packetD_eq_ok D
      obtain rfl := Except.ok.inj (hd'.symm.trans hd)
      rw [List.replicate_succ, read_eq hsize (hlength.trans hbuf.symm)] at hs
      simp only [Option.map_some, hcheck, State.serverTry_ok] at hs
      exact ⟨l, rfl, d', hlength, (Option.some.inj hs).symm⟩
  · refine .inr ⟨hreadable, ?_⟩
    have hlen2 : D.len2.val = 0 := by
      rw [Draws.Readable] at hreadable
      omega
    rw [read_header (hbuf.trans (by rw [sizeD, hlen2]; rfl))] at hs
    obtain rfl := Option.some.inj hs
    rfl

/-- A step of the server leads to a phase with fewer steps left, but for an acknowledgement
    that it drops, and for a step D that cannot be done. -/
theorem Phase.serverStep (hnum : 0 < D.num1.val) (h : Phase D n s) {drop : Bool}
    (hs : Session.serverStep D s drop = some s') :
    (∃ m < n + if drop then 3 else 0, Phase D m s') ∨
      ¬D.Readable ∧ s'.server = .thrown .illegalArgument := by
  cases h with
  | requested hd =>
    obtain ⟨d, hd', hid⟩ := packetA_eq_ok
    obtain rfl := Except.ok.inj (hd'.symm.trans hd)
    simp only [Session.serverStep, State.serverReceive, if_true, hid] at hs
    obtain rfl := Option.some.inj hs
    exact .inl ⟨_, by omega, .accepted⟩
  | accepted =>
    obtain ⟨d, hd, -⟩ := responseA_eq_ok D 472
    simp only [Session.serverStep, hd, State.serverTry_ok] at hs
    obtain rfl := Option.some.inj hs
    exact .inl ⟨_, by omega, .offered hd List.length_replicate⟩
  | sentB hc hbuf hd =>
    rename_i c port haveFailed buf d
    obtain ⟨d', hd', hlength⟩ := StepB.clientPacket_eq_ok (P := D.params 472) c
    obtain rfl := Except.ok.inj (hd'.symm.trans hd)
    have hcheck := StepB.checkPacket_clientPacket (P := D.params 472) (i := c) (c := c)
      (by omega) (by omega) hd
    rw [if_pos rfl] at hcheck
    simp only [Session.serverStep, if_pos hc, State.serverReceive, if_true,
      StepB.receiveInto_of_length_eq (hlength.trans hbuf.symm), hcheck, State.serverTry_ok] at hs
    by_cases hdrop : drop ∨ c = D.num1 - 1 ∧ ¬haveFailed
    · rw [if_pos hdrop] at hs
      obtain rfl := Option.some.inj hs
      refine .inl ⟨_, ?_, .dropped hc hlength⟩
      rw [stepsFrom_succ hc, stepsFrom, stepsFrom]
      rcases hdrop with hdrop | ⟨-, hdrop⟩
      · rw [if_pos hdrop, if_pos rfl]
        omega
      · rw [if_neg hdrop, if_pos rfl]
        omega
    · obtain ⟨e, he⟩ := StepB.acknowledgement_eq_ok (P := D.params 472) c
      rw [if_neg hdrop, he, State.serverTry_ok] at hs
      obtain rfl := Option.some.inj hs
      exact .inl ⟨_, Nat.lt_add_right _ (Nat.lt_succ_self _), .acknowledged hc hlength⟩
  | acknowledged hc hbuf =>
    rename_i c haveFailed buf d
    obtain ⟨e, he, -⟩ := finalResponse_eq_ok (D.params 472) D.tcpPort D.secretB
    simp only [Session.serverStep, he, State.serverTry_ok] at hs
    split at hs
    · simp [State.serverReceive] at hs
    · obtain rfl := Option.some.inj hs
      refine .inl ⟨_, ?_, .lastAcknowledged (by omega) he⟩
      have := le_stepsFrom D (c + 1) haveFailed
      omega
  | sentAll =>
    obtain ⟨e, he, -⟩ := finalResponse_eq_ok (D.params 472) D.tcpPort D.secretB
    simp only [Session.serverStep, he, State.serverTry_ok, lt_irrefl, if_false] at hs
    obtain rfl := Option.some.inj hs
    exact .inl ⟨_, by omega, .final he⟩
  | connected =>
    obtain ⟨d, hd, -⟩ := responseC_eq_ok D 472
    simp only [Session.serverStep, if_true, hd, State.serverTry_ok] at hs
    obtain rfl := Option.some.inj hs
    exact .inl ⟨_, by omega, .demanded List.length_replicate hd⟩
  | demanded hbuf hd =>
    by_cases hnum2 : 0 < D.num2.val
    · obtain ⟨p, hp, -⟩ := packetD_eq_ok D
      rcases serverStep_stepD (k := 0) hnum2 hbuf hp hs with ⟨-, l, hl, -⟩ | hthrown
      · cases hl
      · exact .inr hthrown
    · obtain ⟨e, he, -⟩ := responseD_eq_ok D 472
      simp only [Session.serverStep, if_neg hnum2, he, State.serverTry_ok] at hs
      obtain rfl := Option.some.inj hs
      exact .inl ⟨_, by omega, .answeredEarly (by omega) hd he⟩
  | writing hij hj hbuf hd hreadable =>
    rename_i i j buf d
    by_cases hi : i < D.num2
    · rcases serverStep_stepD hi hbuf hd hs with ⟨hreadable, l, hl, buf', hbuf', rfl⟩ | hthrown
      · obtain rfl : l = j - (i + 1) := by omega
        exact .inl ⟨_, by omega, .writing (by omega) hj hbuf' hd (.inr hreadable)⟩
      · exact .inr hthrown
    · obtain ⟨e, he, -⟩ := responseD_eq_ok D 472
      obtain rfl : i = j := by omega
      obtain rfl : i = D.num2 := by omega
      simp only [Session.serverStep, lt_irrefl, if_false, he, State.serverTry_ok,
        Nat.sub_self] at hs
      obtain rfl := Option.some.inj hs
      refine .inl ⟨_, by omega, .answeredWriting (hreadable.elim .inl id) he⟩
  | written hi hbuf hd hreadable =>
    rename_i i buf d
    by_cases hlt : i < D.num2
    · rcases serverStep_stepD hlt hbuf hd hs with ⟨hreadable, l, hl, buf', hbuf', rfl⟩ | hthrown
      · obtain rfl : l = D.num2 - (i + 1) := by omega
        exact .inl ⟨_, by omega, .written hlt hbuf' hd (.inr hreadable)⟩
      · exact .inr hthrown
    · obtain ⟨e, he, -⟩ := responseD_eq_ok D 472
      obtain rfl : i = D.num2 := by omega
      simp only [Session.serverStep, lt_irrefl, if_false, he, State.serverTry_ok,
        Nat.sub_self] at hs
      obtain rfl := Option.some.inj hs
      refine .inl ⟨_, by omega, .answered (hreadable.elim .inl id) he⟩
  | offered | openB => simp [Session.serverStep, State.serverReceive, hnum] at hs
  | sendB hc | dropped hc => simp [Session.serverStep, State.serverReceive, hc] at hs
  | sendA | lastAcknowledged | final | connect | answeredEarly | answeredWriting | answered |
    done =>
    simp [Session.serverStep, State.serverReceive] at hs

/-- In every phase but the last, one of the two can go on, or the client times out for
    an acknowledgement that was dropped. -/
theorem Phase.progress (h : Phase D n s) :
    s.Agreed D ∨ (Session.clientStep D s).isSome ∨ (Session.serverStep D s false).isSome ∨
      (step D s .clientTimeout).isSome := by
  cases h with
  | done => exact .inl ⟨rfl, rfl⟩
  | sendA | openB | sendB => exact .inr (.inl rfl)
  | offered | acknowledged | lastAcknowledged | final =>
    exact .inr (.inl (by simp [Session.clientStep, State.clientReceive]))
  | connect => exact .inr (.inl (by simp [Session.clientStep, Server.listens]))
  | demanded hbuf hd | answeredEarly hnum2 hd =>
    obtain ⟨d, hd', hlength, -⟩ := responseC_eq_ok D 472
    obtain rfl := Except.ok.inj (hd'.symm.trans hd)
    have hread : ∀ l, read (newBytes (sizeHeader + 4 * sizeInt)) (d :: l) = some (true, d, l) :=
      fun l => read_eq (by decide) hlength
    exact .inr (.inl (by simp [Session.clientStep, hread]))
  | writing | answeredWriting =>
    refine .inr (.inl ?_)
    rw [Session.clientStep]
    dsimp only
    split <;> rfl
  | answered hreadable he =>
    obtain ⟨e, he', hlength, -⟩ := responseD_eq_ok D 472
    obtain rfl := Except.ok.inj (he'.symm.trans he)
    have hread : read (newBytes (sizeHeader + sizeInt)) [e] = some (true, e, []) :=
      read_eq (by decide) hlength
    exact .inr (.inl (by simp [Session.clientStep, hread]))
  | requested => exact .inr (.inr (.inl (by simp [Session.serverStep, State.serverReceive])))
  | accepted => exact .inr (.inr (.inl rfl))
  | sentB hc => exact .inr (.inr (.inl (by simp [Session.serverStep, State.serverReceive, hc])))
  | sentAll => exact .inr (.inr (.inl (by simp [Session.serverStep])))
  | connected => exact .inr (.inr (.inl (by simp [Session.serverStep])))
  | written hi hbuf hd hreadable =>
    rename_i i buf d
    refine .inr (.inr (.inl ?_))
    by_cases hlt : i < D.num2
    · have hsucc : D.num2 - i = D.num2 - (i + 1) + 1 := by omega
      simp only [Session.serverStep, if_pos hlt, hsucc, List.replicate_succ, Option.isSome_map]
      obtain ⟨d', hd', hlength, -⟩ := packetD_eq_ok D
      obtain rfl := Except.ok.inj (hd'.symm.trans hd)
      by_cases hsize : sizeHeader < buf.length
      · rw [read_eq hsize (hlength.trans hbuf.symm)]
        rfl
      · have hheader : buf.length = sizeHeader := by
          refine le_antisymm (not_lt.1 hsize) ?_
          rw [hbuf, sizeD]
          exact Nat.le_add_right _ _
        rw [read_header hheader]
        rfl
    · simp [Session.serverStep, hlt]
  | dropped hc =>
    refine .inr (.inr (.inr ?_))
    simp [step, Session.serverStep, State.serverReceive, hc, Client.timedOut]

/-- A step leads to a phase with fewer steps left, but for the drop of an acknowledgement,
    and for a step D that cannot be done. -/
theorem Phase.step (hnum : 0 < D.num1.val) (h : Phase D n s)
    (hs : Session.step D s a = some s') :
    (∃ m < n + if a = .server true then 3 else 0, Phase D m s') ∨
      ¬D.Readable ∧ s'.server = .thrown .illegalArgument := by
  cases a with
  | client =>
    obtain ⟨m, hm, hphase⟩ := h.clientStep hnum hs
    exact .inl ⟨m, by omega, hphase⟩
  | server drop => simpa using h.serverStep hnum hs
  | clientTimeout =>
    simp only [Session.step] at hs
    split at hs
    · rename_i hquiet
      obtain ⟨hsent, hback, hserver⟩ := hquiet
      obtain ⟨c, hc, rfl⟩ := Option.map_eq_some_iff.1 hs
      cases h with
      | dropped hlt hbuf =>
        obtain rfl := Option.some.inj hc
        exact .inl ⟨_, by omega, .sendB hlt hbuf⟩
      | sentAll => simp [Session.serverStep] at hserver
      | requested | sentB => cases hsent
      | offered | acknowledged | lastAcknowledged | final => cases hback
      | _ => cases hc
    · cases hs
  | serverTimeout =>
    simp only [Session.step] at hs
    split at hs
    · rename_i hquiet
      obtain ⟨hsent, hback, hserver, hclient, htimeout⟩ := hquiet
      obtain ⟨v, hv, rfl⟩ := Option.map_eq_some_iff.1 hs
      rcases h.progress with hdone | hgo | hgo | hgo
      · rw [hdone.2] at hv
        cases hv
      · rw [hclient] at hgo
        cases hgo
      · rw [hserver] at hgo
        cases hgo
      · simp [Session.step, htimeout] at hgo
    · cases hs
  | discardToClient =>
    simp only [Session.step] at hs
    cases h with
    | offered | acknowledged | lastAcknowledged | final => simp [Client.port] at hs
    | _ => cases hs
  | discardToServer =>
    simp only [Session.step] at hs
    cases h with
    | requested | sentB => simp [Server.port] at hs
    | _ => cases hs

theorem Phase.not_thrown (h : Phase D n s) (e : JavaException) :
    s.client ≠ .thrown e ∧ s.server ≠ .thrown e := by
  cases h <;> exact ⟨by simp, by simp⟩

theorem Phase.readable (h : Phase D n s) (hs : s.server = .done) : D.Readable := by
  cases h with
  | answeredEarly hnum2 => exact .inl hnum2
  | answeredWriting hreadable | answered hreadable | done hreadable => exact hreadable
  | _ => cases hs

/-- The steps of a run, and the steps left. -/
theorem phase_of_exec (hnum : 0 < D.num1.val) (hreadable : D.Readable) {l : List Action}
    (h : (session D).exec start l = some s) : ∃ m, Phase D m s ∧
      l.length + m ≤ stepsFrom D 0 false + 5 + 3 * l.count (.server true) := by
  induction l using List.reverseRecOn generalizing s with
  | nil =>
    obtain rfl := Option.some.inj h
    exact ⟨_, .sendA, by simp⟩
  | append_singleton l a ih =>
    obtain ⟨s₁, hs₁, hs⟩ := System.exec_concat.1 h
    obtain ⟨m, hphase, hm⟩ := ih hs₁
    rcases hphase.step hnum hs with ⟨k, hk, hphase'⟩ | ⟨hnot, -⟩
    · refine ⟨k, hphase', ?_⟩
      rw [List.length_append, List.count_append, List.length_singleton, List.count_singleton]
      by_cases ha : a = .server true
      · simp only [ha, if_true, beq_self_eq_true] at hk ⊢
        omega
      · simp only [ha, if_false, beq_eq_false_iff_ne.2 ha] at hk ⊢
        omega
    · exact absurd hreadable hnot

theorem phase_of_reachable (hnum : 0 < D.num1.val) (hreadable : D.Readable)
    (h : (session D).Reachable s) : ∃ m, Phase D m s := by
  refine h.invariant (I := fun s => ∃ m, Phase D m s) ?_ ?_
  · rintro s rfl
    exact ⟨_, .sendA⟩
  · rintro s a s' ⟨m, hphase⟩ hs
    rcases hphase.step hnum hs with ⟨k, -, hphase'⟩ | ⟨hnot, -⟩
    · exact ⟨k, hphase'⟩
    · exact absurd hreadable hnot

theorem completes_of_draws (hnum : 0 < D.num1.val) (hreadable : D.Readable) : Completes D where
  accepted s h := by
    obtain ⟨m, hphase⟩ := phase_of_reachable hnum hreadable h
    exact hphase.not_thrown
  delivered s h hstuck := by
    obtain ⟨m, hphase⟩ := phase_of_reachable hnum hreadable h
    rcases hphase.progress with hdone | hgo | hgo | hgo
    · exact hdone
    · have hnone : clientStep D s = none := hstuck .client
      rw [hnone] at hgo
      cases hgo
    · have hnone : serverStep D s false = none := hstuck (.server false)
      rw [hnone] at hgo
      cases hgo
    · rw [hstuck .clientTimeout] at hgo
      cases hgo
  ends := by
    refine ⟨stepsFrom D 0 false + 5, fun l s h => ?_⟩
    obtain ⟨m, -, hm⟩ := phase_of_exec hnum hreadable h
    omega

/-- If step D cannot be done, a run that drops no acknowledgement comes to where the server
    throws. -/
theorem exists_thrown (hnum : 0 < D.num1.val) (hreadable : ¬D.Readable) (h : Phase D n s)
    (hs : (session D).Reachable s) :
    ∃ s', (session D).Reachable s' ∧ s'.server = .thrown .illegalArgument := by
  induction n using Nat.strong_induction_on generalizing s with
  | _ n ih =>
    have hgo : ∀ a, a ≠ .server true → (step D s a).isSome →
        ∃ s', (session D).Reachable s' ∧ s'.server = .thrown .illegalArgument := by
      intro a ha hsome
      obtain ⟨s', hs'⟩ := Option.isSome_iff_exists.1 hsome
      rcases h.step hnum hs' with ⟨m, hm, hphase⟩ | ⟨-, hthrown⟩
      · rw [if_neg ha, Nat.add_zero] at hm
        exact ih m hm hphase (hs.step hs')
      · exact ⟨s', hs.step hs', hthrown⟩
    rcases h.progress with hdone | hclient | hserver | htimeout
    · exact absurd (h.readable hdone.2) hreadable
    · exact hgo .client (by simp) hclient
    · exact hgo (.server false) (by simp) hserver
    · exact hgo .clientTimeout (by simp) htimeout

/-- Without packets in step B, the response goes to the socket of step A, which the client
    has closed. -/
theorem exists_thrown_of_num1 (hnum : D.num1.val = 0) :
    ∃ s, (session D).Reachable s ∧ s.client = .thrown .socketTimeout := by
  obtain ⟨d, hd, hid⟩ := packetA_eq_ok
  obtain ⟨r, hr, hparse⟩ := responseA_eq_ok D 472
  obtain ⟨e, he, -⟩ := finalResponse_eq_ok (D.params 472) D.tcpPort D.secretB
  have h₁ : (session D).Reachable
      ⟨.receiveA, .listen, [⟨12235, D.portA, d⟩], [], false, [], []⟩ :=
    (System.Reachable.init rfl).step (a := .client)
      (by simp [session, step, clientStep, start, hd])
  have h₂ : (session D).Reachable ⟨.receiveA, .stepA 472 D.portA, [], [], false, [], []⟩ :=
    h₁.step (a := .server false)
      (by simp only [session, step, serverStep, State.serverReceive, if_true, hid])
  have h₃ : (session D).Reachable
      ⟨.receiveA, .loop 472 D.portA 0 false (newBytes (StepB.packetSize (D.params 472))), [],
        [(D.portA, r)], false, [], []⟩ :=
    h₂.step (a := .server false) (by simp [session, step, serverStep, hr])
  have h₄ : (session D).Reachable
      ⟨.openB D.offer, .loop 472 D.portA 0 false (newBytes (StepB.packetSize (D.params 472))), [],
        [], false, [], []⟩ :=
    h₃.step (a := .client) (by simp [session, step, clientStep, State.clientReceive, hparse])
  have h₅ : (session D).Reachable
      ⟨.openB D.offer, .accept 472, [], [(D.portA, e)], false, [], []⟩ :=
    h₄.step (a := .server false) (by simp [session, step, serverStep, hnum, he])
  have h₆ : (session D).Reachable ⟨.openB D.offer, .accept 472, [], [], false, [], []⟩ :=
    h₅.step (a := .discardToClient) (by simp [session, step, Client.port])
  have h₇ : (session D).Reachable ⟨.final D.offer, .accept 472, [], [], false, [], []⟩ :=
    h₆.step (a := .client) (by simp [session, step, clientStep, nextB_offer, hnum])
  have h₈ : (session D).Reachable
      ⟨.thrown .socketTimeout, .accept 472, [], [], false, [], []⟩ :=
    h₇.step (a := .clientTimeout) (by simp [session, step, serverStep, Client.timedOut])
  exact ⟨_, h₈, rfl⟩

/-- Every run of the client against the server goes through if and only if there is a packet
    to send in step B, and, if there are packets to send in step D, they have a payload. -/
theorem completes_iff (D : Draws) :
    Completes D ↔ 1 ≤ D.num1.val ∧ (D.num2.val = 0 ∨ 1 ≤ D.len2.val) := by
  constructor
  · intro h
    have hnum : 1 ≤ D.num1.val := by
      by_contra hzero
      obtain ⟨s, hs, hthrown⟩ := exists_thrown_of_num1 (D := D) (by omega)
      exact (h.accepted s hs _).1 hthrown
    refine ⟨hnum, ?_⟩
    by_contra hreadable
    obtain ⟨s, hs, hthrown⟩ := exists_thrown hnum hreadable .sendA (.init rfl)
    exact (h.accepted s hs _).2 hthrown
  · rintro ⟨hnum, hreadable⟩
    exact completes_of_draws hnum hreadable

/-- Draws without a packet to send in step B. -/
def noPackets : Draws where
  num1 := 0
  len1 := 10
  num2 := 5
  len2 := 8
  secretA := 1
  secretB := 2
  secretC := 3
  secretD := 4
  c := 65
  udpPort := 40000
  tcpPort := 30000
  portA := 50000
  portB := 50001

/-- The client waits in vain for the response of step B. -/
theorem not_completes_noPackets : ¬Completes noPackets := by
  intro h
  obtain ⟨s, hs, hthrown⟩ := exists_thrown_of_num1 (D := noPackets) rfl
  exact (h.accepted s hs _).1 hthrown

end Cse461.Secrets.Session
