import Cse461.Multiplex.Monitor

/-!
# No wake-up is lost

The sender of `multiplex_writer.c` tests the queue before it sleeps, under the mutex
that it gives up as it falls asleep, and `write_block_to_queue` signals under it.

* The mutex is held by one thread at most (`Held`).
* While the sender sleeps on a queue that is not empty, there is a thread that is
  about to signal (`Waits`).
* So the threads can only come to rest outside of all calls, with nothing left to
  send (`idle_of_rests`), and they do come to rest (`spends`).
-/

namespace Cse461.Multiplex

open Library

/-- The sender holds the mutex. -/
def SenderPc.holds : SenderPc → Bool
  | .test | .wait | .dequeue | .unlock _ => true
  | _ => false

/-- The thread holds the mutex. -/
def WriterPc.holds : WriterPc → Bool
  | .enqueue _ | .signal | .unlock => true
  | _ => false

/-! ## The mutex -/

section

variable {ι : Type}

/-- A signal does not take the mutex. -/
theorem signal_holds (s : Monitor ι) : s.signal.sender.holds = s.sender.holds := by
  rw [Monitor.signal]
  split
  case isTrue hs => rw [hs]; rfl
  case isFalse => rfl

variable [Fintype ι]

/-- The number of threads in `write_block_to_queue` that hold the mutex. -/
abbrev holders (writer : ι → WriterPc) : ℕ := total (fun p => p.holds.toNat) writer

/-- The mutex is locked as long as a thread holds it, which no two threads do. -/
def Held (s : Monitor ι) : Prop := holders s.writer + s.sender.holds.toNat = s.locked.toNat

/-- A thread that holds the mutex is the only one. -/
theorem Held.sender_eq_false {s : Monitor ι} (h : Held s) {i : ι}
    (hi : (s.writer i).holds = true) : s.sender.holds = false := by
  have hle : (s.writer i).holds.toNat ≤ holders s.writer :=
    le_total (fun p : WriterPc => p.holds.toNat) s.writer i
  have hone : s.locked.toNat ≤ 1 := Bool.toNat_le _
  rw [Held] at h
  rw [hi, Bool.toNat_true] at hle
  exact Bool.toNat_eq_zero.1 (by omega)

variable [DecidableEq ι]

theorem holders_update (writer : ι → WriterPc) (i : ι) (p : WriterPc) :
    holders (Function.update writer i p) + (writer i).holds.toNat =
      holders writer + p.holds.toNat :=
  total_update _ _ _ _

theorem Held.step {s s' : Monitor ι} {a : MonitorAction ι} (h : Held s)
    (hstep : MonitorStep s a s') : Held s' := by
  have hone : s.locked.toNat ≤ 1 := Bool.toNat_le _
  rw [Held] at h ⊢
  cases hstep with
  | @call i block hp =>
    have hgo := holders_update s.writer i (.lock block)
    rw [hp] at hgo
    change holders (Function.update s.writer i _) + s.sender.holds.toNat = s.locked.toNat
    exact Nat.add_right_cancel hgo ▸ h
  | @lock i block hp hlocked =>
    have hgo := holders_update s.writer i (.enqueue block)
    rw [hp] at hgo
    change _ + 0 = _ + 1 at hgo
    change holders (Function.update s.writer i _) + s.sender.holds.toNat = 1
    rw [hlocked, Bool.toNat_false] at h
    omega
  | @enqueue i block hp =>
    have hgo := holders_update s.writer i .signal
    rw [hp] at hgo
    change holders (Function.update s.writer i _) + s.sender.holds.toNat = s.locked.toNat
    exact Nat.add_right_cancel hgo ▸ h
  | @signal i hp =>
    have hgo := holders_update s.writer i .unlock
    rw [hp] at hgo
    rw [Monitor.signal_eq]
    change holders (Function.update s.writer i _) + s.signal.sender.holds.toNat = s.locked.toNat
    rw [signal_holds]
    exact Nat.add_right_cancel hgo ▸ h
  | @unlock i hp =>
    have hgo := holders_update s.writer i .outside
    rw [hp] at hgo
    change _ + 1 = _ + 0 at hgo
    change holders (Function.update s.writer i _) + s.sender.holds.toNat = 0
    omega
  | senderLock hp hlocked =>
    change holders s.writer + 1 = 1
    rw [hlocked, Bool.toNat_false] at h
    omega
  | empty hp _ | nonempty hp _ | dequeue hp _ =>
    rw [hp] at h
    exact h
  | wait hp | senderUnlock hp =>
    rw [hp] at h
    change holders s.writer + 1 = _ at h
    change holders s.writer + 0 = 0
    omega
  | send hp _ | wake hp =>
    rw [hp] at h
    exact h

theorem held_of_reachable {s : Monitor ι} (h : (monitor ι).Reachable s) : Held s :=
  h.invariant
    (by rintro s rfl; exact congrArg (· + 0) (total_eq_zero fun _ => rfl))
    fun _ _ _ h hstep => h.step (monitor_step_cases hstep)

end

/-! ## The condition variable -/

section

variable {ι : Type}

/-- The thread `listen_for_blocks` is where the queue lets it be. -/
structure Waits (s : Monitor ι) : Prop where
  wait : s.sender = .wait → s.queue = []
  dequeue : s.sender = .dequeue → s.queue ≠ []
  /-- A wake-up is on its way. -/
  asleep : s.sender = .asleep → s.queue ≠ [] → ∃ i, s.writer i = .signal

theorem Waits.of_ne {s : Monitor ι} (hwait : s.sender ≠ .wait) (hdequeue : s.sender ≠ .dequeue)
    (hasleep : s.sender ≠ .asleep) : Waits s :=
  ⟨fun h => absurd h hwait, fun h => absurd h hdequeue, fun h => absurd h hasleep⟩

variable [DecidableEq ι]

/-- A step of a thread that is not about to signal takes no signal away. -/
theorem exists_signal_goWriter {s : Monitor ι} {i : ι} (hi : s.writer i ≠ .signal) (p : WriterPc)
    (h : ∃ j, s.writer j = .signal) : ∃ j, (s.goWriter i p).writer j = .signal := by
  obtain ⟨j, hj⟩ := h
  refine ⟨j, (s.goWriter_of_ne ?_ p).trans hj⟩
  rintro rfl
  exact hi hj

theorem Waits.step [Fintype ι] {s s' : Monitor ι} {a : MonitorAction ι} (h : Waits s)
    (hheld : Held s) (hstep : MonitorStep s a s') : Waits s' := by
  obtain ⟨hwait, hdequeue, hasleep⟩ := h
  cases hstep with
  | @call i block hp =>
    refine ⟨hwait, hdequeue, fun hs hq => ?_⟩
    exact exists_signal_goWriter (by simp [hp]) _ (hasleep hs hq)
  | @lock i block hp _ =>
    refine ⟨hwait, hdequeue, fun hs hq => ?_⟩
    exact exists_signal_goWriter (s := { s with locked := true }) (by simp [hp]) _ (hasleep hs hq)
  | @enqueue i block hp =>
    -- The sender does not hold the mutex, so it is not between its test and its sleep.
    have hsender : s.sender.holds = false := hheld.sender_eq_false (by rw [hp]; rfl)
    refine ⟨fun hs => ?_, fun hs => ?_, fun _ _ => ⟨i, Monitor.goWriter_self _ i _⟩⟩
    all_goals
      rw [show s.sender = _ from hs] at hsender
      exact absurd hsender (by simp [SenderPc.holds])
  | @signal i hp =>
    have hsender : s.sender.holds = false := hheld.sender_eq_false (by rw [hp]; rfl)
    by_cases hs : s.sender = .asleep
    · rw [Monitor.signal, if_pos hs]
      exact .of_ne (by simp) (by simp) (by simp)
    · rw [Monitor.signal, if_neg hs]
      exact ⟨hwait, hdequeue, fun h => absurd h hs⟩
  | @unlock i hp =>
    refine ⟨hwait, hdequeue, fun hs hq => ?_⟩
    exact exists_signal_goWriter (s := { s with locked := false }) (by simp [hp]) _ (hasleep hs hq)
  | empty _ hq => exact ⟨fun _ => hq, by simp, by simp⟩
  | nonempty _ hq => exact ⟨by simp, fun _ => hq, by simp⟩
  | wait hp => exact ⟨by simp, by simp, fun _ hq => absurd (hwait hp) hq⟩
  | senderLock _ _ | dequeue _ _ | senderUnlock _ | send _ _ | wake _ =>
    exact .of_ne (by simp) (by simp) (by simp)

theorem waits_of_reachable [Fintype ι] {s : Monitor ι} (h : (monitor ι).Reachable s) : Waits s := by
  induction h with
  | init h =>
    obtain rfl := h
    exact .of_ne (by simp [Monitor.start]) (by simp [Monitor.start]) (by simp [Monitor.start])
  | step hs hstep ih => exact ih.step (held_of_reachable hs) (monitor_step_cases hstep)

end

/-! ## Rest -/

section

variable {ι : Type}

variable [DecidableEq ι]

/-- Every call returned, all that was put on the queue is sent, and the sender sleeps
    until there is more. -/
structure Idle (s : Monitor ι) : Prop where
  queue : s.queue = []
  sender : s.sender = .asleep
  writer : ∀ i, s.writer i = .outside

/-- What is paid for a step: for a call, and for a wake-up without a signal. -/
def MonitorAction.cost : MonitorAction ι → ℕ
  | .call _ _ => 13
  | .wake => 4
  | _ => 0

/-- A thread that holds the mutex can go on, up to where it unlocks it. -/
theorem not_locked_of_rests [Fintype ι] {s : Monitor ι} (h : (monitor ι).Reachable s)
    (hrest : (monitor ι).Rests MonitorAction.cost s) : s.locked = false := by
  have hheld := held_of_reachable h
  by_contra hlocked
  rw [Held, Bool.of_not_eq_false hlocked, Bool.toNat_true] at hheld
  by_cases hs : s.sender.holds = true
  · have hnone : s.stepSender = none := hrest .sender rfl
    cases hp : s.sender with
    | test | wait | unlock _ => simp [Monitor.stepSender, hp] at hnone
    | dequeue =>
      obtain ⟨block, queue, hq⟩ := List.exists_cons_of_ne_nil ((waits_of_reachable h).dequeue hp)
      simp [Monitor.stepSender, hp, hq] at hnone
    | lock | asleep | relock | send _ => simp [hp, SenderPc.holds] at hs
  · rw [Bool.eq_false_of_not_eq_true hs, Bool.toNat_false, add_zero] at hheld
    have hex : ∃ i, (s.writer i).holds = true := by
      by_contra hno
      have hzero : holders s.writer = 0 := total_eq_zero fun i => by
        rw [Bool.eq_false_of_not_eq_true fun hi => hno ⟨i, hi⟩, Bool.toNat_false]
      omega
    obtain ⟨i, hi⟩ := hex
    have hnone : s.stepWriter i = none := hrest (.writer i) rfl
    cases hp : s.writer i with
    | enqueue _ | signal | unlock => simp [Monitor.stepWriter, hp] at hnone
    | outside | lock _ => simp [hp, WriterPc.holds] at hi

/-- Where no thread can go on, no wake-up was lost. -/
theorem idle_of_rests [Fintype ι] {s : Monitor ι} (h : (monitor ι).Reachable s)
    (hrest : (monitor ι).Rests MonitorAction.cost s) : Idle s := by
  have hlocked := not_locked_of_rests h hrest
  have hheld := held_of_reachable h
  rw [Held, hlocked, Bool.toNat_false] at hheld
  have hwriter : ∀ i, s.writer i = .outside := fun i => by
    have hnone : s.stepWriter i = none := hrest (.writer i) rfl
    cases hp : s.writer i with
    | outside => rfl
    | lock _ => simp [Monitor.stepWriter, hp, Monitor.lock, hlocked] at hnone
    | enqueue _ | signal | unlock => simp [Monitor.stepWriter, hp] at hnone
  have hsender : s.sender = .asleep := by
    have hnone : s.stepSender = none := hrest .sender rfl
    cases hp : s.sender with
    | asleep => rfl
    | lock | relock => simp [Monitor.stepSender, hp, Monitor.lock, hlocked] at hnone
    | test | wait | unlock _ => simp [Monitor.stepSender, hp] at hnone
    | dequeue =>
      rw [hp] at hheld
      exact absurd hheld (by simp [SenderPc.holds])
    | send buf =>
      -- `send` can accept all of the block.
      have hsend : s.stepSend buf.length = none := hrest (.sendTcp buf.length) rfl
      simp [Monitor.stepSend, hp] at hsend
  refine ⟨?_, hsender, hwriter⟩
  by_contra hq
  obtain ⟨i, hi⟩ := (waits_of_reachable h).asleep hsender hq
  exact absurd ((hwriter i).symm.trans hi) (by simp)

/-! ## Progress -/

/-- What is left of a round of the sender. -/
def SenderPc.left : SenderPc → ℕ
  | .asleep => 0
  | .wait | .dequeue => 1
  | .test => 2
  | .lock | .relock => 3
  | .send _ => 4
  | .unlock _ => 5

/-- What is left of a call, and of what the sender has to do for it. -/
def WriterPc.left : WriterPc → ℕ
  | .outside => 0
  | .unlock => 1
  | .signal => 5
  | .enqueue _ => 11
  | .lock _ => 12

/-- What is left to do, at most. -/
def Monitor.left [Fintype ι] (s : Monitor ι) : ℕ :=
  total WriterPc.left s.writer + s.sender.left + 5 * s.queue.length

theorem spends [Fintype ι] : (monitor ι).Spends MonitorAction.cost Monitor.left := by
  intro s a s' h
  have hupdate := fun i p => total_update WriterPc.left s.writer i p
  cases monitor_step_cases h with
  | @call i block hp =>
    have hgo := hupdate i (.lock block)
    rw [hp] at hgo
    simp only [Monitor.left, Monitor.goWriter, WriterPc.left, MonitorAction.cost] at hgo ⊢
    omega
  | @lock i block hp _ =>
    have hgo := hupdate i (.enqueue block)
    rw [hp] at hgo
    simp only [Monitor.left, Monitor.goWriter, WriterPc.left, MonitorAction.cost] at hgo ⊢
    omega
  | @enqueue i block hp =>
    have hgo := hupdate i .signal
    rw [hp] at hgo
    simp only [Monitor.left, Monitor.goWriter, WriterPc.left, MonitorAction.cost,
      List.length_append, List.length_singleton] at hgo ⊢
    omega
  | @signal i hp =>
    have hgo := hupdate i .unlock
    rw [hp] at hgo
    -- A sender that is woken has to test the queue again.
    have hleft : s.signal.sender.left ≤ s.sender.left + 3 := by
      rw [Monitor.signal]
      split
      · exact Nat.le_add_left _ _
      · exact Nat.le_add_right _ _
    rw [Monitor.signal_eq]
    simp only [Monitor.left, Monitor.goWriter, WriterPc.left, MonitorAction.cost] at hgo ⊢
    omega
  | @unlock i hp =>
    have hgo := hupdate i .outside
    rw [hp] at hgo
    simp only [Monitor.left, Monitor.goWriter, WriterPc.left, MonitorAction.cost] at hgo ⊢
    omega
  | senderLock hp _ =>
    rcases hp with hp | hp
    all_goals
      simp only [Monitor.left, hp, SenderPc.left, MonitorAction.cost]
      omega
  | empty hp _ | nonempty hp _ | wait hp | senderUnlock hp | send hp _ | wake hp =>
    simp only [Monitor.left, hp, SenderPc.left, MonitorAction.cost]
    omega
  | dequeue hp hq =>
    simp only [Monitor.left, hp, hq, SenderPc.left, List.length_cons, MonitorAction.cost]
    omega

/-- The threads rest exactly where they are idle. -/
theorem rests_iff_idle [Fintype ι] {s : Monitor ι} (h : (monitor ι).Reachable s) :
    (monitor ι).Rests MonitorAction.cost s ↔ Idle s := by
  refine ⟨idle_of_rests h, fun hidle a ha => ?_⟩
  cases a with
  | call _ _ | wake => simp [MonitorAction.cost] at ha
  | writer i => simp [monitor, Monitor.stepWriter, hidle.writer i]
  | sender => simp [monitor, Monitor.stepSender, hidle.sender]
  | sendTcp k => simp [monitor, Monitor.stepSend, hidle.sender]

/-- A run takes a number of steps for each call and each wake-up without a signal, at
    most. It can go on until the threads are idle, which they are as soon as none of
    them can go on: no wake-up is lost, and no thread waits for another for ever. -/
theorem exec_comes_to_idle [Fintype ι] {l : List (MonitorAction ι)} {s : Monitor ι}
    (hrun : (monitor ι).exec .start l = some s) :
    l.length ≤ 3 + (l.map MonitorAction.cost).sum ∧
      ((monitor ι).Rests MonitorAction.cost s ↔ Idle s) ∧
      ∃ l' s', (∀ a ∈ l', a.cost = 0) ∧ (monitor ι).exec s l' = some s' ∧ Idle s' := by
  have hs : (monitor ι).Reachable s := System.reachable_of_exec rfl hrun
  refine ⟨?_, rests_iff_idle hs, ?_⟩
  · have hle := spends.length_le hrun
    have hstart : (Monitor.start : Monitor ι).left = 0 + 3 + 0 :=
      congrArg (· + 3 + 0) (total_eq_zero fun _ => rfl)
    omega
  · exact spends.exists_settled hs fun _ => idle_of_rests

/-- Once the threads are idle, each block that was passed was passed to `send`, once; those of
    each thread in the order in which it passed them. They are transmitted as a whole if
    and only if `send` accepted each of them as a whole. -/
theorem transmits_passed_of_rests [Fintype ι] {l : List (MonitorAction ι)} {s : Monitor ι}
    (hrun : (monitor ι).exec .start l = some s)
    (hrest : (monitor ι).Rests MonitorAction.cost s) :
    ∃ log : List (ι × List UInt8), (∀ i, blocksOf i log = passed i l) ∧
      (monitor ι).trace sends .start l = log.map Prod.snd ∧
      (sentCounts l).length = log.length ∧
      s.wire = prefixes (sentCounts l) (log.map Prod.snd) ∧
      (s.wire = (log.map Prod.snd).flatten ↔
        sentCounts l = (log.map Prod.snd).map List.length) := by
  obtain ⟨hqueue, hsender, hwriter⟩ := idle_of_rests (System.reachable_of_exec rfl hrun) hrest
  obtain ⟨log, sent, hpassed, hlog, hsends, hcounts, hwire⟩ := exists_passedOn hrun
  have hsent : log.map Prod.snd = sent := by
    rw [hlog, hqueue, hsender]
    exact List.append_nil _
  refine ⟨log, fun i => ?_, hsends.trans hsent.symm, ?_, ?_, ?_⟩
  · rw [hpassed i, hwriter i]
    exact (List.append_nil _).symm
  · rw [hcounts.length_eq, ← hsent, List.length_map]
  · rw [hwire, hsent]
  · rw [hwire, hsent]
    exact prefixes_eq_iff hcounts

end

/-- The sender falls asleep, wakes up for no reason and sleeps again. The second thread wakes
    it; the signal of the first is lost, as the sender is at work on the block. Of the first
    thread's block, `send` accepts one byte of two. -/
def twoThreads : List (MonitorAction Bool) :=
  [.sender, .sender, .sender, .wake, .sender, .sender, .sender,
    .call true [1, 2], .call false [3, 4], .writer true, .writer true, .writer true, .writer true,
    .sender, .sender, .sender, .sender, .writer false, .writer false, .sendTcp 2, .writer false,
    .writer false, .sender, .sender, .sender, .sender, .sendTcp 1, .sender, .sender, .sender]

theorem exists_idle_twoThreads :
    ∃ s, (monitor Bool).exec .start twoThreads = some s ∧ Idle s ∧ s.wire = [1, 2, 3] := by
  have hrun : ((monitor Bool).exec .start twoThreads).map (fun s =>
      (s.queue, s.sender, s.writer false, s.writer true, s.wire)) =
        some ([], .asleep, .outside, .outside, [1, 2, 3]) := by decide
  obtain ⟨s, hs, heq⟩ := Option.map_eq_some_iff.1 hrun
  simp only [Prod.mk.injEq] at heq
  obtain ⟨hqueue, hsender, hfalse, htrue, hwire⟩ := heq
  exact ⟨s, hs, ⟨hqueue, hsender, Bool.rec hfalse htrue⟩, hwire⟩

theorem exec_comes_to_idle_twoThreads : ∃ s, (monitor Bool).exec .start twoThreads = some s ∧
    twoThreads.length ≤ 3 + (twoThreads.map MonitorAction.cost).sum ∧
    ((monitor Bool).Rests MonitorAction.cost s ↔ Idle s) := by
  obtain ⟨s, hs, _, _⟩ := exists_idle_twoThreads
  obtain ⟨hlength, hiff, _⟩ := exec_comes_to_idle hs
  exact ⟨s, hs, hlength, hiff⟩

theorem transmits_passed_twoThreads : ∃ s, (monitor Bool).exec .start twoThreads = some s ∧
    s.wire = [1, 2, 3] ∧ ∃ log : List (Bool × List UInt8),
      blocksOf true log = [[1, 2]] ∧ blocksOf false log = [[3, 4]] ∧ log.length = 2 ∧
      [[1, 2], [3, 4]] = log.map Prod.snd ∧ s.wire = prefixes [2, 1] (log.map Prod.snd) := by
  obtain ⟨s, hs, hidle, hwire⟩ := exists_idle_twoThreads
  obtain ⟨log, hlog, hsends, hlength, hsent, _⟩ := transmits_passed_of_rests hs
    ((rests_iff_idle (System.reachable_of_exec rfl hs)).2 hidle)
  exact ⟨s, hs, hwire, log, hlog true, hlog false, hlength.symm, hsends, hsent⟩

end Cse461.Multiplex
