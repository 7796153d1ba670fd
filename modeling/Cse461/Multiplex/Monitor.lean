import Cse461.Library.Progress
import Cse461.Multiplex.Send

/-!
# The monitor of a queue

`multiplex_writer.c`, as any number of threads call `write_block_to_queue` on one
queue while `listen_for_blocks` sends its blocks. Both sides hold the mutex of the
queue for what they do to it, and the sender sleeps on the condition variable as
long as the queue is empty.

* A step of a thread is one operation on the mutex, on the condition variable, on
  the queue or on the connection (`monitor`). The operations on the queue are
  atomic, as they hold its semaphore, and first-in-first-out
  (`Cse461.Multiplex.Queue`).
* `pthread_cond_signal` wakes the sender if it sleeps, and is lost otherwise; the
  sender may also be woken for no reason.

Seen from outside, this is the loop of `Cse461.Multiplex.Send` (`monitor_simulates`).
-/

namespace Cse461.Multiplex

open Library

/-- Where `listen_for_blocks` is: before one of its steps. -/
inductive SenderPc
  /-- `pthread_mutex_lock(&arg->queue->mutex)`. -/
  | lock
  /-- `while (is_empty(arg->queue))`. -/
  | test
  /-- `pthread_cond_wait`, which unlocks the mutex and sleeps. -/
  | wait
  /-- In `pthread_cond_wait`, asleep. -/
  | asleep
  /-- In `pthread_cond_wait`, awake: it locks the mutex again. -/
  | relock
  /-- `dequeue(arg->queue, &buf)`. -/
  | dequeue
  /-- `pthread_mutex_unlock(&arg->queue->mutex)`. -/
  | unlock (buf : List UInt8)
  /-- `send_tcp(buf, buf_len, arg->client_fd)`, and `free(buf)`. -/
  | send (buf : List UInt8)
  deriving DecidableEq

/-- Where a thread is in `write_block_to_queue`: before one of its steps. -/
inductive WriterPc
  /-- Not in a call. -/
  | outside
  /-- `pthread_mutex_lock(&queue->mutex)`. -/
  | lock (block : List UInt8)
  /-- `enqueue(queue, block, block_size)`. -/
  | enqueue (block : List UInt8)
  /-- `pthread_cond_signal(&queue->cv)`. -/
  | signal
  /-- `pthread_mutex_unlock(&queue->mutex)`. -/
  | unlock
  deriving DecidableEq

/-- A queue, the connection its blocks are sent over, and the threads on them. -/
structure Monitor (ι : Type) where
  /-- The blocks in the queue, the next to be dequeued first. -/
  queue : List (List UInt8)
  /-- The mutex is locked. -/
  locked : Bool
  /-- The bytes that were transmitted. -/
  wire : List UInt8
  /-- The thread of `listen_for_blocks`. -/
  sender : SenderPc
  /-- The threads that call `write_block_to_queue`. -/
  writer : ι → WriterPc

/-- What may happen next. -/
inductive MonitorAction (ι : Type)
  /-- A thread calls `write_block_to_queue`. -/
  | call (i : ι) (block : List UInt8)
  /-- The next step of a call. -/
  | writer (i : ι)
  /-- The next step of the sender, other than to send. -/
  | sender
  /-- The sender calls `send_tcp`, and `send` accepts a number of bytes, 0 where it
      returns -1. -/
  | sendTcp (accepted : ℕ)
  /-- `pthread_cond_wait` returns without a signal. -/
  | wake
  deriving DecidableEq

variable {ι : Type}

namespace Monitor

/-- `allocate_queue`, and `listen_for_blocks` is called. -/
def start : Monitor ι := ⟨[], false, [], .lock, fun _ => .outside⟩

/-- `pthread_mutex_lock`. -/
def lock (s : Monitor ι) : Option (Monitor ι) :=
  if s.locked then none else some { s with locked := true }

theorem lock_eq_some {s s' : Monitor ι} :
    s.lock = some s' ↔ s.locked = false ∧ { s with locked := true } = s' := by
  rw [lock]
  cases s.locked <;> simp

/-- `pthread_cond_signal`. -/
def signal (s : Monitor ι) : Monitor ι :=
  if s.sender = .asleep then { s with sender := .relock } else s

theorem signal_eq (s : Monitor ι) : s.signal = { s with sender := s.signal.sender } := by
  rw [signal]
  split <;> rfl

variable [DecidableEq ι] (s : Monitor ι)

/-- The thread `i` goes on at `p`. -/
def goWriter (i : ι) (p : WriterPc) : Monitor ι :=
  { s with writer := Function.update s.writer i p }

@[simp] theorem goWriter_self (i : ι) (p : WriterPc) : (s.goWriter i p).writer i = p :=
  Function.update_self _ _ _

theorem goWriter_of_ne {i j : ι} (h : j ≠ i) (p : WriterPc) :
    (s.goWriter i p).writer j = s.writer j :=
  Function.update_of_ne h _ _

@[simp] theorem goWriter_sender (i : ι) (p : WriterPc) : (s.goWriter i p).sender = s.sender := rfl
@[simp] theorem goWriter_queue (i : ι) (p : WriterPc) : (s.goWriter i p).queue = s.queue := rfl

/-- A step of `write_block_to_queue`. -/
def stepWriter (i : ι) : Option (Monitor ι) :=
  match s.writer i with
  | .outside => none
  | .lock block => s.lock.map fun s => s.goWriter i (.enqueue block)
  | .enqueue block => some ({ s with queue := s.queue ++ [block] }.goWriter i .signal)
  | .signal => some (s.signal.goWriter i .unlock)
  | .unlock => some ({ s with locked := false }.goWriter i .outside)

/-- A step of `listen_for_blocks`. -/
def stepSender : Option (Monitor ι) :=
  match s.sender with
  | .lock | .relock => s.lock.map fun s => { s with sender := .test }
  | .test => some { s with sender := if s.queue = [] then .wait else .dequeue }
  | .wait => some { s with locked := false, sender := .asleep }
  | .asleep | .send _ => none
  | .dequeue =>
    match s.queue with
    -- `dequeue` returns 0, and leaves `buf` as it is: not assigned.
    | [] => none
    | buf :: queue => some { s with queue := queue, sender := .unlock buf }
  | .unlock buf => some { s with locked := false, sender := .send buf }

/-- A step of `listen_for_blocks` at `send_tcp`: of a block, `send` accepts some prefix, or
    nothing if it fails, after which the sender goes on with the next block all the same. -/
def stepSend (accepted : ℕ) : Option (Monitor ι) :=
  match s.sender with
  | .send buf =>
    if accepted ≤ buf.length then
      some { s with wire := s.wire ++ buf.take accepted, sender := .lock }
    else
      none
  | _ => none

end Monitor

variable [DecidableEq ι]

/-- The threads on a queue. -/
def monitor (ι : Type) [DecidableEq ι] : System (Monitor ι) (MonitorAction ι) where
  init s := s = .start
  step s
    | .call i block =>
      if s.writer i = .outside then some (s.goWriter i (.lock block)) else none
    | .writer i => s.stepWriter i
    | .sender => s.stepSender
    | .sendTcp accepted => s.stepSend accepted
    | .wake => if s.sender = .asleep then some { s with sender := .relock } else none

/-! ## Steps -/

/-- What a step does. -/
inductive MonitorStep (s : Monitor ι) : MonitorAction ι → Monitor ι → Prop
  | call {i : ι} {block : List UInt8} : s.writer i = .outside →
      MonitorStep s (.call i block) (s.goWriter i (.lock block))
  | lock {i : ι} {block : List UInt8} : s.writer i = .lock block → s.locked = false →
      MonitorStep s (.writer i) ({ s with locked := true }.goWriter i (.enqueue block))
  | enqueue {i : ι} {block : List UInt8} : s.writer i = .enqueue block →
      MonitorStep s (.writer i) ({ s with queue := s.queue ++ [block] }.goWriter i .signal)
  | signal {i : ι} : s.writer i = .signal →
      MonitorStep s (.writer i) (s.signal.goWriter i .unlock)
  | unlock {i : ι} : s.writer i = .unlock →
      MonitorStep s (.writer i) ({ s with locked := false }.goWriter i .outside)
  | senderLock : s.sender = .lock ∨ s.sender = .relock → s.locked = false →
      MonitorStep s .sender { s with locked := true, sender := .test }
  | empty : s.sender = .test → s.queue = [] → MonitorStep s .sender { s with sender := .wait }
  | nonempty : s.sender = .test → s.queue ≠ [] →
      MonitorStep s .sender { s with sender := .dequeue }
  | wait : s.sender = .wait →
      MonitorStep s .sender { s with locked := false, sender := .asleep }
  | dequeue {buf : List UInt8} {queue : List (List UInt8)} :
      s.sender = .dequeue → s.queue = buf :: queue →
      MonitorStep s .sender { s with queue := queue, sender := .unlock buf }
  | senderUnlock {buf : List UInt8} : s.sender = .unlock buf →
      MonitorStep s .sender { s with locked := false, sender := .send buf }
  | send {buf : List UInt8} {k : ℕ} : s.sender = .send buf → k ≤ buf.length →
      MonitorStep s (.sendTcp k) { s with wire := s.wire ++ buf.take k, sender := .lock }
  | wake : s.sender = .asleep → MonitorStep s .wake { s with sender := .relock }

variable {s s' : Monitor ι} {a : MonitorAction ι} {l : List (MonitorAction ι)}

theorem stepWriter_cases {i : ι} (h : s.stepWriter i = some s') : MonitorStep s (.writer i) s' := by
  unfold Monitor.stepWriter at h
  split at h
  case h_1 => exact absurd h (by simp)
  case h_2 block hp =>
    obtain ⟨s₁, hs₁, rfl⟩ := Option.map_eq_some_iff.1 h
    obtain ⟨hlocked, rfl⟩ := Monitor.lock_eq_some.1 hs₁
    exact .lock hp hlocked
  case h_3 block hp =>
    obtain rfl := Option.some.inj h
    exact .enqueue hp
  case h_4 hp =>
    obtain rfl := Option.some.inj h
    exact .signal hp
  case h_5 hp =>
    obtain rfl := Option.some.inj h
    exact .unlock hp

theorem stepSender_cases (h : s.stepSender = some s') : MonitorStep s .sender s' := by
  unfold Monitor.stepSender at h
  split at h
  case h_1 hp =>
    obtain ⟨s₁, hs₁, rfl⟩ := Option.map_eq_some_iff.1 h
    obtain ⟨hlocked, rfl⟩ := Monitor.lock_eq_some.1 hs₁
    exact .senderLock (.inl hp) hlocked
  case h_2 hp =>
    obtain ⟨s₁, hs₁, rfl⟩ := Option.map_eq_some_iff.1 h
    obtain ⟨hlocked, rfl⟩ := Monitor.lock_eq_some.1 hs₁
    exact .senderLock (.inr hp) hlocked
  case h_3 hp =>
    obtain rfl := Option.some.inj h
    by_cases hempty : s.queue = []
    · rw [if_pos hempty]
      exact .empty hp hempty
    · rw [if_neg hempty]
      exact .nonempty hp hempty
  case h_4 hp =>
    obtain rfl := Option.some.inj h
    exact .wait hp
  case h_5 => exact absurd h (by simp)
  case h_6 => exact absurd h (by simp)
  case h_7 hp =>
    split at h
    case h_1 => exact absurd h (by simp)
    case h_2 hqueue =>
      obtain rfl := Option.some.inj h
      exact .dequeue hp hqueue
  case h_8 buf hp =>
    obtain rfl := Option.some.inj h
    exact .senderUnlock hp

theorem stepSend_cases {k : ℕ} (h : s.stepSend k = some s') : MonitorStep s (.sendTcp k) s' := by
  unfold Monitor.stepSend at h
  split at h
  case h_1 buf hp =>
    split at h
    case isTrue hk =>
      obtain rfl := Option.some.inj h
      exact .send hp hk
    case isFalse => exact absurd h (by simp)
  case h_2 => exact absurd h (by simp)

theorem monitor_step_cases (h : (monitor ι).step s a = some s') : MonitorStep s a s' := by
  cases a with
  | call i block =>
    obtain ⟨hp, hs⟩ := Option.ite_none_right_eq_some.1 h
    obtain rfl := Option.some.inj hs
    exact .call hp
  | writer i => exact stepWriter_cases h
  | sender => exact stepSender_cases h
  | sendTcp k => exact stepSend_cases h
  | wake =>
    obtain ⟨hp, hs⟩ := Option.ite_none_right_eq_some.1 h
    obtain rfl := Option.some.inj hs
    exact .wake hp

/-! ## Seen from outside -/

/-- The block that the sender took from the queue. -/
def SenderPc.buf : SenderPc → Option (List UInt8)
  | .unlock buf | .send buf => some buf
  | _ => none

/-- The block that a thread has not put on the queue yet. -/
def WriterPc.block : WriterPc → Option (List UInt8)
  | .lock block | .enqueue block => some block
  | _ => none

@[simp] theorem WriterPc.block_outside : WriterPc.outside.block = none := rfl
@[simp] theorem WriterPc.block_lock (block : List UInt8) : (lock block).block = some block := rfl
@[simp] theorem WriterPc.block_enqueue (block : List UInt8) :
    (enqueue block).block = some block := rfl
@[simp] theorem WriterPc.block_signal : signal.block = none := rfl
@[simp] theorem WriterPc.block_unlock : unlock.block = none := rfl

/-- What is seen of the threads: the queue, what was taken from it, and what was sent. -/
def Monitor.toSender (s : Monitor ι) : Sender := ⟨s.queue, s.sender.buf, s.wire⟩

/-- What a step puts on the queue, and the thread that does. -/
def puts (s : Monitor ι) : MonitorAction ι → Option (ι × List UInt8)
  | .writer i =>
    match s.writer i with
    | .enqueue block => some (i, block)
    | _ => none
  | _ => none

/-- The block that a step passes to `send`. -/
def sends (s : Monitor ι) : MonitorAction ι → Option (List UInt8)
  | .sendTcp _ =>
    match s.sender with
    | .send buf => some buf
    | _ => none
  | _ => none

/-- What is seen of a step. -/
def seen (s : Monitor ι) : MonitorAction ι → Option SendAction
  | .writer i => (puts s (.writer i)).map fun x => .writeBlockToQueue x.2
  | .sender => if s.sender = .dequeue then some .dequeue else none
  | .sendTcp accepted => some (.sendTcp accepted)
  | .call _ _ | .wake => none

theorem monitor_simulates : (monitor ι).Simulates sending Monitor.toSender seen := by
  intro s a s' h
  cases monitor_step_cases h with
  | call _ => rfl
  | lock hp _ => simp [seen, puts, hp, System.exec, Monitor.toSender, Monitor.goWriter]
  | enqueue hp =>
    simp [seen, puts, hp, System.exec, sending, Monitor.toSender, Monitor.goWriter]
  | signal hp =>
    by_cases hs : s.sender = .asleep
    · simp [seen, puts, hp, System.exec, Monitor.toSender, Monitor.goWriter, Monitor.signal, hs,
        SenderPc.buf]
    · simp [seen, puts, hp, System.exec, Monitor.toSender, Monitor.goWriter, Monitor.signal, hs]
  | unlock hp => simp [seen, puts, hp, System.exec, Monitor.toSender, Monitor.goWriter]
  | senderLock hp _ =>
    rcases hp with hp | hp <;> simp [seen, hp, System.exec, Monitor.toSender, SenderPc.buf]
  | empty hp _ | nonempty hp _ | wait hp =>
    simp [seen, hp, System.exec, Monitor.toSender, SenderPc.buf]
  | dequeue hp hqueue =>
    simp [seen, hp, hqueue, System.exec, sending, Monitor.toSender, SenderPc.buf]
  | senderUnlock hp => simp [seen, hp, System.exec, Monitor.toSender, SenderPc.buf]
  | send hp hk =>
    simp [seen, hp, hk, System.exec, sending, sendTcp, Monitor.toSender, SenderPc.buf]
  | wake hp => simp [seen, hp, System.exec, Monitor.toSender, SenderPc.buf]

/-! ## What is passed on -/

/-- The blocks that the thread `i` passed, in order. -/
def passed (i : ι) (l : List (MonitorAction ι)) : List (List UInt8) :=
  l.filterMap fun
    | .call j block => if j = i then some block else none
    | _ => none

/-- The numbers of bytes that `send` accepted, in order. -/
def sentCounts (l : List (MonitorAction ι)) : List ℕ :=
  l.filterMap fun
    | .sendTcp accepted => some accepted
    | _ => none

/-- Of some blocks, those of the thread `i`. -/
def blocksOf (i : ι) (log : List (ι × List UInt8)) : List (List UInt8) :=
  log.filterMap fun x => if x.1 = i then some x.2 else none

theorem passed_append (i : ι) (l l' : List (MonitorAction ι)) :
    passed i (l ++ l') = passed i l ++ passed i l' := List.filterMap_append

theorem blocksOf_append (i : ι) (log log' : List (ι × List UInt8)) :
    blocksOf i (log ++ log') = blocksOf i log ++ blocksOf i log' := List.filterMap_append

/-- How far a run got: the blocks `log` were put on the queue, those of each thread
    in the order in which it passed them, and of these the blocks `sent` were passed to
    `send`, and what it accepted of them is transmitted. -/
structure PassedOn (l : List (MonitorAction ι)) (s : Monitor ι) (log : List (ι × List UInt8))
    (sent : List (List UInt8)) : Prop where
  passed : ∀ i, passed i l = blocksOf i log ++ (s.writer i).block.toList
  log : log.map Prod.snd = sent ++ (s.sender.buf.toList ++ s.queue)
  sends : (monitor ι).trace sends .start l = sent
  counts : List.Forall₂ (fun k block => k ≤ block.length) (sentCounts l) sent
  wire : s.wire = prefixes (sentCounts l) sent

/-- A block is passed, and then it is put on the queue. -/
theorem passed_step (h : MonitorStep s a s') (i : ι) :
    (s.writer i).block.toList ++ passed i [a] =
      blocksOf i (puts s a).toList ++ (s'.writer i).block.toList := by
  cases h with
  | @call j block hp =>
    by_cases hij : j = i
    · subst hij
      simp [passed, blocksOf, puts, hp, Monitor.goWriter, WriterPc.block]
    · simp [passed, blocksOf, puts, hij, Ne.symm hij, Monitor.goWriter]
  | @lock j block hp _ =>
    by_cases hij : j = i
    · subst hij
      simp [passed, blocksOf, puts, hp, Monitor.goWriter, WriterPc.block]
    · simp [passed, blocksOf, puts, hp, Ne.symm hij, Monitor.goWriter]
  | @enqueue j block hp =>
    by_cases hij : j = i
    · subst hij
      simp [passed, blocksOf, puts, hp, Monitor.goWriter, WriterPc.block]
    · simp [passed, blocksOf, puts, hp, hij, Ne.symm hij, Monitor.goWriter]
  | @signal j hp | @unlock j hp =>
    by_cases hij : j = i
    · subst hij
      simp [passed, blocksOf, puts, hp, Monitor.goWriter, WriterPc.block]
    · by_cases hs : s.sender = .asleep
      all_goals
        simp [passed, blocksOf, puts, hp, Ne.symm hij, Monitor.goWriter, Monitor.signal, hs]
  | senderLock _ _ | empty _ _ | nonempty _ _ | wait _ | dequeue _ _ | senderUnlock _ | send _ _
  | wake _ => simp [passed, blocksOf, puts]

theorem passed_eq (hrun : (monitor ι).exec .start l = some s) (i : ι) :
    passed i l = blocksOf i ((monitor ι).trace puts .start l) ++ (s.writer i).block.toList := by
  induction l using List.reverseRecOn generalizing s with
  | nil =>
    obtain rfl := Option.some.inj hrun
    rfl
  | append_singleton l a ih =>
    obtain ⟨s₁, hl, hstep⟩ := System.exec_concat.1 hrun
    rw [passed_append, ih hl, System.trace_concat hl, blocksOf_append, List.append_assoc,
      List.append_assoc, passed_step (monitor_step_cases hstep)]

/-- A block is put on the queue, and then it is taken from it and passed to `send`. -/
theorem sends_step (h : MonitorStep s a s') :
    s.sender.buf.toList ++ (s.queue ++ ((puts s a).toList.map Prod.snd)) =
      (sends s a).toList ++ (s'.sender.buf.toList ++ s'.queue) := by
  cases h with
  | call _ => simp [puts, sends]
  | lock hp _ | enqueue hp | unlock hp => simp [puts, sends, hp]
  | signal hp =>
    by_cases hs : s.sender = .asleep
    · simp [puts, sends, hp, Monitor.goWriter, Monitor.signal, hs, SenderPc.buf]
    · simp [puts, sends, hp, Monitor.goWriter, Monitor.signal, hs]
  | senderLock hp _ => rcases hp with hp | hp <;> simp [puts, sends, hp, SenderPc.buf]
  | empty hp hqueue | nonempty hp hqueue | dequeue hp hqueue =>
    simp [puts, sends, hp, hqueue, SenderPc.buf]
  | wait hp | senderUnlock hp | send hp _ | wake hp => simp [puts, sends, hp, SenderPc.buf]

theorem sends_eq (hrun : (monitor ι).exec .start l = some s) :
    ((monitor ι).trace puts .start l).map Prod.snd =
      (monitor ι).trace sends .start l ++ (s.sender.buf.toList ++ s.queue) := by
  induction l using List.reverseRecOn generalizing s with
  | nil =>
    obtain rfl := Option.some.inj hrun
    rfl
  | append_singleton l a ih =>
    obtain ⟨s₁, hl, hstep⟩ := System.exec_concat.1 hrun
    rw [System.trace_concat hl, System.trace_concat hl, List.map_append, ih hl, List.append_assoc,
      List.append_assoc, List.append_assoc, sends_step (monitor_step_cases hstep)]

/-- What is put on the queue is seen so. -/
theorem placed_trace (s : Monitor ι) (l : List (MonitorAction ι)) :
    placed ((monitor ι).trace seen s l) = ((monitor ι).trace puts s l).map Prod.snd := by
  rw [placed, System.trace_filterMap, ← List.filterMap_eq_map, System.trace_filterMap]
  congr 1
  funext s a
  cases a with
  | writer i =>
    rw [seen]
    cases puts s (.writer i) <;> rfl
  | sender =>
    rw [seen]
    split <;> rfl
  | call _ _ | sendTcp _ | wake => rfl

theorem accepted_trace (hrun : (monitor ι).exec s l = some s') :
    accepted ((monitor ι).trace seen s l) = sentCounts l := by
  induction l using List.reverseRecOn generalizing s' with
  | nil => rfl
  | append_singleton l a ih =>
    obtain ⟨s₁, hl, hstep⟩ := System.exec_concat.1 hrun
    rw [System.trace_concat hl, accepted, List.filterMap_append, sentCounts, List.filterMap_append]
    refine congr (congrArg _ (ih hl)) ?_
    cases a with
    | writer i =>
      rw [seen]
      cases puts s₁ (.writer i) <;> rfl
    | sender =>
      rw [seen]
      split <;> rfl
    | call _ _ | sendTcp _ | wake => rfl

/-- What is put on the queue, and how far it got. -/
theorem exists_passedOn (hrun : (monitor ι).exec .start l = some s) :
    ∃ log sent, PassedOn l s log sent := by
  obtain ⟨sent, hplaced, hcounts, hwire⟩ := exists_sentSoFar (monitor_simulates.exec hrun)
  rw [placed_trace] at hplaced
  rw [accepted_trace hrun] at hcounts hwire
  have hsends := List.append_cancel_right ((sends_eq hrun).symm.trans hplaced)
  exact ⟨_, sent, passed_eq hrun, hplaced, hsends, hcounts, hwire⟩

end Cse461.Multiplex
