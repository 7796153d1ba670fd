import Cse461.Library.Transition

/-!
# The send loop

`listen_for_blocks` of `multiplex_writer.c`: a thread takes the blocks of its
queue, one after the other, and sends each over its connection, while other
threads put blocks on the queue (`write_block_to_queue`).

A block is passed to `send` once, whatever `send` returns, so what it does not
accept of a block is lost. The connection carries the blocks as they were put on
the queue exactly if every block is accepted as a whole (`transmits_iff`).

The queue is the list of the blocks in it, for `queue.c`: its calls return what those on a
list return (`Cse461.Multiplex.Queue.calls_fifo`).
-/

namespace Cse461.Multiplex

open Library

/-- The state of a queue and of the thread that sends its blocks. -/
structure Sender where
  /-- The blocks in the queue, the next to be dequeued first. -/
  queue : List (List UInt8)
  /-- The block that was dequeued and is not freed yet. -/
  buf : Option (List UInt8)
  /-- The bytes that were transmitted. -/
  wire : List UInt8
  deriving DecidableEq

/-- An empty queue, and a thread that waits for a block. -/
def Sender.empty : Sender := ⟨[], none, []⟩

/-- What may happen next. -/
inductive SendAction
  /-- A thread calls `write_block_to_queue`. -/
  | writeBlockToQueue (block : List UInt8)
  /-- The sender finds the queue not empty, and dequeues a block. -/
  | dequeue
  /-- The sender calls `send_tcp`, and `send` accepts a number of bytes, 0 where it
      returns -1. -/
  | sendTcp (accepted : ℕ)
  deriving DecidableEq

/-- `send_tcp`, followed by `free`: of a block, `send` accepts some prefix, or nothing if it
    fails, which `send_tcp` reports only. -/
def sendTcp (s : Sender) (block : List UInt8) (accepted : ℕ) : Option Sender :=
  if accepted ≤ block.length then
    some { s with buf := none, wire := s.wire ++ block.take accepted }
  else
    none

/-- The queue and its sender. Putting a block on the queue and taking one from it
    are atomic, as both hold the mutex. -/
def sending : System Sender SendAction where
  init s := s = .empty
  step s
    | .writeBlockToQueue block => some { s with queue := s.queue ++ [block] }
    | .dequeue =>
      match s.buf, s.queue with
      | none, block :: queue => some { s with buf := some block, queue := queue }
      | _, _ => none
    | .sendTcp accepted => s.buf.bind fun block => sendTcp s block accepted

/-- The blocks that were put on the queue, in order. -/
def placed (l : List SendAction) : List (List UInt8) :=
  l.filterMap fun
    | .writeBlockToQueue block => some block
    | _ => none

/-- The numbers of bytes that `send` accepted, in order. -/
def accepted (l : List SendAction) : List ℕ :=
  l.filterMap fun
    | .sendTcp accepted => some accepted
    | _ => none

/-- What was transmitted is the blocks that were sent, in the order in which they
    were put on the queue. -/
def Transmits (l : List SendAction) (s : Sender) : Prop :=
  s.wire = ((placed l).take (accepted l).length).flatten

/-! ## Prefixes -/

section

variable {counts : List ℕ} {blocks : List (List UInt8)}

/-- Prefixes of some blocks, one after the other. -/
def prefixes (counts : List ℕ) (blocks : List (List UInt8)) : List UInt8 :=
  (List.zipWith (fun k block => block.take k) counts blocks).flatten

theorem length_prefixes_le (counts : List ℕ) (blocks : List (List UInt8)) :
    (prefixes counts blocks).length ≤ blocks.flatten.length := by
  induction blocks generalizing counts with
  | nil => simp [prefixes]
  | cons block blocks ih =>
    cases counts with
    | nil => simp [prefixes]
    | cons k counts =>
      have := ih counts
      simp only [prefixes, List.zipWith_cons_cons, List.flatten_cons, List.length_append,
        List.length_take] at *
      omega

/-- A byte that is missing of a block is missing of all of them. -/
theorem prefixes_eq_iff (h : List.Forall₂ (fun k block => k ≤ block.length) counts blocks) :
    prefixes counts blocks = blocks.flatten ↔ counts = blocks.map List.length := by
  induction h with
  | nil => simp [prefixes]
  | @cons k block counts blocks hk _ ih =>
    have hle := length_prefixes_le counts blocks
    change block.take k ++ prefixes counts blocks = block ++ blocks.flatten ↔ _
    rw [List.map_cons, List.cons.injEq, ← ih]
    constructor
    · intro heq
      have hlen := congrArg List.length heq
      rw [List.length_append, List.length_append, List.length_take] at hlen
      have hall : k = block.length := by omega
      rw [hall, List.take_length] at heq
      exact ⟨hall, List.append_cancel_left heq⟩
    · rintro ⟨rfl, heq⟩
      rw [List.take_length, heq]

end

/-! ## Runs -/

/-- How far a run got: the blocks `sent`, or what was accepted of them, are
    transmitted, and the others are still to be sent. -/
structure SentSoFar (l : List SendAction) (s : Sender) (sent : List (List UInt8)) : Prop where
  placed : placed l = sent ++ (s.buf.toList ++ s.queue)
  accepted : List.Forall₂ (fun k block => k ≤ block.length) (accepted l) sent
  wire : s.wire = prefixes (Multiplex.accepted l) sent

variable {l : List SendAction} {s s' : Sender} {a : SendAction} {sent : List (List UInt8)}

/-- Each step keeps account of the blocks. -/
theorem SentSoFar.step (h : SentSoFar l s sent) (hs : sending.step s a = some s') :
    ∃ sent', SentSoFar (l ++ [a]) s' sent' := by
  obtain ⟨hplaced, haccepted, hwire⟩ := h
  cases a with
  | writeBlockToQueue block =>
    obtain rfl := Option.some.inj hs
    refine ⟨sent, ⟨?_, ?_, ?_⟩⟩
    · simp [Multiplex.placed, ← List.append_assoc] at hplaced ⊢
      simp [hplaced]
    · simpa [Multiplex.accepted] using haccepted
    · simpa [Multiplex.accepted] using hwire
  | dequeue =>
    rcases s with ⟨_ | ⟨block, queue⟩, _ | b, wire⟩ <;> simp only [sending, reduceCtorEq] at hs
    obtain rfl := Option.some.inj hs
    refine ⟨sent, ⟨?_, ?_, ?_⟩⟩
    · simpa [Multiplex.placed] using hplaced
    · simpa [Multiplex.accepted] using haccepted
    · simpa [Multiplex.accepted] using hwire
  | sendTcp k =>
    obtain ⟨block, hblock, hs⟩ := Option.bind_eq_some_iff.1 hs
    rw [sendTcp] at hs
    split at hs
    case isFalse => exact absurd hs (by simp)
    case isTrue hk =>
      obtain rfl := Option.some.inj hs
      have hsum : Multiplex.accepted (l ++ [.sendTcp k]) = Multiplex.accepted l ++ [k] := by
        simp [Multiplex.accepted]
      refine ⟨sent ++ [block], ⟨?_, ?_, ?_⟩⟩
      · rw [hblock] at hplaced
        simpa [Multiplex.placed] using hplaced
      · rw [hsum]
        exact List.rel_append haccepted (.cons hk .nil)
      · have hlen := haccepted.length_eq
        simp only [hsum, hwire, prefixes, List.zipWith_append hlen, List.flatten_append]
        simp

theorem exists_sentSoFar (hrun : sending.exec .empty l = some s) : ∃ sent, SentSoFar l s sent := by
  induction l using List.reverseRecOn generalizing s with
  | nil =>
    obtain rfl := Option.some.inj hrun
    exact ⟨[], rfl, .nil, rfl⟩
  | append_singleton l a ih =>
    obtain ⟨s₁, hl, hstep⟩ := System.exec_concat.1 hrun
    obtain ⟨sent, h⟩ := ih hl
    exact h.step hstep

/-- After any run, what was transmitted is the blocks that were sent exactly if
    `send` accepted each of them as a whole; and with nothing left in the queue or with the
    sender, these are all the blocks that were put on the queue. -/
theorem transmits_iff {l : List SendAction} {s : Sender}
    (hrun : sending.exec .empty l = some s) :
    (Transmits l s ↔
      accepted l = ((placed l).take (accepted l).length).map List.length) ∧
    (s.queue = [] → s.buf = none → (accepted l).length = (placed l).length) := by
  obtain ⟨sent, hplaced, haccepted, hwire⟩ := exists_sentSoFar hrun
  have hsent : (placed l).take (accepted l).length = sent := by
    rw [hplaced, haccepted.length_eq, List.take_left]
  constructor
  · rw [Transmits, hsent, hwire]
    exact prefixes_eq_iff haccepted
  · intro hqueue hbuf
    rw [hplaced, hqueue, hbuf, haccepted.length_eq]
    simp

/-- Two blocks, both of them accepted as a whole. -/
def twoSends : List SendAction :=
  [.writeBlockToQueue [1, 2, 3], .dequeue, .writeBlockToQueue [4], .sendTcp 3, .dequeue, .sendTcp 1]

theorem transmits_twoSends : ∃ s, sending.exec .empty twoSends = some s ∧ Transmits twoSends s ∧
    s.wire = [1, 2, 3, 4] ∧ (accepted twoSends).length = (placed twoSends).length := by
  have hrun : sending.exec .empty twoSends = some ⟨[], none, [1, 2, 3, 4]⟩ := by decide
  obtain ⟨hiff, hall⟩ := transmits_iff hrun
  exact ⟨_, hrun, hiff.2 (by decide), rfl, hall rfl rfl⟩

/-- The last byte of a block is lost if `send` does not accept it. -/
theorem not_transmits_short :
    ∃ s, sending.exec .empty [.writeBlockToQueue [1, 2, 3], .dequeue, .sendTcp 2] = some s ∧
      ¬Transmits [.writeBlockToQueue [1, 2, 3], .dequeue, .sendTcp 2] s :=
  ⟨⟨[], none, [1, 2]⟩, by decide, by unfold Transmits; decide⟩

end Cse461.Multiplex
