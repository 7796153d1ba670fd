import Cse461.Library.Progress
import Cse461.Table.Locking

/-!
# The calls of the hash table return

The locks of `HashTable.c` do not only exclude threads from each other: in a run in
which no insert swaps the records, and none gives up on a larger table that
`FreeHashTable` does not return from, no thread waits for ever (`calls_return`). An
insert that gives up on such a table, one with two keys in a chain, stays there for
ever, with the lock (`stuck_of_not_freeable`).

* A step of a call brings it closer to its end, whatever the other threads do
  (`spends_locking`).
* A thread that waits for a semaphore waits for one that can go on
  (`outside_of_rests`). A reader that waits for `wrt`, holding `mutex`, is the only
  one that is counted (`Ordered`), and so there are no readers in front of it.

This takes a `readcount` that can tell the readers apart: no more than 2 ^ 32 threads.
-/

namespace Cse461.Table

open Library

/-- What is paid for a step: for a call. -/
def callCost {ι : Type} : ι × Choice → ℕ
  | (_, .call _) => 12
  | _ => 0

/-! ## Progress -/

/-- What is left of a call. -/
def Pc.left : Pc → ℕ
  | .outside => 0
  | .insert _ .wait => 5
  | .insert _ .resize => 4
  | .insert _ (.free _) => 3
  | .insert _ .put => 2
  | .insert _ .post => 1
  | .remove _ .wait => 3
  | .remove _ .delete => 2
  | .remove _ .post => 1
  | .lookup .wait => 11
  | .lookup .count => 10
  | .lookup .first => 9
  | .lookup .waitWrt => 8
  | .lookup .post => 7
  | .lookup .find => 6
  | .lookup .rewait => 5
  | .lookup .uncount => 4
  | .lookup .last => 3
  | .lookup .postWrt => 2
  | .lookup .repost => 1

section Left

variable {t t' : HashTableRecord} {p p' : Pc} {c : Choice} {key : UInt64}

theorem left_stepInsert {p : InsertPc} (h : stepInsert t key p c = some (t', p')) :
    p'.left < (Pc.insert key p).left := by
  unfold stepInsert at h
  split at h
  case h_1 =>
    obtain ⟨rfl, _⟩ := waitWrt_eq_some h
    simp [Pc.left]
  case h_4 | h_5 =>
    obtain ⟨new, _, heq⟩ := Option.map_eq_some_iff.1 h
    obtain ⟨rfl, rfl⟩ := Prod.mk.inj heq
    exact Nat.lt_succ_self 3
  case h_7 | h_8 | h_9 | h_10 =>
    obtain ⟨rfl, rfl⟩ := Prod.mk.inj (Option.some.inj h)
    simp [Pc.left]
  case h_11 => exact absurd h (by simp)
  all_goals
    simp only [Option.ite_none_right_eq_some, Option.ite_none_left_eq_some] at h
    obtain ⟨rfl, rfl⟩ := Prod.mk.inj (Option.some.inj h.2)
    simp [Pc.left]

theorem left_stepRemove {p : RemovePc} (h : stepRemove t key p c = some (t', p')) :
    p'.left < (Pc.remove key p).left := by
  unfold stepRemove at h
  split at h
  case h_1 =>
    obtain ⟨rfl, _⟩ := waitWrt_eq_some h
    simp [Pc.left]
  case h_2 | h_3 | h_4 =>
    obtain ⟨rfl, rfl⟩ := Prod.mk.inj (Option.some.inj h)
    simp [Pc.left]
  case h_5 => exact absurd h (by simp)

theorem left_stepLookup {p : LookupPc} (h : stepLookup t p = some (t', p')) :
    p'.left < (Pc.lookup p).left := by
  cases p with
  | wait | rewait =>
    obtain ⟨rfl, _⟩ := waitMutex_eq_some h
    decide
  | waitWrt =>
    obtain ⟨rfl, _⟩ := waitWrt_eq_some h
    decide
  | first | last =>
    obtain ⟨rfl, rfl⟩ := Prod.mk.inj (Option.some.inj h)
    split <;> decide
  | count | post | find | uncount | postWrt | repost =>
    obtain ⟨rfl, rfl⟩ := Prod.mk.inj (Option.some.inj h)
    decide

/-- A step brings a call closer to its end. -/
theorem left_stepThread {ι : Type} (i : ι) (h : stepThread t p c = some (t', p')) :
    p'.left < p.left + callCost (i, c) := by
  unfold stepThread at h
  split at h
  case h_1 op =>
    obtain ⟨rfl, rfl⟩ := Prod.mk.inj (Option.some.inj h)
    cases op <;> simp [Op.entry, Pc.left, callCost]
  case h_2 => exact (left_stepInsert h).trans_le (Nat.le_add_right _ _)
  case h_3 => exact (left_stepRemove h).trans_le (Nat.le_add_right _ _)
  case h_4 => exact left_stepLookup h
  case h_5 => exact absurd h (by simp)

end Left

variable {ι : Type} [DecidableEq ι] [Fintype ι]

/-- What is left of all calls. -/
def callsLeft (s : Threads ι HashTableRecord Pc) : ℕ := total Pc.left s.pc

theorem spends_locking : (locking ι).Spends callCost callsLeft := by
  intro s a s' h
  obtain ⟨i, c⟩ := a
  obtain ⟨p', hthread, hpc⟩ := threads_step_eq_some.1 h
  have hleft := left_stepThread i hthread
  have hupdate := total_update Pc.left s.pc i p'
  rw [callsLeft, callsLeft, hpc]
  omega

/-! ## Waiting -/

/-- The larger table that an insert gives up on can be freed. -/
def Choice.Freed (t : HashTableRecord) : Choice → Prop
  | .giveUp items => ∀ new ∈ t.givenUp items, new.Freeable
  | _ => True

instance (t : HashTableRecord) (c : Choice) : Decidable (c.Freed t) :=
  match c with
  | .giveUp items => inferInstanceAs (Decidable (∀ new ∈ t.givenUp items, new.Freeable))
  | .call _ | .go | .fail | .failEntry | .swap _ => .isTrue trivial

/-- What an insert has to free can be freed, and a reader that waits for `wrt` is the
    first. -/
structure Ordered (s : Threads ι HashTableRecord Pc) : Prop where
  freeable : ∀ i key newht, s.pc i = .insert key (.free newht) → newht.Freeable
  first : ∀ i, s.pc i = .lookup .waitWrt → s.shared.readcount = 1

omit [DecidableEq ι] [Fintype ι] in
theorem ordered_init {s : Threads ι HashTableRecord Pc} (hpc : ∀ i, s.pc i = .outside) :
    Ordered s :=
  ⟨fun i key newht => by simp [hpc i], fun i => by simp [hpc i]⟩

section Step

variable {t t' : HashTableRecord} {p' : Pc} {c : Choice} {key : UInt64}

/-- An insert that does not swap the records has only the table to free that it gave up on. -/
theorem freeable_of_stepInsert {p : InsertPc} (h : stepInsert t key p c = some (t', p'))
    (hswap : ∀ items, c ≠ .swap items) (hfreed : c.Freed t) {key' : UInt64}
    {newht : HashTableRecord} : p' = .insert key' (.free newht) → newht.Freeable := by
  unfold stepInsert at h
  split at h
  case h_1 =>
    obtain ⟨rfl, _⟩ := waitWrt_eq_some h
    simp
  case h_4 => exact absurd rfl (hswap _)
  case h_5 items =>
    obtain ⟨new, hnew, heq⟩ := Option.map_eq_some_iff.1 h
    obtain ⟨rfl, rfl⟩ := Prod.mk.inj heq
    intro hp
    simp only [Pc.insert.injEq, InsertPc.free.injEq] at hp
    exact hp.2 ▸ hfreed new hnew
  case h_7 | h_8 | h_9 | h_10 =>
    obtain ⟨rfl, rfl⟩ := Prod.mk.inj (Option.some.inj h)
    simp
  case h_11 => exact absurd h (by simp)
  all_goals
    simp only [Option.ite_none_right_eq_some, Option.ite_none_left_eq_some] at h
    obtain ⟨rfl, rfl⟩ := Prod.mk.inj (Option.some.inj h.2)
    simp

theorem stepRemove_ne_insert {p : RemovePc} (h : stepRemove t key p c = some (t', p'))
    (key' : UInt64) (q : InsertPc) : p' ≠ .insert key' q := by
  unfold stepRemove at h
  split at h
  case h_1 =>
    obtain ⟨rfl, _⟩ := waitWrt_eq_some h
    simp
  case h_2 | h_3 | h_4 =>
    obtain ⟨rfl, rfl⟩ := Prod.mk.inj (Option.some.inj h)
    simp
  case h_5 => exact absurd h (by simp)

/-- What a step does to a thread, and to the count of the readers. -/
structure OrderedStep (t t' : HashTableRecord) (p p' : Pc) : Prop where
  freeable : ∀ key newht, p' = .insert key (.free newht) → newht.Freeable
  first : p' = .lookup .waitWrt → t'.readcount = 1
  /-- Only a thread that holds `mutex` changes `readcount`. -/
  readcount : p.counting = false → t'.readcount = t.readcount

theorem stepLookup_orderedStep {p : LookupPc} (h : stepLookup t p = some (t', p')) :
    OrderedStep t t' (.lookup p) p' := by
  cases p with
  | wait | rewait =>
    obtain ⟨rfl, _, _, hreadcount⟩ := waitMutex_eq_some h
    exact ⟨by simp, by simp, fun _ => UInt32.toNat_inj.1 hreadcount⟩
  | waitWrt =>
    obtain ⟨rfl, _⟩ := waitWrt_eq_some h
    exact ⟨by simp, by simp, fun h => absurd h (by decide)⟩
  | first =>
    obtain ⟨rfl, rfl⟩ := Prod.mk.inj (Option.some.inj h)
    by_cases h1 : t.readcount = 1
    · simp only [h1, if_true]
      exact ⟨by simp, fun _ => h1, fun _ => rfl⟩
    · simp only [h1, if_false]
      exact ⟨by simp, by simp, fun _ => rfl⟩
  | last =>
    obtain ⟨rfl, rfl⟩ := Prod.mk.inj (Option.some.inj h)
    by_cases h0 : t.readcount = 0
    · simp only [h0, if_true]
      exact ⟨by simp, by simp, fun _ => rfl⟩
    · simp only [h0, if_false]
      exact ⟨by simp, by simp, fun _ => rfl⟩
  | find =>
    obtain ⟨rfl, rfl⟩ := Prod.mk.inj (Option.some.inj h)
    exact ⟨by simp, by simp, fun _ => rfl⟩
  | count | post | uncount | postWrt | repost =>
    obtain ⟨rfl, rfl⟩ := Prod.mk.inj (Option.some.inj h)
    exact ⟨by simp, by simp, fun h => absurd h (by decide)⟩

theorem stepThread_orderedStep {p : Pc} (h : stepThread t p c = some (t', p'))
    (hswap : ∀ items, c ≠ .swap items) (hfreed : c.Freed t) : OrderedStep t t' p p' := by
  unfold stepThread at h
  split at h
  case h_1 op =>
    obtain ⟨rfl, rfl⟩ := Prod.mk.inj (Option.some.inj h)
    cases op <;> exact ⟨by simp [Op.entry], by simp [Op.entry], fun _ => rfl⟩
  case h_2 key p =>
    have hw := stepInsert_writerStep h hswap
    exact ⟨fun _ _ => freeable_of_stepInsert h hswap hfreed, fun hp => absurd hp (hw.noLookup _),
      fun _ => UInt32.toNat_inj.1 hw.readcount⟩
  case h_3 key p =>
    have hw := stepRemove_writerStep h
    exact ⟨fun key' _ hp => absurd hp (stepRemove_ne_insert h key' _),
      fun hp => absurd hp (hw.noLookup _),
      fun _ => UInt32.toNat_inj.1 hw.readcount⟩
  case h_4 => exact stepLookup_orderedStep h
  case h_5 => exact absurd h (by simp)

end Step

/-- The thread that goes on and a reader that waits for `wrt` do not both hold `mutex`. -/
theorem Ordered.step {s s' : Threads ι HashTableRecord Pc} {a : ι × Choice} (h : Ordered s)
    (hbalanced : Balanced s) (hswap : NoSwap a) (hfreed : a.2.Freed s.shared)
    (hstep : (locking ι).step s a = some s') : Ordered s' := by
  obtain ⟨i, c⟩ := a
  obtain ⟨p', hthread, hpc⟩ := threads_step_eq_some.1 hstep
  have hordered := stepThread_orderedStep hthread (by rintro items rfl; exact hswap) hfreed
  refine ⟨fun j => ?_, fun j hj => ?_⟩
  · by_cases hij : j = i
    · subst hij
      rw [hpc, Function.update_self]
      exact hordered.freeable
    · rw [hpc, Function.update_of_ne hij]
      exact h.freeable j
  · by_cases hij : j = i
    · subst hij
      rw [hpc, Function.update_self] at hj
      exact hordered.first hj
    · rw [hpc, Function.update_of_ne hij] at hj
      have hcounting : (s.pc i).counting = false := by
        by_contra hi
        have hle : (s.pc i).counting.toNat + (s.pc j).counting.toNat ≤ number Pc.counting s.pc :=
          add_le_total (fun p => p.counting.toNat) s.pc (Ne.symm hij)
        have hmutex := hbalanced.mutex
        rw [Bool.of_not_eq_false hi, hj] at hle
        change 1 + 1 ≤ _ at hle
        omega
      rw [hordered.readcount hcounting]
      exact h.first j hj

/-! ## Rest -/

/-- No insert swaps the records, or gives up on a table that cannot be freed. -/
abbrev returning (ι : Type) [DecidableEq ι] : System (Threads ι HashTableRecord Pc) (ι × Choice) :=
  (locking ι).restrict fun s a => NoSwap a ∧ a.2.Freed s.shared

theorem balanced_and_ordered {s : Threads ι HashTableRecord Pc} (h : (returning ι).Reachable s) :
    Balanced s ∧ Ordered s := by
  induction h with
  | init h => exact ⟨balanced_init h, ordered_init h.2⟩
  | step hs hstep ih =>
    obtain ⟨⟨hswap, hfreed⟩, hstep⟩ := System.restrict_step_eq_some.1 hstep
    exact ⟨ih.1.step hswap hstep, ih.2.step ih.1 hswap hfreed hstep⟩

/-- Where a thread waits, if it cannot go on. -/
inductive Waiting (t : HashTableRecord) : Pc → Prop
  | insert {key : UInt64} : t.wrt = 0 → Waiting t (.insert key .wait)
  | remove {key : UInt64} : t.wrt = 0 → Waiting t (.remove key .wait)
  | waitWrt : t.wrt = 0 → Waiting t (.lookup .waitWrt)
  | wait : t.mutex = 0 → Waiting t (.lookup .wait)
  | rewait : t.mutex = 0 → Waiting t (.lookup .rewait)

theorem waitWrt_eq_none {t : HashTableRecord} {p : Pc} (h : waitWrt t p = none) : t.wrt = 0 := by
  unfold waitWrt at h
  split at h
  case isTrue => exact absurd h (by simp)
  case isFalse h0 => omega

theorem waitMutex_eq_none {t : HashTableRecord} {p : Pc} (h : waitMutex t p = none) :
    t.mutex = 0 := by
  unfold waitMutex at h
  split at h
  case isTrue => exact absurd h (by simp)
  case isFalse h0 => omega

/-- A thread that cannot go on is outside of all calls, or waits for a semaphore. -/
theorem waiting_of_stepThread {t : HashTableRecord} {p : Pc}
    (hfree : ∀ key newht, p = .insert key (.free newht) → newht.Freeable)
    (hgo : stepThread t p .go = none)
    (hfail : stepThread t p .fail = none) : p = .outside ∨ Waiting t p := by
  cases p with
  | outside => exact .inl rfl
  | insert key p =>
    cases p with
    | wait => exact .inr (.insert (waitWrt_eq_none hgo))
    | resize =>
      -- The allocation of the larger table fails, or it is not needed.
      by_cases hloaded : t.Loaded
      · simp [stepThread, stepInsert, hloaded] at hfail
      · simp [stepThread, stepInsert, hloaded] at hgo
    | free newht => simp [stepThread, stepInsert, hfree key newht rfl] at hgo
    | put | post => simp [stepThread, stepInsert, postWrt] at hgo
  | remove key p =>
    cases p with
    | wait => exact .inr (.remove (waitWrt_eq_none hgo))
    | delete | post => simp [stepThread, stepRemove, postWrt] at hgo
  | lookup p =>
    cases p with
    | wait => exact .inr (.wait (waitMutex_eq_none hgo))
    | waitWrt => exact .inr (.waitWrt (waitWrt_eq_none hgo))
    | rewait => exact .inr (.rewait (waitMutex_eq_none hgo))
    | count | first | post | find | uncount | last | postWrt | repost =>
      simp [stepThread, stepLookup, postWrt, postMutex] at hgo

theorem waiting_of_rests {s : Threads ι HashTableRecord Pc} (h : (returning ι).Reachable s)
    (hrest : (returning ι).Rests callCost s) (i : ι) :
    s.pc i = .outside ∨ Waiting s.shared (s.pc i) :=
  have hnone (c : Choice) (hcost : callCost (i, c) = 0) (hswap : NoSwap (i, c))
      (hfreed : c.Freed s.shared) : stepThread s.shared (s.pc i) c = none := by
    have hstep := hrest (i, c) hcost
    simpa [System.restrict, hswap, hfreed, locking, threads] using hstep
  waiting_of_stepThread ((balanced_and_ordered h).2.freeable i) (hnone .go rfl trivial trivial)
    (hnone .fail rfl trivial trivial)

omit [DecidableEq ι] in
/-- There are no more readers than threads. -/
theorem number_reading_entering_le (pc : ι → Pc) :
    number Pc.reading pc + number Pc.entering pc ≤ Fintype.card ι := by
  simp only [number, total, ← Finset.sum_add_distrib]
  refine (Finset.sum_le_card_nsmul _ _ 1 fun i _ => ?_).trans_eq (by simp)
  cases pc i with
  | outside | insert _ _ | remove _ _ => exact Nat.zero_le 1
  | lookup p => cases p <;> decide

omit [DecidableEq ι] in
/-- Threads that wait do not write, and are not between the tests of `readcount`. -/
theorem number_eq_zero_of_waiting {s : Threads ι HashTableRecord Pc} {f : Pc → Bool}
    (h : ∀ i, s.pc i = .outside ∨ Waiting s.shared (s.pc i)) (houtside : f .outside = false)
    (hf : ∀ p, Waiting s.shared p → f p = false) : number f s.pc = 0 :=
  total_eq_zero fun i => by
    rcases h i with hi | hi
    · rw [hi, houtside, Bool.toNat_false]
    · rw [hf _ hi, Bool.toNat_false]

/-- Where no thread can go on, no thread waits. -/
theorem outside_of_rests (hcard : Fintype.card ι ≤ 2 ^ 32) {s : Threads ι HashTableRecord Pc}
    (h : (returning ι).Reachable s) (hrest : (returning ι).Rests callCost s) (i : ι) :
    s.pc i = .outside := by
  have hwaiting := waiting_of_rests h hrest
  obtain ⟨⟨hmutex, hreadcount, hwrt, _, _⟩, hordered⟩ := balanced_and_ordered h
  have hwriting : number Pc.writing s.pc = 0 :=
    number_eq_zero_of_waiting hwaiting rfl fun p hp => by cases hp <;> rfl
  have hleaving : number Pc.leaving s.pc = 0 :=
    number_eq_zero_of_waiting hwaiting rfl fun p hp => by cases hp <;> rfl
  have hlast : number Pc.last s.pc = 0 :=
    number_eq_zero_of_waiting hwaiting rfl fun p hp => by cases hp <;> rfl
  -- No reader waits for `wrt`: it would be the first, with none in front of it.
  have hnotFirst : ∀ j, s.pc j ≠ .lookup .waitWrt := by
    intro j hj
    have hone := hordered.first j hj
    have hentering : (s.pc j).entering.toNat ≤ number Pc.entering s.pc :=
      le_total (fun p => p.entering.toNat) s.pc j
    have hle := number_reading_entering_le s.pc
    have hzero : s.shared.wrt = 0 := by
      rcases hwaiting j with hp | hp
      · simp [hj] at hp
      · rw [hj] at hp
        cases hp
        assumption
    rw [hj] at hentering
    change 1 ≤ _ at hentering
    rw [hone] at hreadcount
    change 1 = _ at hreadcount
    omega
  -- So no thread holds `mutex`, and none waits for it.
  have hcounting : number Pc.counting s.pc = 0 := total_eq_zero fun j => by
    rcases hwaiting j with hp | hp
    · rw [hp]
      rfl
    · cases hq : s.pc j with
      | outside | insert _ _ | remove _ _ => rfl
      | lookup q =>
        rw [hq] at hp
        cases hp with
        | waitWrt => exact absurd hq (hnotFirst j)
        | wait | rewait => rfl
  have hreading : number Pc.reading s.pc = 0 := total_eq_zero fun j => by
    rcases hwaiting j with hp | hp
    · rw [hp]
      rfl
    · cases hq : s.pc j with
      | outside | insert _ _ | remove _ _ => rfl
      | lookup q =>
        rw [hq] at hp
        cases hp with
        | waitWrt | wait => rfl
        | rewait h0 => omega
  -- So the locks are free.
  rcases hwaiting i with hp | hp
  · exact hp
  · cases hq : s.pc i with
    | outside => rfl
    | insert _ _ | remove _ _ | lookup _ =>
      rw [hq] at hp
      cases hp <;> omega

theorem rests_iff_outside (hcard : Fintype.card ι ≤ 2 ^ 32) {s : Threads ι HashTableRecord Pc}
    (h : (returning ι).Reachable s) :
    (returning ι).Rests callCost s ↔ ∀ i, s.pc i = .outside := by
  refine ⟨fun hrest i => outside_of_rests hcard h hrest i, fun hpc a ha => ?_⟩
  obtain ⟨i, c⟩ := a
  have hnone : stepThread s.shared (s.pc i) c = none := by
    rw [hpc i]
    cases c with
    | call op => simp [callCost] at ha
    | go | fail | failEntry | swap _ | giveUp _ => rfl
  simp [System.restrict, locking, threads, hnone]

/-- The fourth insert of the first thread gives up on a larger table with the keys `items`, and
    the second thread wants to look up a key. -/
def giveUpRun (items : List UInt64) : List (Bool × Choice) :=
  insertSteps 1 ++ insertSteps 2 ++ insertSteps 3 ++
    [(false, .call (.insert 4)), (false, .go), (false, .giveUp items), (true, .call .lookup),
      (true, .go), (true, .go), (true, .go)]

omit [Fintype ι] in
/-- An insert that gives up on a table with two keys in a chain does not return from
    `FreeHashTable`, whatever the other threads do. -/
theorem stuck_of_not_freeable {s s' : Threads ι HashTableRecord Pc} {l : List (ι × Choice)} {i : ι}
    {key : UInt64} {newht : HashTableRecord} (hi : s.pc i = .insert key (.free newht))
    (hfree : ¬newht.Freeable) (hrun : (locking ι).exec s l = some s') :
    s'.pc i = .insert key (.free newht) := by
  induction l using List.reverseRecOn generalizing s' with
  | nil => exact Option.some.inj hrun ▸ hi
  | append_singleton l a ih =>
    obtain ⟨s₁, hl, hstep⟩ := System.exec_concat.1 hrun
    obtain ⟨j, c⟩ := a
    obtain ⟨p', hthread, hpc⟩ := threads_step_eq_some.1 hstep
    by_cases hij : i = j
    · subst hij
      rw [ih hl] at hthread
      cases c <;> simp [stepThread, stepInsert, hfree] at hthread
    · rw [hpc, Function.update_of_ne hij]
      exact ih hl

/-- The larger table has nine buckets, and the third key that `item` happens to have is the
    first one again: the keys 0 and 9 are in one chain. -/
example : ∃ s, (locking Bool).exec twoThreads (giveUpRun [0, 9]) = some s ∧ s.shared.wrt = 0 ∧
    ∃ newht, s.pc false = .insert 4 (.free newht) ∧ ¬newht.Freeable :=
  ⟨_, rfl, rfl, _, rfl, by decide⟩

end Cse461.Table
