import Cse461.Library.Transition

/-!
# The locks of the hash table

`HashTable.c`, as any number of threads run it on one table: `InsertHashTable` and
`RemoveFromHashTable` take the semaphore `wrt`, `LookupHashTable` is a reader that
takes it for all readers, which it counts in `readcount` under the semaphore `mutex`.

* Each semaphore operation, each access to `readcount` and each walk through a
  chain is one step of a thread (`stepThread`).
* Of the chains only the keys in them matter here, and when an allocation fails
  (what the chains hold is in `Cse461.Table.HashTable`).
* An insert that finds three elements for each bucket, or more, makes a larger
  table and swaps the records: with the chains, the semaphores and the count in
  them are those of the new table. Or it gives up on the larger table and frees it,
  which does not end if two of the keys in it share a chain.

The swap opens the lock that the insert holds, so that another writer can come in
(`not_exclusive_swap`). In a run without a swap the locks are readers-writers
locks (`exclusive_of_noSwap`).
-/

namespace Cse461.Table

open Library

/-- `struct htrec`. -/
structure HashTableRecord where
  numBuckets : UInt64
  numElements : UInt64
  /-- The keys in the chains. -/
  keys : List UInt64
  wrt : ℕ
  mutex : ℕ
  readcount : UInt32
  deriving DecidableEq

/-- `AllocateHashTable`, where the allocations succeed. -/
def allocateHashTable (numBuckets : UInt32) : Option HashTableRecord :=
  if numBuckets = 0 then none
  else some { numBuckets := numBuckets.toUInt64, numElements := 0, keys := [], wrt := 1, mutex := 1
              readcount := 0 }

namespace HashTableRecord

variable (t : HashTableRecord)

/-- `FreeHashTable` returns: it pops one element of each chain, and then goes on as
    long as the chain has elements, with no further pop. -/
def Freeable : Prop := (t.keys.map fun key => key % t.numBuckets).Nodup

instance : Decidable t.Freeable := inferInstanceAs (Decidable (List.Nodup _))

/-- `ResizeHashtable` does not return at its load check. -/
def Loaded : Prop := ¬t.numElements < 3 * t.numBuckets

instance : Decidable t.Loaded := inferInstanceAs (Decidable ¬_)

/-- The larger table of `ResizeHashtable` after some rounds of its loop: the keys `items`
    are those that its `item`, which nothing is assigned to, happens to have in each of
    them, and a key that comes twice makes it give up. -/
def filled (items : List UInt64) : Option HashTableRecord :=
  if t.Loaded ∧ t.keys ≠ [] ∧ items.Nodup then
    (allocateHashTable (t.numBuckets * 9).toUInt32).map fun new =>
      { new with numElements := UInt64.ofNat items.length, keys := items }
  else
    none

/-- The record that `ResizeHashtable` swaps in, if it gets there: its loop has a round for
    every entry. -/
def grown (items : List UInt64) : Option HashTableRecord :=
  if items.length = t.keys.length then t.filled items else none

/-- The record that `ResizeHashtable` frees, if it gives up in its loop. -/
def givenUp (items : List UInt64) : Option HashTableRecord :=
  if items.length < t.keys.length then t.filled items else none

/-- The end of `InsertHashTable`, where the chain is searched and the entry made or
    replaced. `num_elements` is counted up before the entry is allocated. -/
def put (key : UInt64) (allocated : Bool) : HashTableRecord :=
  if key ∈ t.keys then t
  else { t with
    numElements := t.numElements + 1
    keys := if allocated then key :: t.keys else t.keys }

/-- The entry of `key` is deleted, if there is one. -/
def delete (key : UInt64) : HashTableRecord :=
  if key ∈ t.keys then { t with numElements := t.numElements - 1, keys := t.keys.erase key }
  else t

end HashTableRecord

/-- A call on the table. -/
inductive Op
  | insert (key : UInt64)
  | remove (key : UInt64)
  | lookup
  deriving DecidableEq

/-- Where `InsertHashTable` is: before one of its steps. -/
inductive InsertPc
  /-- `sem_wait(&table->wrt)`. -/
  | wait
  /-- `ResizeHashtable(table)`. -/
  | resize
  /-- `FreeHashTable(newht, &NullFree)`, after the swap, or where the loop gives up. -/
  | free (newht : HashTableRecord)
  /-- The search for the key, and the insertion. -/
  | put
  /-- `sem_post(&table->wrt)`. -/
  | post
  deriving DecidableEq

/-- Where `RemoveFromHashTable` is. -/
inductive RemovePc
  /-- `sem_wait(&table->wrt)`. -/
  | wait
  /-- The search for the key, and the removal. -/
  | delete
  /-- `sem_post(&table->wrt)`. -/
  | post
  deriving DecidableEq

/-- Where `LookupHashTable` is. -/
inductive LookupPc
  /-- The first `sem_wait(&table->mutex)`. -/
  | wait
  /-- `table->readcount++`. -/
  | count
  /-- `if (table->readcount == 1)`. -/
  | first
  /-- `sem_wait(&table->wrt)`. -/
  | waitWrt
  /-- The first `sem_post(&table->mutex)`. -/
  | post
  /-- The search for the key. -/
  | find
  /-- The second `sem_wait(&table->mutex)`. -/
  | rewait
  /-- `table->readcount--`. -/
  | uncount
  /-- `if (table->readcount == 0)`. -/
  | last
  /-- `sem_post(&table->wrt)`. -/
  | postWrt
  /-- The second `sem_post(&table->mutex)`. -/
  | repost
  deriving DecidableEq

/-- Where a thread is. -/
inductive Pc
  /-- In none of the calls. -/
  | outside
  | insert (key : UInt64) (p : InsertPc)
  | remove (key : UInt64) (p : RemovePc)
  | lookup (p : LookupPc)
  deriving DecidableEq

/-- What the code does not determine about a step. -/
inductive Choice
  /-- The thread makes a call. -/
  | call (op : Op)
  /-- The next step; the allocations in it succeed. -/
  | go
  /-- An allocation fails: of the larger table or an iterator, before anything changed. -/
  | fail
  /-- The allocation of an entry fails, which is counted already. -/
  | failEntry
  /-- The larger table is filled with the keys `items`, and swapped in. -/
  | swap (items : List UInt64)
  /-- The larger table is filled with the keys `items` and given up: the next key is there
      already, or an allocation fails. -/
  | giveUp (items : List UInt64)
  deriving DecidableEq

/-- Before the first step of a call. -/
def Op.entry : Op → Pc
  | .insert key => .insert key .wait
  | .remove key => .remove key .wait
  | .lookup => .lookup .wait

section Step

variable (t : HashTableRecord)

/-- `sem_wait` on `wrt`, and go on at `p`. -/
def waitWrt (p : Pc) : Option (HashTableRecord × Pc) :=
  if 0 < t.wrt then some ({ t with wrt := t.wrt - 1 }, p) else none

/-- `sem_wait` on `mutex`, and go on at `p`. -/
def waitMutex (p : Pc) : Option (HashTableRecord × Pc) :=
  if 0 < t.mutex then some ({ t with mutex := t.mutex - 1 }, p) else none

/-- `sem_post` on `wrt`, and go on at `p`. -/
def postWrt (p : Pc) : Option (HashTableRecord × Pc) := some ({ t with wrt := t.wrt + 1 }, p)

/-- `sem_post` on `mutex`, and go on at `p`. -/
def postMutex (p : Pc) : Option (HashTableRecord × Pc) :=
  some ({ t with mutex := t.mutex + 1 }, p)

/-- A step of `InsertHashTable`. -/
def stepInsert (key : UInt64) : InsertPc → Choice → Option (HashTableRecord × Pc)
  | .wait, .go => waitWrt t (.insert key .resize)
  | .resize, .go => if t.Loaded then none else some (t, .insert key .put)
  | .resize, .fail => if t.Loaded then some (t, .insert key .put) else none
  | .resize, .swap items => (t.grown items).map fun new => (new, .insert key (.free t))
  | .resize, .giveUp items => (t.givenUp items).map fun new => (t, .insert key (.free new))
  | .free newht, .go => if newht.Freeable then some (t, .insert key .put) else none
  | .put, .go => some (t.put key true, .insert key .post)
  | .put, .failEntry => some (t.put key false, .insert key .post)
  | .put, .fail => some (t, .insert key .post)
  | .post, .go => postWrt t .outside
  | _, _ => none

/-- A step of `RemoveFromHashTable`. -/
def stepRemove (key : UInt64) : RemovePc → Choice → Option (HashTableRecord × Pc)
  | .wait, .go => waitWrt t (.remove key .delete)
  | .delete, .go => some (t.delete key, .remove key .post)
  | .delete, .fail => some (t, .remove key .post)
  | .post, .go => postWrt t .outside
  | _, _ => none

/-- A step of `LookupHashTable`. -/
def stepLookup : LookupPc → Option (HashTableRecord × Pc)
  | .wait => waitMutex t (.lookup .count)
  | .count => some ({ t with readcount := t.readcount + 1 }, .lookup .first)
  | .first => some (t, .lookup (if t.readcount = 1 then .waitWrt else .post))
  | .waitWrt => waitWrt t (.lookup .post)
  | .post => postMutex t (.lookup .find)
  | .find => some (t, .lookup .rewait)
  | .rewait => waitMutex t (.lookup .uncount)
  | .uncount => some ({ t with readcount := t.readcount - 1 }, .lookup .last)
  | .last => some (t, .lookup (if t.readcount = 0 then .postWrt else .repost))
  | .postWrt => postWrt t (.lookup .repost)
  | .repost => postMutex t .outside

/-- A step of one thread. -/
def stepThread : Pc → Choice → Option (HashTableRecord × Pc)
  | .outside, .call op => some (t, op.entry)
  | .insert key p, c => stepInsert t key p c
  | .remove key p, c => stepRemove t key p c
  | .lookup p, .go => stepLookup t p
  | _, _ => none

end Step

/-- Threads on one table, as `AllocateHashTable` left it. -/
def locking (ι : Type) [DecidableEq ι] : System (Threads ι HashTableRecord Pc) (ι × Choice) :=
  threads (fun t => ∃ n, allocateHashTable n = some t) .outside stepThread

/-! ## Exclusion -/

/-- The thread is in a lookup, where `f` holds. -/
def Pc.inLookup (f : LookupPc → Bool) : Pc → Bool
  | .lookup p => f p
  | _ => false

/-- The thread is in the critical section of a writer. -/
def Pc.writing : Pc → Bool
  | .insert _ p => p ≠ .wait
  | .remove _ p => p ≠ .wait
  | _ => false

/-- The thread is in the critical section of a lookup, or on its way in from the
    test of `readcount`, or out to where it is counted off. -/
def Pc.reading : Pc → Bool :=
  inLookup fun p => p = .post ∨ p = .find ∨ p = .rewait ∨ p = .uncount

variable {ι : Type}

/-- At most one thread writes, and if one does, none reads. -/
def Exclusive (s : Threads ι HashTableRecord Pc) : Prop :=
  (∀ i j, (s.pc i).writing → (s.pc j).writing → i = j) ∧
    ∀ i j, (s.pc i).writing → ¬(s.pc j).reading

/-- When no thread is inside a call, the locks are free. -/
def Quiescent (s : Threads ι HashTableRecord Pc) : Prop :=
  (∀ i, s.pc i = .outside) → s.shared.wrt = 1 ∧ s.shared.mutex = 1 ∧ s.shared.readcount = 0

/-- The step is not the swap of the records. -/
def NoSwap : ι × Choice → Prop
  | (_, .swap _) => False
  | _ => True

instance (a : ι × Choice) : Decidable (NoSwap a) :=
  match a with
  | (_, .swap _) => .isFalse id
  | (_, .call _) | (_, .go) | (_, .fail) | (_, .failEntry) | (_, .giveUp _) => .isTrue trivial

/-! ### The balance of the locks -/

/-- The thread holds `mutex`. -/
def Pc.counting : Pc → Bool := inLookup fun p => p ≠ .wait ∧ p ≠ .find ∧ p ≠ .rewait

/-- The thread is counted, and not yet a reader. -/
def Pc.entering : Pc → Bool := inLookup fun p => p = .first ∨ p = .waitWrt

/-- The thread is counted off, and not known to be the last reader. -/
def Pc.leaving : Pc → Bool := inLookup fun p => p = .last

/-- The thread was the last reader. -/
def Pc.last : Pc → Bool := inLookup fun p => p = .postWrt

/-- The locks, where `W` threads write, `R` read, and of those that hold `mutex`, which
    are `M`, `E` enter, `L` leave and `D` were last. -/
structure Balance (t : HashTableRecord) (W R M E L D : ℕ) : Prop where
  mutex : t.mutex + M = 1
  readcount : t.readcount.toNat = (R + E) % 2 ^ 32
  /-- The readers, and one that leaves, hold `wrt` together. -/
  wrt : t.wrt + W + min 1 (R + L + D) = 1
  /-- A reader that is one too many for `readcount` is stuck before it gets in. -/
  bound : R + L ≤ 2 ^ 32
  last : 0 < D → R = 0

section Step

variable {t t' : HashTableRecord} {p' : Pc} {c : Choice} {key : UInt64}
  {W W' R R' M M' E E' L L' D D' : ℕ}

/-- A step in which only writers take or give back `wrt`. -/
structure WriterStep (t t' : HashTableRecord) (p p' : Pc) : Prop where
  wrt : t'.wrt + p'.writing.toNat = t.wrt + p.writing.toNat
  mutex : t'.mutex = t.mutex
  readcount : t'.readcount.toNat = t.readcount.toNat
  noLookup : ∀ q, p' ≠ .lookup q

theorem waitWrt_eq_some {p : Pc} (h : waitWrt t p' = some (t', p)) :
    p = p' ∧ t'.wrt + 1 = t.wrt ∧ t'.mutex = t.mutex ∧ t'.readcount.toNat = t.readcount.toNat := by
  unfold waitWrt at h
  split at h
  · obtain ⟨rfl, rfl⟩ := Prod.mk.inj (Option.some.inj h)
    exact ⟨rfl, Nat.sub_add_cancel ‹_›, rfl, rfl⟩
  · exact absurd h (by simp)

theorem waitMutex_eq_some {p : Pc} (h : waitMutex t p' = some (t', p)) :
    p = p' ∧ t'.wrt = t.wrt ∧ t'.mutex + 1 = t.mutex ∧ t'.readcount.toNat = t.readcount.toNat := by
  unfold waitMutex at h
  split at h
  · obtain ⟨rfl, rfl⟩ := Prod.mk.inj (Option.some.inj h)
    exact ⟨rfl, rfl, Nat.sub_add_cancel ‹_›, rfl⟩
  · exact absurd h (by simp)

theorem postWrt_eq_some {p : Pc} (h : postWrt t p' = some (t', p)) :
    p = p' ∧ t'.wrt = t.wrt + 1 ∧ t'.mutex = t.mutex ∧
      t'.readcount.toNat = t.readcount.toNat := by
  obtain ⟨rfl, rfl⟩ := Prod.mk.inj (Option.some.inj h)
  exact ⟨rfl, rfl, rfl, rfl⟩

theorem postMutex_eq_some {p : Pc} (h : postMutex t p' = some (t', p)) :
    p = p' ∧ t'.wrt = t.wrt ∧ t'.mutex = t.mutex + 1 ∧
      t'.readcount.toNat = t.readcount.toNat := by
  obtain ⟨rfl, rfl⟩ := Prod.mk.inj (Option.some.inj h)
  exact ⟨rfl, rfl, rfl, rfl⟩

theorem locks_put (t : HashTableRecord) (key : UInt64) (allocated : Bool) :
    (t.put key allocated).wrt = t.wrt ∧ (t.put key allocated).mutex = t.mutex ∧
      (t.put key allocated).readcount.toNat = t.readcount.toNat := by
  unfold HashTableRecord.put
  split <;> simp

theorem locks_delete (t : HashTableRecord) (key : UInt64) : (t.delete key).wrt = t.wrt ∧
    (t.delete key).mutex = t.mutex ∧
      (t.delete key).readcount.toNat = t.readcount.toNat := by
  unfold HashTableRecord.delete
  split <;> simp

/-! ### The steps of the writers -/

theorem inLookup_eq_false {f : LookupPc → Bool} {p : Pc} (h : ∀ q, p ≠ .lookup q) :
    p.inLookup f = false := by
  cases p with
  | lookup q => exact absurd rfl (h q)
  | _ => rfl

theorem stepInsert_writerStep {p : InsertPc} (h : stepInsert t key p c = some (t', p'))
    (hswap : ∀ items, c ≠ .swap items) : WriterStep t t' (.insert key p) p' := by
  unfold stepInsert at h
  split at h
  case h_1 =>
    obtain ⟨rfl, hwrt, hmutex, hreadcount⟩ := waitWrt_eq_some h
    exact ⟨hwrt, hmutex, hreadcount, by simp⟩
  case h_4 => exact absurd rfl (hswap _)
  case h_5 =>
    obtain ⟨new, _, heq⟩ := Option.map_eq_some_iff.1 h
    obtain ⟨rfl, rfl⟩ := Prod.mk.inj heq
    exact ⟨rfl, rfl, rfl, by simp⟩
  case h_7 | h_8 =>
    obtain ⟨rfl, rfl⟩ := Prod.mk.inj (Option.some.inj h)
    obtain ⟨hwrt, hmutex, hreadcount⟩ := locks_put t key _
    exact ⟨by rw [hwrt]; rfl, hmutex, hreadcount, by simp⟩
  case h_9 | h_10 =>
    obtain ⟨rfl, rfl⟩ := Prod.mk.inj (Option.some.inj h)
    exact ⟨rfl, rfl, rfl, by simp⟩
  case h_11 => exact absurd h (by simp)
  all_goals
    -- Steps within the critical section, under a condition.
    simp only [Option.ite_none_right_eq_some, Option.ite_none_left_eq_some] at h
    obtain ⟨rfl, rfl⟩ := Prod.mk.inj (Option.some.inj h.2)
    exact ⟨rfl, rfl, rfl, by simp⟩

theorem stepRemove_writerStep {p : RemovePc} (h : stepRemove t key p c = some (t', p')) :
    WriterStep t t' (.remove key p) p' := by
  unfold stepRemove at h
  split at h
  case h_1 =>
    obtain ⟨rfl, hwrt, hmutex, hreadcount⟩ := waitWrt_eq_some h
    exact ⟨hwrt, hmutex, hreadcount, by simp⟩
  case h_2 =>
    obtain ⟨rfl, rfl⟩ := Prod.mk.inj (Option.some.inj h)
    obtain ⟨hwrt, hmutex, hreadcount⟩ := locks_delete t key
    exact ⟨by rw [hwrt]; rfl, hmutex, hreadcount, by simp⟩
  case h_3 | h_4 =>
    obtain ⟨rfl, rfl⟩ := Prod.mk.inj (Option.some.inj h)
    exact ⟨rfl, rfl, rfl, by simp⟩
  case h_5 => exact absurd h (by simp)

/-- A step of a writer keeps the balance. -/
theorem Balance.writerStep {p : Pc} (h : Balance t W R M E L D) (hstep : WriterStep t t' p p')
    (hW : W' + p.writing.toNat = W + p'.writing.toNat) : Balance t' W' R M E L D where
  mutex := by rw [hstep.mutex, h.mutex]
  readcount := by rw [hstep.readcount, h.readcount]
  wrt := by
    have hwrt := h.wrt
    have hwrt' := hstep.wrt
    omega
  bound := h.bound
  last := h.last

/-! ### The steps of a lookup -/

/-- A step of a lookup keeps the balance. -/
theorem Balance.stepLookup {p : LookupPc} (h : Balance t W R M E L D)
    (hstep : stepLookup t p = some (t', p')) (horder : E + L + D ≤ M) (horder' : E' + L' + D' ≤ M')
    (hR : R' + (Pc.lookup p).reading.toNat = R + p'.reading.toNat)
    (hM : M' + (Pc.lookup p).counting.toNat = M + p'.counting.toNat)
    (hE : E' + (Pc.lookup p).entering.toNat = E + p'.entering.toNat)
    (hL : L' + (Pc.lookup p).leaving.toNat = L + p'.leaving.toNat)
    (hD : D' + (Pc.lookup p).last.toNat = D + p'.last.toNat) :
    Balance t' W R' M' E' L' D' ∧ p'.writing = false := by
  obtain ⟨hmutex, hreadcount, hwrt, hbound, hlast⟩ := h
  cases p with
  | wait =>
    obtain ⟨rfl, hwrt', hmutex', hreadcount'⟩ := waitMutex_eq_some hstep
    obtain ⟨rfl, hM, rfl, rfl, rfl⟩ : R' = R ∧ M' = M + 1 ∧ E' = E ∧ L' = L ∧ D' = D :=
      ⟨hR, hM, hE, hL, hD⟩
    refine ⟨⟨?_, ?_, ?_, ?_, ?_⟩, rfl⟩ <;> omega
  | count =>
    obtain ⟨rfl, hwrt', hmutex', hreadcount'⟩ : p' = .lookup .first ∧ t'.wrt = t.wrt ∧
        t'.mutex = t.mutex ∧ t'.readcount = t.readcount + 1 := by
      cases hstep
      exact ⟨rfl, rfl, rfl, rfl⟩
    obtain ⟨rfl, rfl, hE, rfl, rfl⟩ : R' = R ∧ M' = M ∧ E' = E + 1 ∧ L' = L ∧ D' = D :=
      ⟨hR, Nat.add_right_cancel hM, hE, hL, hD⟩
    have hadd : t'.readcount.toNat = (t.readcount.toNat + 1) % 2 ^ 32 := by
      rw [hreadcount']
      exact UInt32.toNat_add _ _
    refine ⟨⟨?_, ?_, ?_, ?_, ?_⟩, rfl⟩ <;> omega
  | first =>
    have hone : t.readcount = 1 ↔ t.readcount.toNat = 1 := UInt32.toNat_inj.symm
    obtain ⟨rfl, rfl⟩ := Prod.mk.inj (Option.some.inj hstep)
    by_cases h1 : t.readcount = 1
    · rw [if_pos h1] at *
      obtain ⟨rfl, rfl, rfl, rfl, rfl⟩ : R' = R ∧ M' = M ∧ E' = E ∧ L' = L ∧ D' = D :=
        ⟨hR, Nat.add_right_cancel hM, Nat.add_right_cancel hE, hL, hD⟩
      exact ⟨⟨hmutex, hreadcount, hwrt, hbound, hlast⟩, rfl⟩
    · rw [if_neg h1] at *
      obtain ⟨hR, rfl, hE, rfl, rfl⟩ : R' = R + 1 ∧ M' = M ∧ E' + 1 = E ∧ L' = L ∧ D' = D :=
        ⟨hR, Nat.add_right_cancel hM, hE, hL, hD⟩
      rw [hone] at h1
      -- It is not the first, so there are readers, and not too many of them.
      refine ⟨⟨?_, ?_, ?_, ?_, ?_⟩, rfl⟩ <;> omega
  | waitWrt =>
    obtain ⟨rfl, hwrt', hmutex', hreadcount'⟩ := waitWrt_eq_some hstep
    obtain ⟨hR, rfl, hE, rfl, rfl⟩ : R' = R + 1 ∧ M' = M ∧ E' + 1 = E ∧ L' = L ∧ D' = D :=
      ⟨hR, Nat.add_right_cancel hM, hE, hL, hD⟩
    refine ⟨⟨?_, ?_, ?_, ?_, ?_⟩, rfl⟩ <;> omega
  | post =>
    obtain ⟨rfl, hwrt', hmutex', hreadcount'⟩ := postMutex_eq_some hstep
    obtain ⟨rfl, hM, rfl, rfl, rfl⟩ : R' = R ∧ M' + 1 = M ∧ E' = E ∧ L' = L ∧ D' = D :=
      ⟨Nat.add_right_cancel hR, hM, hE, hL, hD⟩
    refine ⟨⟨?_, ?_, ?_, ?_, ?_⟩, rfl⟩ <;> omega
  | find =>
    obtain ⟨rfl, rfl⟩ := Prod.mk.inj (Option.some.inj hstep)
    obtain ⟨rfl, rfl, rfl, rfl, rfl⟩ : R' = R ∧ M' = M ∧ E' = E ∧ L' = L ∧ D' = D :=
      ⟨Nat.add_right_cancel hR, hM, hE, hL, hD⟩
    exact ⟨⟨hmutex, hreadcount, hwrt, hbound, hlast⟩, rfl⟩
  | rewait =>
    obtain ⟨rfl, hwrt', hmutex', hreadcount'⟩ := waitMutex_eq_some hstep
    obtain ⟨rfl, hM, rfl, rfl, rfl⟩ : R' = R ∧ M' = M + 1 ∧ E' = E ∧ L' = L ∧ D' = D :=
      ⟨Nat.add_right_cancel hR, hM, hE, hL, hD⟩
    refine ⟨⟨?_, ?_, ?_, ?_, ?_⟩, rfl⟩ <;> omega
  | uncount =>
    obtain ⟨rfl, hwrt', hmutex', hreadcount'⟩ : p' = .lookup .last ∧ t'.wrt = t.wrt ∧
        t'.mutex = t.mutex ∧ t'.readcount = t.readcount - 1 := by
      cases hstep
      exact ⟨rfl, rfl, rfl, rfl⟩
    obtain ⟨hR, rfl, rfl, hL, rfl⟩ : R' + 1 = R ∧ M' = M ∧ E' = E ∧ L' = L + 1 ∧ D' = D :=
      ⟨hR, Nat.add_right_cancel hM, hE, hL, hD⟩
    have hsub : t'.readcount.toNat = (2 ^ 32 - 1 + t.readcount.toNat) % 2 ^ 32 := by
      rw [hreadcount']
      exact UInt32.toNat_sub _ _
    refine ⟨⟨?_, ?_, ?_, ?_, ?_⟩, rfl⟩ <;> omega
  | last =>
    have hzero : t.readcount = 0 ↔ t.readcount.toNat = 0 := UInt32.toNat_inj.symm
    obtain ⟨rfl, rfl⟩ := Prod.mk.inj (Option.some.inj hstep)
    by_cases h0 : t.readcount = 0
    · rw [if_pos h0] at *
      obtain ⟨rfl, rfl, rfl, hL, hD⟩ : R' = R ∧ M' = M ∧ E' = E ∧ L' + 1 = L ∧ D' = D + 1 :=
        ⟨hR, Nat.add_right_cancel hM, hE, hL, hD⟩
      rw [hzero] at h0
      -- The count is that of the readers, as there are fewer than it can tell apart.
      refine ⟨⟨?_, ?_, ?_, ?_, ?_⟩, rfl⟩ <;> omega
    · rw [if_neg h0] at *
      obtain ⟨rfl, rfl, rfl, hL, rfl⟩ : R' = R ∧ M' = M ∧ E' = E ∧ L' + 1 = L ∧ D' = D :=
        ⟨hR, Nat.add_right_cancel hM, hE, hL, hD⟩
      rw [hzero] at h0
      refine ⟨⟨?_, ?_, ?_, ?_, ?_⟩, rfl⟩ <;> omega
  | postWrt =>
    obtain ⟨rfl, hwrt', hmutex', hreadcount'⟩ := postWrt_eq_some hstep
    obtain ⟨rfl, rfl, rfl, rfl, hD⟩ : R' = R ∧ M' = M ∧ E' = E ∧ L' = L ∧ D' + 1 = D :=
      ⟨hR, Nat.add_right_cancel hM, hE, hL, hD⟩
    refine ⟨⟨?_, ?_, ?_, ?_, ?_⟩, rfl⟩ <;> omega
  | repost =>
    obtain ⟨rfl, hwrt', hmutex', hreadcount'⟩ := postMutex_eq_some hstep
    obtain ⟨rfl, hM, rfl, rfl, rfl⟩ : R' = R ∧ M' + 1 = M ∧ E' = E ∧ L' = L ∧ D' = D :=
      ⟨hR, hM, hE, hL, hD⟩
    refine ⟨⟨?_, ?_, ?_, ?_, ?_⟩, rfl⟩ <;> omega

end Step

/-! ### Runs -/

section Runs

variable [Fintype ι]

/-- The number of threads at which `f` holds. -/
abbrev number (f : Pc → Bool) (pc : ι → Pc) : ℕ := total (fun p => (f p).toNat) pc

/-- The balance of the locks in a state. -/
def Balanced (s : Threads ι HashTableRecord Pc) : Prop :=
  Balance s.shared (number Pc.writing s.pc) (number Pc.reading s.pc) (number Pc.counting s.pc)
    (number Pc.entering s.pc) (number Pc.leaving s.pc) (number Pc.last s.pc)

/-- The threads that enter, leave or were last hold `mutex`. -/
theorem number_order (pc : ι → Pc) : number Pc.entering pc + number Pc.leaving pc +
    number Pc.last pc ≤ number Pc.counting pc := by
  simp only [number, total, ← Finset.sum_add_distrib]
  refine Finset.sum_le_sum fun i _ => ?_
  cases pc i with
  | outside | insert _ _ | remove _ _ => exact le_rfl
  | lookup p => cases p <;> decide

/-- With no thread in a call, as after `AllocateHashTable`, no thread counts. -/
theorem number_outside (f : Pc → Bool) (hf : f .outside = false) {pc : ι → Pc}
    (h : ∀ i, pc i = .outside) : number f pc = 0 :=
  total_eq_zero fun i => by simp [h i, hf]

theorem balanced_init [DecidableEq ι] {s : Threads ι HashTableRecord Pc}
    (h : (locking ι).init s) : Balanced s := by
  obtain ⟨⟨n, hn⟩, hpc⟩ := h
  unfold allocateHashTable at hn
  split at hn
  · exact absurd hn (by simp)
  · rw [Balanced, ← Option.some.inj hn, number_outside _ rfl hpc, number_outside _ rfl hpc,
      number_outside _ rfl hpc, number_outside _ rfl hpc, number_outside _ rfl hpc,
      number_outside _ rfl hpc]
    exact ⟨rfl, rfl, rfl, by simp, fun h => absurd h (lt_irrefl _)⟩

/-- A step other than the swap keeps the balance. -/
theorem Balanced.step [DecidableEq ι] {s s' : Threads ι HashTableRecord Pc} {a : ι × Choice}
    (h : Balanced s) (hswap : NoSwap a) (hstep : (locking ι).step s a = some s') :
    Balanced s' := by
  obtain ⟨i, c⟩ := a
  obtain ⟨p', hthread, hpc⟩ := threads_step_eq_some.1 hstep
  have hnumber (f : Pc → Bool) : number f s'.pc + (f (s.pc i)).toNat =
      number f s.pc + (f p').toNat := by
    rw [hpc]
    exact total_update _ _ _ _
  have hsame (f : Pc → Bool) (hf : f (s.pc i) = f p') : number f s'.pc = number f s.pc := by
    have h := hnumber f
    rwa [hf, Nat.add_right_cancel_iff] at h
  -- A step of a writer is none of a lookup.
  have hwriter (hw : WriterStep s.shared s'.shared (s.pc i) p') (hno : ∀ q, s.pc i ≠ .lookup q) :
      Balanced s' := by
    have hlookup (f : LookupPc → Bool) : Pc.inLookup f (s.pc i) = Pc.inLookup f p' := by
      rw [inLookup_eq_false hno, inLookup_eq_false hw.noLookup]
    rw [Balanced, hsame Pc.reading (hlookup _), hsame Pc.counting (hlookup _),
      hsame Pc.entering (hlookup _), hsame Pc.leaving (hlookup _), hsame Pc.last (hlookup _)]
    exact h.writerStep hw (hnumber _)
  cases hp : s.pc i with
  | outside =>
    rw [hp] at hthread
    cases c with
    | call op =>
      obtain ⟨hshared, rfl⟩ := Prod.mk.inj (Option.some.inj hthread)
      have hentry (f : Pc → Bool) (hf : f .outside = f op.entry) :
          number f s'.pc = number f s.pc := hsame f (by rw [hp, hf])
      rw [Balanced, ← hshared, hentry Pc.writing (by cases op <;> rfl),
        hentry Pc.reading (by cases op <;> rfl), hentry Pc.counting (by cases op <;> rfl),
        hentry Pc.entering (by cases op <;> rfl), hentry Pc.leaving (by cases op <;> rfl),
        hentry Pc.last (by cases op <;> rfl)]
      exact h
    | _ => exact absurd hthread (by simp [stepThread])
  | insert key p =>
    refine hwriter ?_ (by simp [hp])
    rw [hp] at hthread ⊢
    refine stepInsert_writerStep hthread fun items hc => ?_
    rw [hc] at hswap
    exact hswap
  | remove key p =>
    refine hwriter ?_ (by simp [hp])
    rw [hp] at hthread ⊢
    exact stepRemove_writerStep hthread
  | lookup p =>
    rw [hp] at hthread hnumber
    cases c with
    | go =>
      have horder := number_order s.pc
      have horder' := number_order s'.pc
      obtain ⟨hbalance, hwriting⟩ := h.stepLookup hthread horder horder' (hnumber _) (hnumber _)
        (hnumber _) (hnumber _) (hnumber _)
      rw [Balanced, hsame Pc.writing (by rw [hp, hwriting]; rfl)]
      exact hbalance
    | _ => exact absurd hthread (by simp [stepThread])

/-- In a run without a swap, the locks are balanced. -/
theorem balanced_of_reachable [DecidableEq ι] {s : Threads ι HashTableRecord Pc}
    (h : ((locking ι).restrict fun _ a => NoSwap a).Reachable s) : Balanced s :=
  h.invariant (fun _ => balanced_init) fun _ _ _ hs hstep =>
    have ⟨hswap, hstep⟩ := System.restrict_step_eq_some.1 hstep
    hs.step hswap hstep

theorem Balanced.exclusive [DecidableEq ι] {s : Threads ι HashTableRecord Pc} (h : Balanced s) :
    Exclusive s := by
  have hwrt := h.wrt
  refine ⟨fun i j hi hj => ?_, fun i j hi hj => ?_⟩
  · by_contra hij
    have hle : (s.pc i).writing.toNat + (s.pc j).writing.toNat ≤ number Pc.writing s.pc :=
      add_le_total (fun p => p.writing.toNat) s.pc hij
    rw [hi, hj, Bool.toNat_true] at hle
    omega
  · have hle : (s.pc i).writing.toNat ≤ number Pc.writing s.pc :=
      le_total (fun p => p.writing.toNat) s.pc i
    have hle' : (s.pc j).reading.toNat ≤ number Pc.reading s.pc :=
      le_total (fun p => p.reading.toNat) s.pc j
    rw [hi, Bool.toNat_true] at hle
    rw [hj, Bool.toNat_true] at hle'
    omega

theorem Balanced.quiescent {s : Threads ι HashTableRecord Pc} (h : Balanced s) : Quiescent s := by
  intro hpc
  obtain ⟨hmutex, hreadcount, hwrt, _, _⟩ := h
  rw [number_outside Pc.writing rfl hpc, number_outside Pc.reading rfl hpc,
    number_outside Pc.leaving rfl hpc, number_outside Pc.last rfl hpc] at hwrt
  rw [number_outside Pc.counting rfl hpc] at hmutex
  rw [number_outside Pc.reading rfl hpc, number_outside Pc.entering rfl hpc] at hreadcount
  exact ⟨hwrt, hmutex, UInt32.toNat_inj.1 hreadcount⟩

/-- In every state of every run in which no insert swaps the records, the locks
    exclude a writer from all others; when all calls returned they are free. -/
theorem exclusive_of_noSwap [DecidableEq ι] {s : Threads ι HashTableRecord Pc}
    (h : ((locking ι).restrict fun _ a => NoSwap a).Reachable s) : Exclusive s ∧ Quiescent s :=
  have hs := balanced_of_reachable h
  ⟨hs.exclusive, hs.quiescent⟩

end Runs

/-- Two threads outside of all calls, on a table with one bucket. -/
def twoThreads : Threads Bool HashTableRecord Pc where
  shared := { numBuckets := 1, numElements := 0, keys := [], wrt := 1, mutex := 1, readcount := 0 }
  pc _ := .outside

/-- The steps of an insert that finds room, by the first thread. -/
def insertSteps (key : UInt64) : List (Bool × Choice) :=
  [(false, .call (.insert key)), (false, .go), (false, .go), (false, .go), (false, .go)]

theorem twoThreads_init : (locking Bool).init twoThreads := ⟨⟨1, rfl⟩, fun _ => rfl⟩

/-- An insert of the first thread, and then a lookup of the second one that is at its
    search as the first thread wants to insert again. -/
def lookupRun : List (Bool × Choice) :=
  insertSteps 5 ++ [(true, .call .lookup), (true, .go), (true, .go), (true, .go), (true, .go),
    (true, .go), (false, .call (.insert 6))]

theorem exclusive_lookup : ∃ s,
    ((locking Bool).restrict fun _ a => NoSwap a).exec twoThreads lookupRun = some s ∧
      s.pc true = .lookup .find ∧ s.pc false = .insert 6 .wait ∧ s.shared.wrt = 0 ∧
      Exclusive s ∧ Quiescent s := by
  have hrun : (((locking Bool).restrict fun _ a => NoSwap a).exec twoThreads lookupRun).map
      (fun s => (s.pc true, s.pc false, s.shared.wrt)) =
        some (.lookup .find, .insert 6 .wait, 0) := by decide
  obtain ⟨s, hs, heq⟩ := Option.map_eq_some_iff.1 hrun
  simp only [Prod.mk.injEq] at heq
  obtain ⟨htrue, hfalse, hwrt⟩ := heq
  exact ⟨s, hs, htrue, hfalse, hwrt,
    exclusive_of_noSwap (System.reachable_of_exec twoThreads_init hs)⟩

/-- The fourth insert makes a larger table, whose `item` happens to have three
    keys; then there are two writers. -/
theorem not_exclusive_swap : ∃ s, (locking Bool).Reachable s ∧ ¬Exclusive s := by
  have hrun : (((locking Bool).exec twoThreads (insertSteps 1 ++ insertSteps 2 ++ insertSteps 3 ++
      [(false, .call (.insert 4)), (false, .go), (false, .swap [10, 11, 12]),
        (true, .call (.insert 5)), (true, .go)])).map
          fun s => (s.pc false).writing && (s.pc true).writing) = some true := by decide
  obtain ⟨s, hs, hwriting⟩ := Option.map_eq_some_iff.1 hrun
  obtain ⟨hfalse, htrue⟩ := Bool.and_eq_true_iff.1 hwriting
  refine ⟨s, System.reachable_of_exec twoThreads_init hs, fun h => ?_⟩
  exact absurd (h.1 false true hfalse htrue) (by simp)

end Cse461.Table
