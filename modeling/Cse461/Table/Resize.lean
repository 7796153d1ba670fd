import Cse461.Table.Free
import Cse461.Table.Iterator

/-!
# Resizing

`ResizeHashtable`, when the load factor is too high: a new table is allocated, an item is
inserted into it for each entry of the old one, and then the records are swapped and the
old chains freed.

* The item that is inserted is never written: it is what the local variable happens to hold,
  as is the bucket number of a new iterator (`Garbage`).
* An insert into the new table may resize that one in turn, so that `growTable` calls itself.
  How often, is bounded by `depth`.

The old chains are freed only if none has more than one entry. Whatever fails, and whatever the
garbage is, either a table is as before, or it had no chain of more than one entry, or the call
does not return (`wp_growTable`).
-/

namespace Cse461.Table.HashTable

open Library LinkedList

variable {ν α β : Type}

/-! ## The functions -/

/-- What is in memory that is read before it is written, at each time. -/
structure Garbage (ν : Type) where
  item : ℕ → HTKeyValue ν
  bucketNum : ℕ → UInt64

/-- The loop of `ResizeHashtable`: whether all inserts succeeded. -/
def copyEntries (grow : ℕ → TableM ν Unit) (item : ℕ → HTKeyValue ν) (newht : ℕ) :
    ℕ → HTIterRecord → TableM ν Bool
  | 0, _ => throw .unbounded
  | fuel + 1, it => do
    if ← htIteratorPastEnd it then
      return true
    else
      let (r, _) ← insertHashTable grow newht (item (← get).lists.next)
      if r ≠ 1 then
        return false
      else
        let (_, it) ← htIteratorNext it
        copyEntries grow item newht fuel it

/-- `ResizeHashtable`, from the allocation of the new table on. Each round of its loop is on
    another node of the old one. -/
def growTable (g : Garbage ν) : ℕ → ℕ → TableM ν Unit
  | 0, _ => throw .unbounded
  | depth + 1, ht => do
    match ← allocateHashTable ((← tableAt ht).numBuckets * 9).toUInt32 with
    | none => return ()
    | some newht =>
      match ← hashTableMakeIterator (g.bucketNum (← get).lists.next) ht with
      | none =>
        let _ ← freeHashTable newht
      | some it =>
        if ← copyEntries (growTable g depth) g.item newht ((← get).lists.next + 1) it then
          let t ← tableAt ht
          let newt ← tableAt newht
          setTable ht fun _ => newt
          setTable newht fun _ => t
          let _ ← freeHashTable newht
        else
          let _ ← freeHashTable newht

/-! ## Calls that only allocate -/

/-- Lists are as before, with less room. -/
def Untouched (l l' : LinkedList.Memory α) : Prop := ∃ n, l.next ≤ n ∧ l' = { l with next := n }

namespace Untouched

theorem refl (l : LinkedList.Memory α) : Untouched l l := ⟨_, le_rfl, rfl⟩

theorem trans (l l₁ l₂ : LinkedList.Memory α) (h : Untouched l l₁) (h₁ : Untouched l₁ l₂) :
    Untouched l l₂ := by
  obtain ⟨n, hn, rfl⟩ := h
  obtain ⟨n₁, hn₁, rfl⟩ := h₁
  exact ⟨n₁, hn.trans hn₁, rfl⟩

theorem malloc : Keeps Untouched (malloc : LinkedListM α (Option ℕ)) :=
  fun l => wp_malloc ⟨l.next + 1, Nat.le_succ _, rfl⟩

theorem nodeAt (p : Option ℕ) : Keeps Untouched (nodeAt p : LinkedListM α (Node α)) := by
  intro l
  rw [LinkedList.nodeAt, wp_bind, wp_get]
  cases p.bind l.nodes with
  | some n => exact refl l
  | none => trivial

theorem headAt (list : ℕ) : Keeps Untouched (headAt list : LinkedListM α LinkedListHead) := by
  intro l
  rw [LinkedList.headAt, wp_bind, wp_get]
  cases l.heads list with
  | some h => exact refl l
  | none => trivial

theorem numElementsInLinkedList (list : ℕ) :
    Keeps Untouched (numElementsInLinkedList list : LinkedListM α ℕ) :=
  Keeps.bind trans (headAt list) fun _ => Keeps.pure refl _

theorem llMakeIterator (list : ℕ) (pos : ℤ) :
    Keeps Untouched (llMakeIterator list pos : LinkedListM α (Option LLIterSt)) := by
  refine Keeps.bind trans (numElementsInLinkedList list) fun n => ?_
  refine Keeps.ite (fun _ => Keeps.pure refl _) fun _ => Keeps.bind trans malloc fun p => ?_
  cases p with
  | none => exact Keeps.pure refl _
  | some p => exact Keeps.bind trans (headAt list) fun _ => Keeps.pure refl _

theorem llIteratorHasNext (iter : LLIterSt) :
    Keeps Untouched (llIteratorHasNext iter : LinkedListM α Bool) :=
  Keeps.bind trans (nodeAt _) fun _ => Keeps.pure refl _

theorem llIteratorNext (iter : LLIterSt) :
    Keeps Untouched (llIteratorNext iter : LinkedListM α (Bool × LLIterSt)) := by
  refine Keeps.bind trans (llIteratorHasNext iter) fun b => ?_
  exact Keeps.ite (fun _ => Keeps.bind trans (nodeAt _) fun _ => Keeps.pure refl _)
    fun _ => Keeps.pure refl _

end Untouched

/-- The memory is as before, with less room. -/
def Allocated (m m' : Memory ν) : Prop :=
  ∃ n, m.lists.next ≤ n ∧ m' = { m with lists := { m.lists with next := n } }

namespace Allocated

theorem refl (m : Memory ν) : Allocated m m := ⟨_, le_rfl, rfl⟩

theorem trans (m m₁ m₂ : Memory ν) (h : Allocated m m₁) (h₁ : Allocated m₁ m₂) :
    Allocated m m₂ := by
  obtain ⟨n, hn, rfl⟩ := h
  obtain ⟨n₁, hn₁, rfl⟩ := h₁
  exact ⟨n₁, hn.trans hn₁, rfl⟩

theorem onLists {x : LinkedListM ℕ α} (hx : Keeps Untouched x) :
    Keeps Allocated (onLists x : TableM ν α) := by
  intro m
  rw [wp_onLists]
  refine wp_mono (hx m.lists) ?_ fun _ _ _ => trivial
  rintro a l ⟨n, hn, rfl⟩
  exact ⟨n, hn, rfl⟩

theorem tableAt (ht : ℕ) : Keeps Allocated (tableAt ht : TableM ν HashTableRecord) := by
  intro m
  rw [HashTable.tableAt, wp_bind, wp_get]
  cases m.tables ht with
  | some t => exact refl m
  | none => trivial

theorem chainAt (t : HashTableRecord) (i : ℕ) : Keeps Allocated (chainAt t i : TableM ν ℕ) := by
  intro m
  rw [HashTable.chainAt]
  cases t.buckets[i]? with
  | some b => exact refl m
  | none => trivial

theorem bucketItAt (iter : HTIterRecord) : Keeps Allocated (bucketItAt iter : TableM ν LLIterSt) := by
  intro m
  rw [HashTable.bucketItAt]
  cases iter.bucketIt with
  | some it => exact refl m
  | none => trivial

theorem firstBucket (t : HashTableRecord) (rounds i : ℕ) :
    Keeps Allocated (firstBucket t rounds i : TableM ν (Option ℕ)) := by
  induction rounds generalizing i with
  | zero => exact Keeps.pure refl _
  | succ rounds ih =>
    refine Keeps.bind trans (chainAt t i) fun b => ?_
    refine Keeps.bind trans (onLists (Untouched.numElementsInLinkedList b)) fun n => ?_
    exact Keeps.ite (fun _ => Keeps.pure refl _) fun _ => ih (i + 1)

theorem nextBucket (t : HashTableRecord) (fuel : ℕ) (bucketNum : UInt64) :
    Keeps Allocated (nextBucket t fuel bucketNum : TableM ν (UInt64 × Option ℕ)) := by
  induction fuel generalizing bucketNum with
  | zero => exact Keeps.throw _
  | succ fuel ih =>
    refine Keeps.ite (fun _ => Keeps.pure refl _) fun _ => ?_
    refine Keeps.bind trans (chainAt t _) fun b => ?_
    refine Keeps.bind trans (onLists (Untouched.numElementsInLinkedList b)) fun n => ?_
    exact Keeps.ite (fun _ => ih _) fun _ => Keeps.pure refl _

theorem hashTableMakeIterator (uninit : UInt64) (ht : ℕ) :
    Keeps Allocated (hashTableMakeIterator uninit ht : TableM ν (Option HTIterRecord)) := by
  refine Keeps.bind trans (onLists Untouched.malloc) fun p => ?_
  cases p with
  | none => exact Keeps.pure refl _
  | some p =>
    refine Keeps.bind trans (tableAt ht) fun t => ?_
    refine Keeps.ite (fun _ => Keeps.pure refl _) fun _ => ?_
    refine Keeps.bind trans (firstBucket t _ _) fun first => ?_
    refine Keeps.bind trans (chainAt t _) fun b => ?_
    refine Keeps.bind trans (onLists (Untouched.llMakeIterator b 0)) fun it => ?_
    cases it with
    | none => exact Keeps.pure refl _
    | some it => exact Keeps.pure refl _

theorem htIteratorPastEnd (iter : HTIterRecord) :
    Keeps Allocated (htIteratorPastEnd iter : TableM ν Bool) :=
  Keeps.ite (fun _ => Keeps.pure refl _) fun _ =>
    Keeps.bind trans (tableAt _) fun _ => Keeps.pure refl _

theorem htIteratorNext (iter : HTIterRecord) :
    Keeps Allocated (htIteratorNext iter : TableM ν (ℤ × HTIterRecord)) := by
  refine Keeps.ite (fun _ => Keeps.pure refl _) fun _ => ?_
  refine Keeps.bind trans (bucketItAt iter) fun it => ?_
  refine Keeps.bind trans (onLists (Untouched.llIteratorHasNext it)) fun b => ?_
  refine Keeps.ite (fun _ => ?_) fun _ => ?_
  · exact Keeps.bind trans (onLists (Untouched.llIteratorNext it)) fun _ => Keeps.pure refl _
  · refine Keeps.bind trans (tableAt _) fun t => ?_
    refine Keeps.bind trans (nextBucket t _ _) fun r => ?_
    obtain ⟨bucketNum, nextChain⟩ := r
    cases nextChain with
    | none => exact Keeps.pure refl _
    | some b =>
      exact Keeps.bind trans (onLists (Untouched.llMakeIterator b 0)) fun _ => Keeps.pure refl _

end Allocated

/-! ## What resizing does -/

/-- The locks of a table that no other call is using, or has but for the one for writing. -/
structure Unlocked (t : HashTableRecord) : Prop where
  mutex : t.mutex = 1
  readcount : t.readcount = 0

/-- Resizing leaves the chains of a table as they are, or replaces them; it can do so only where no
    chain has more than one entry. -/
def Grown (m : Memory ν) (ht : ℕ) (t : HashTableRecord) (c : ℕ → Option (List (ℕ × ℕ)))
    (chains : List (List (Slot ν))) (m' : Memory ν) : Prop :=
  (∃ c', Left m ht t c chains m' t c' chains) ∨
    (∀ chain ∈ chains, chain.length ≤ 1) ∧ ∃ t' c' chains', 0 < t'.wrt ∧ Unlocked t' ∧
      Left m ht t c chains m' t' c' chains'

/-- What `grow` must do, for inserts to be safe. -/
def Grows (grow : ℕ → TableM ν Unit) : Prop :=
  ∀ (m : Memory ν) (ht : ℕ) (t : HashTableRecord) (c : ℕ → Option (List (ℕ × ℕ)))
    (chains : List (List (Slot ν))), Stored m ht t c chains →
      wp (grow ht) (fun _ m' => Grown m ht t c chains m') (fun _ _ => True) m

section

variable {m m' : Memory ν} {ht : ℕ} {t : HashTableRecord} {c : ℕ → Option (List (ℕ × ℕ))}
  {chains : List (List (Slot ν))} {grow : ℕ → TableM ν Unit}

theorem Allocated.quiet (h : Allocated m m') (c : ℕ → Option (List (ℕ × ℕ))) : Quiet m m' c c := by
  obtain ⟨n, hn, rfl⟩ := h
  exact ⟨fun _ _ => rfl, fun _ _ => rfl, fun _ _ => rfl, rfl, hn⟩

theorem Allocated.represents (h : Allocated m m') (hm : Represents m.lists c) :
    Represents m'.lists c := by
  obtain ⟨n, hn, rfl⟩ := h
  exact hm.mono hn rfl rfl

theorem Stored.allocated (h : Stored m ht t c chains) (hm : Allocated m m') :
    Left m ht t c chains m' t c chains :=
  h.quiet (hm.quiet c) (hm.represents h.chained.lists)

/-- The resizing of an insert. -/
theorem Grows.wp_resizeHashtable (hgrow : Grows grow) (h : Stored m ht t c chains) :
    wp (resizeHashtable grow ht) (fun _ m' => Grown m ht t c chains m') (fun _ _ => True) m := by
  rw [resizeHashtable, wp_bind]
  refine wp_tableAt h.table ?_
  rw [wp_ite]
  refine ⟨fun _ => .inl ⟨c, h, Stays.refl ..⟩, fun _ => hgrow m ht t c chains h⟩

/-- An insert leaves a table behind, whatever fails. -/
theorem Grows.wp_insertHashTable (hgrow : Grows grow) (h : Stored m ht t c chains)
    (hwrt : 0 < t.wrt) (ht' : Unlocked t) (kv : HTKeyValue ν) :
    wp (insertHashTable grow ht kv) (fun _ m' => ∃ t' c' chains', 0 < t'.wrt ∧ Unlocked t' ∧
      Left m ht t c chains m' t' c' chains') (fun _ _ => True) m := by
  rw [insertHashTable_eq, wp_bind]
  refine wp_waitWrt h.table hwrt ?_
  rw [wp_bind]
  refine wp_mono (hgrow.wp_resizeHashtable h.lock.stored) ?_ fun _ _ hE => hE
  intro _ m₁ hgrown
  -- The insert goes on in the table that the resizing left.
  have hinsert : ∀ {t₁ c₁ chains₁}, Unlocked t₁ → Left m ht t c chains m₁ t₁ c₁ chains₁ →
      wp (searchChain ht kv.key >>= storeEntry ht kv) (fun _ m' => ∃ t' c' chains', 0 < t'.wrt ∧
        Unlocked t' ∧ Left m ht t c chains m' t' c' chains') (fun _ _ => True) m₁ := by
    intro t₁ c₁ chains₁ hunlocked hleft
    refine wp_mono (wp_insertEntry hleft.stored kv) ?_ fun _ _ hE => hE
    rintro r m' ⟨t', c', chains', chain, -, hleft', hi⟩
    refine ⟨t', c', chains', ?_, ?_, hleft.trans hleft'⟩
    · cases hi <;> exact Nat.succ_pos _
    · cases hi <;> exact ⟨hunlocked.mutex, hunlocked.readcount⟩
  rcases hgrown with ⟨c₁, hleft⟩ | ⟨-, t₁, c₁, chains₁, -, hunlocked, hleft⟩
  · refine hinsert ?_ (h.lock.trans hleft)
    exact ⟨ht'.mutex, ht'.readcount⟩
  · exact hinsert hunlocked (h.lock.trans hleft)

/-- A new table, and what was there before it. -/
structure Beside (m : Memory ν) (c : ℕ → Option (List (ℕ × ℕ))) (newht : ℕ) (m' : Memory ν)
    (newt : HashTableRecord) (c' : ℕ → Option (List (ℕ × ℕ))) (chains : List (List (Slot ν))) :
    Prop where
  stored : Stored m' newht newt c' chains
  wrt : 0 < newt.wrt
  unlocked : Unlocked newt
  quiet : Quiet m m' c c'
  newht : m.lists.next ≤ newht
  buckets : ∀ b ∈ newt.buckets, m.lists.next ≤ b
  owned : ∀ p ∈ entriesOf chains, m.lists.next ≤ p

variable {newht : ℕ} {newt : HashTableRecord} {c' : ℕ → Option (List (ℕ × ℕ))}
  {newchains : List (List (Slot ν))}

/-- A call on the new table leaves alone what was there before it. -/
theorem Beside.trans (h : Beside m c newht m' newt c' newchains) {m'' : Memory ν}
    {newt' : HashTableRecord} {c'' : ℕ → Option (List (ℕ × ℕ))} {newchains' : List (List (Slot ν))}
    (hwrt : 0 < newt'.wrt) (hunlocked : Unlocked newt')
    (hleft : Left m' newht newt c' newchains m'' newt' c'' newchains') :
    Beside m c newht m'' newt' c'' newchains' where
  stored := hleft.stored
  wrt := hwrt
  unlocked := hunlocked
  quiet := h.quiet.trans_stays hleft.stays h.newht h.buckets h.owned
  newht := h.newht
  buckets b hb := (hleft.stays.buckets b hb).elim (h.buckets b) h.quiet.next.trans
  owned p hp := (hleft.stays.owned p hp).elim (h.owned p) h.quiet.next.trans

theorem Beside.allocated (h : Beside m c newht m' newt c' newchains) {m'' : Memory ν}
    (hm : Allocated m' m'') : Beside m c newht m'' newt c' newchains :=
  h.trans h.wrt h.unlocked (h.stored.allocated hm)

/-- The loop fills the new table, and leaves alone what was there before it. -/
theorem Beside.wp_copyEntries (h : Beside m c newht m' newt c' newchains) (hgrow : Grows grow)
    (item : ℕ → HTKeyValue ν) (fuel : ℕ) (it : HTIterRecord) :
    wp (copyEntries grow item newht fuel it) (fun _ m'' => ∃ newt' c'' newchains',
      Beside m c newht m'' newt' c'' newchains') (fun _ _ => True) m' := by
  induction fuel generalizing m' newt c' newchains it with
  | zero => trivial
  | succ fuel ih =>
    rw [copyEntries, wp_bind]
    refine wp_mono (Allocated.htIteratorPastEnd it m') ?_ fun _ _ hE => hE
    intro past m₁ hm₁
    have h₁ := h.allocated hm₁
    rw [wp_ite]
    refine ⟨fun _ => ⟨newt, c', newchains, h₁⟩, fun _ => ?_⟩
    rw [wp_bind, wp_get, wp_bind]
    refine wp_mono (hgrow.wp_insertHashTable h₁.stored h₁.wrt h₁.unlocked _) ?_ fun _ _ hE => hE
    rintro ⟨r, old⟩ m₂ ⟨newt₂, c₂, newchains₂, hwrt, hunlocked, hleft⟩
    have h₂ := h₁.trans hwrt hunlocked hleft
    dsimp only
    rw [wp_ite]
    refine ⟨fun _ => ⟨newt₂, c₂, newchains₂, h₂⟩, fun _ => ?_⟩
    rw [wp_bind]
    refine wp_mono (Allocated.htIteratorNext it m₂) ?_ fun _ _ hE => hE
    rintro ⟨r', it'⟩ m₃ hm₃
    exact ih (h₂.allocated hm₃) it'

/-- The new table is freed, when resizing gives up. -/
theorem Beside.wp_freeHashTable (h : Beside m c newht m' newt c' newchains)
    (hm : Stored m ht t c chains) :
    wp (freeHashTable newht) (fun _ m'' => Grown m ht t c chains m'') (fun _ _ => True) m' := by
  refine wp_mono (HashTable.wp_freeHashTable h.stored) ?_ fun _ _ _ => trivial
  rintro r m'' ⟨-, -, c'', hlists, hstays⟩
  exact .inl ⟨c'', hm.quiet (h.quiet.trans_stays hstays h.newht h.buckets h.owned) hlists⟩

/-- The records are swapped, and the old chains freed with what is now the new table. -/
theorem Beside.wp_swap (h : Beside m c newht m' newt c' newchains) (hm : Stored m ht t c chains) :
    wp (do
      let t ← tableAt ht
      let newt ← tableAt newht
      setTable ht fun _ => newt
      setTable newht fun _ => t
      let _ ← freeHashTable newht) (fun _ m'' => Grown m ht t c chains m'')
      (fun _ _ => True) m' := by
  have hht : ht ≠ newht := (hm.below.trans_le h.newht).ne
  have hold := hm.quiet h.quiet h.stored.chained.lists
  rw [wp_bind]
  refine wp_tableAt hold.stored.table ?_
  rw [wp_bind]
  refine wp_tableAt h.stored.table ?_
  rw [wp_bind]
  refine wp_setTable hold.stored.table ?_
  rw [wp_bind]
  refine wp_setTable ((Function.update_of_ne hht.symm _ _).trans h.stored.table) ?_
  rw [wp_bind]
  set m₁ : Memory ν := ⟨m'.lists, m'.entries, Function.update
    (Function.update m'.tables ht (some newt)) newht (some t)⟩
  have h₁ : Stored m₁ newht t c' chains := ⟨Function.update_self .., h.stored.below,
    hold.stored.chained.congr h.stored.chained.lists (fun _ _ => rfl) le_rfl fun _ _ => rfl,
    hm.pos, hm.lt⟩
  refine wp_mono (HashTable.wp_freeHashTable h₁) ?_ fun _ _ _ => trivial
  rintro r m'' ⟨-, hle, c'', hlists, hstays⟩
  -- What belongs to the new chains is not freed with the old ones.
  have hlists' : ∀ b < m'.lists.next, b ∉ t.buckets → c'' b = c' b := hstays.lists
  have hentries' : ∀ p < m'.lists.next, p ∉ entriesOf chains → m''.entries p = m'.entries p :=
    hstays.entries
  have hnext : m'.lists.next ≤ m''.lists.next := hstays.next
  have htables : ∀ k < m.lists.next, k ≠ ht → m''.tables k = m.tables k := by
    intro k hk hne
    have hknew : k ≠ newht := (hk.trans_le h.newht).ne
    refine (hstays.tables k (hk.trans_le h.quiet.next) hknew).trans ?_
    exact (Function.update_of_ne hknew _ _).trans
      ((Function.update_of_ne hne _ _).trans (h.quiet.tables k hk))
  refine .inr ⟨hle, newt, c'', newchains, h.wrt, h.unlocked, ⟨?_, ?_, ?_, h.stored.pos, h.stored.lt⟩,
    fun b hb hmem => ?_, fun p hp hmem => ?_, htables, fun b hb => .inr (h.buckets b hb),
    fun p hp => .inr (h.owned p hp), hstays.room.trans h.quiet.room, h.quiet.next.trans hnext⟩
  · refine (hstays.tables ht (hm.below.trans_le h.quiet.next) hht).trans ?_
    exact (Function.update_of_ne hht _ _).trans (Function.update_self ..)
  · exact hm.below.trans_le (h.quiet.next.trans hnext)
  · refine h.stored.chained.congr hlists (fun b hb => ?_) hnext fun p hp => ?_
    · refine hlists' b (h.stored.chained.bucket_lt hb) fun hmem => ?_
      exact (hm.chained.bucket_lt hmem).not_ge (h.buckets b hb)
    · refine hentries' p (h.stored.chained.entry_lt hp) fun hmem => ?_
      exact (hm.chained.entry_lt hmem).not_ge (h.owned p hp)
  · exact (hlists' b (hb.trans_le h.quiet.next) hmem).trans (h.quiet.lists b hb)
  · exact (hentries' p (hp.trans_le h.quiet.next) hmem).trans (h.quiet.entries p hp)

/-- Whatever the garbage is and what fails: resizing leaves a table alone, or it had no chain of
    more than one entry, or the call does not return. -/
theorem grows_growTable (g : Garbage ν) (depth : ℕ) : Grows (growTable g depth) := by
  induction depth with
  | zero => exact fun _ _ _ _ _ _ => trivial
  | succ depth ih =>
    intro m ht t c chains h
    rw [growTable, wp_bind]
    refine wp_tableAt h.table ?_
    rw [wp_bind]
    refine wp_mono (wp_allocateHashTable _ h.chained.lists) ?_ fun _ _ hE => hE
    rintro r m₁ ⟨c₁, hlists, hquiet, ⟨-, rfl⟩ | ⟨newht, newt, rfl, -, hnewht, hbuckets, -, htight⟩⟩
    · exact .inl ⟨c₁, h.quiet hquiet hlists⟩
    · have howned : ∀ p ∈ entriesOf (List.replicate ((t.numBuckets * 9).toUInt32).toNat
          ([] : List (Slot ν))), m.lists.next ≤ p := by
        intro p hp
        rw [entriesOf, List.flatten_replicate_nil] at hp
        cases hp
      have hbeside : Beside m c newht m₁ newt c₁ _ := ⟨htight.stored, htight.wrt ▸ Nat.one_pos,
        ⟨htight.mutex, htight.readcount⟩, hquiet, hnewht, hbuckets, howned⟩
      dsimp only
      rw [wp_bind, wp_get, wp_bind]
      refine wp_mono (Allocated.hashTableMakeIterator _ ht m₁) ?_ fun _ _ hE => hE
      intro it m₂ hm₂
      have hbeside₂ := hbeside.allocated hm₂
      cases it with
      | none =>
        dsimp only
        rw [wp_bind]
        exact hbeside₂.wp_freeHashTable h
      | some it =>
        dsimp only
        rw [wp_bind, wp_get, wp_bind]
        refine wp_mono (hbeside₂.wp_copyEntries ih _ _ it) ?_ fun _ _ hE => hE
        rintro copied m₃ ⟨newt₃, c₃, newchains₃, hbeside₃⟩
        rw [wp_ite]
        refine ⟨fun _ => hbeside₃.wp_swap h, fun _ => ?_⟩
        rw [wp_bind]
        exact hbeside₃.wp_freeHashTable h

end

end Cse461.Table.HashTable
