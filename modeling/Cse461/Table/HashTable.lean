import Cse461.Library.Interleaving
import Cse461.Table.LinkedList

/-!
# The hash table

`HashTable.c`, one call at a time: an array of chains, each a linked list of the
entries whose keys belong to its bucket. What happens to the semaphores when calls
of several threads meet is in `Cse461.Table.Locking`.

* An entry is a record of its own, which the payload of a node points to.
* `resizeHashtable` takes what it does beyond its load check as a parameter.

`Chained` says how chains of entries lie in memory, and what keeps them so; what the calls
do to them is in `Cse461.Table.Stored`.
-/

namespace Cse461.Table.HashTable

open Library LinkedList

/-- `HTKeyValue`. -/
structure HTKeyValue (ν : Type) where
  key : UInt64
  value : ν
  deriving DecidableEq

/-- `struct htrec`. -/
structure HashTableRecord where
  numBuckets : UInt64
  numElements : UInt64
  /-- The addresses of the chains. -/
  buckets : List ℕ
  wrt : ℕ
  mutex : ℕ
  readcount : UInt32
  deriving DecidableEq

/-- The records in memory: the lists, the entries and the tables. -/
structure Memory (ν : Type) where
  lists : LinkedList.Memory ℕ
  entries : ℕ → Option (HTKeyValue ν)
  tables : ℕ → Option HashTableRecord

/-- A call, on the memory. -/
abbrev TableM (ν : Type) := EStateM Stop (Memory ν)

variable {ν α : Type}

/-! ## Access to memory -/

/-- A call on a list. -/
def onLists (x : LinkedListM ℕ α) : TableM ν α := fun m =>
  match x m.lists with
  | .ok a l => .ok a { m with lists := l }
  | .error e l => .error e { m with lists := l }

/-- The entry at `p`. -/
def entryAt (p : ℕ) : TableM ν (HTKeyValue ν) := do
  match (← get).entries p with
  | some kv => return kv
  | none => throw .dangling

/-- Write the entry at `p`, allocated before. -/
def putEntry (p : ℕ) (kv : HTKeyValue ν) : TableM ν Unit :=
  modify fun m => { m with entries := Function.update m.entries p (some kv) }

/-- Free the entry at `p`. -/
def freeEntry (p : ℕ) : TableM ν Unit := do
  let _ ← entryAt p
  modify fun m => { m with entries := Function.update m.entries p none }

/-- The record of a table. -/
def tableAt (ht : ℕ) : TableM ν HashTableRecord := do
  match (← get).tables ht with
  | some t => return t
  | none => throw .dangling

/-- Write to the record of a table. -/
def setTable (ht : ℕ) (f : HashTableRecord → HashTableRecord) : TableM ν Unit := do
  let t ← tableAt ht
  modify fun m => { m with tables := Function.update m.tables ht (some (f t)) }

/-- `sem_wait(&table->wrt)`. -/
def waitWrt (ht : ℕ) : TableM ν Unit := do
  if (← tableAt ht).wrt = 0 then throw .blocked else setTable ht fun t => { t with wrt := t.wrt - 1 }

/-- `sem_post(&table->wrt)`. -/
def postWrt (ht : ℕ) : TableM ν Unit := setTable ht fun t => { t with wrt := t.wrt + 1 }

/-- `sem_wait(&table->mutex)`. -/
def waitMutex (ht : ℕ) : TableM ν Unit := do
  if (← tableAt ht).mutex = 0 then throw .blocked
  else setTable ht fun t => { t with mutex := t.mutex - 1 }

/-- `sem_post(&table->mutex)`. -/
def postMutex (ht : ℕ) : TableM ν Unit := setTable ht fun t => { t with mutex := t.mutex + 1 }

/-! ## The functions -/

/-- The loop of `AllocateHashTable`: the chains allocated so far are freed if there is no
    room for the next one. They are empty, so that freeing them is freeing their heads. -/
def allocateBuckets : ℕ → List ℕ → LinkedListM ℕ (Option (List ℕ))
  | 0, buckets => return some buckets
  | n + 1, buckets => do
    match ← allocateLinkedList with
    | some b => allocateBuckets n (buckets ++ [b])
    | none =>
      modify fun m => { m with heads := fun b => if b ∈ buckets then none else m.heads b }
      return none

/-- `AllocateHashTable`. -/
def allocateHashTable (numBuckets : UInt32) : TableM ν (Option ℕ) := do
  if numBuckets = 0 then
    return none
  else
    match ← onLists malloc with
    | none => return none
    | some ht =>
      match ← onLists malloc with
      | none => return none
      | some _ =>
        match ← onLists (allocateBuckets numBuckets.toNat []) with
        | none => return none
        | some buckets =>
          modify fun m => { m with
            tables := Function.update m.tables ht (some
              { numBuckets := numBuckets.toUInt64, numElements := 0, buckets := buckets, wrt := 1
                mutex := 1, readcount := 0 }) }
          return some ht

/-- `HashKeyToBucketNum`. -/
def hashKeyToBucketNum (t : HashTableRecord) (key : UInt64) : UInt64 := key % t.numBuckets

/-- The loop of `find`. -/
def findLoop (targetKey : UInt64) (remove : Bool) :
    ℕ → LLIterSt → TableM ν (ℤ × Option (HTKeyValue ν) × Option ℕ)
  | 0, _ => throw .unbounded
  | fuel + 1, iter => do
    let payload ← onLists (llIteratorGetPayload iter)
    let kv ← entryAt payload
    if kv.key = targetKey then
      if remove then
        freeEntry payload
        let _ ← onLists (llIteratorDelete iter)
      return (1, some kv, some payload)
    else
      let (next, iter) ← onLists (llIteratorNext iter)
      if next then findLoop targetKey remove fuel iter else return (0, none, none)

/-- `find`, which returns `*found` and `*foundPtr` too. A walk takes as many rounds as the
    list has elements. -/
def find (list : ℕ) (targetKey : UInt64) (remove : Bool) :
    TableM ν (ℤ × Option (HTKeyValue ν) × Option ℕ) := do
  let iter ← onLists (llMakeIterator list 0)
  let numElements ← onLists (numElementsInLinkedList list)
  match iter with
  | none => return (if 0 < numElements then -1 else 0, none, none)
  | some iter => findLoop targetKey remove numElements iter

/-- The chain of a bucket. -/
def chainAt (t : HashTableRecord) (bucket : ℕ) : TableM ν ℕ := do
  match t.buckets[bucket]? with
  | some b => return b
  | none => throw .dangling

/-- `ResizeHashtable`, given what it does when the load factor is too high. -/
def resizeHashtable (grow : ℕ → TableM ν Unit) (ht : ℕ) : TableM ν Unit := do
  let t ← tableAt ht
  if t.numElements < 3 * t.numBuckets then return () else grow ht

/-- `InsertHashTable`, which returns `*oldkeyvalue` too. -/
def insertHashTable (grow : ℕ → TableM ν Unit) (table : ℕ) (newkeyvalue : HTKeyValue ν) :
    TableM ν (ℤ × Option (HTKeyValue ν)) := do
  waitWrt table
  resizeHashtable grow table
  let t ← tableAt table
  let insertChain ← chainAt t (hashKeyToBucketNum t newkeyvalue.key).toUInt32.toNat
  let (success, _, found) ← find insertChain newkeyvalue.key false
  if success = -1 then
    postWrt table
    return (0, none)
  else if success = 0 then
    setTable table fun t => { t with numElements := t.numElements + 1 }
    match ← onLists malloc with
    | none =>
      postWrt table
      return (0, none)
    | some newEntry =>
      putEntry newEntry newkeyvalue
      let pushed ← onLists (pushLinkedList insertChain newEntry)
      postWrt table
      return (if pushed then 1 else 0, none)
  else
    match found with
    | none => throw .dangling
    | some found =>
      let old ← entryAt found
      putEntry found { old with value := newkeyvalue.value }
      postWrt table
      return (2, some old)

/-- `InsertHashTable`, from the resizing to the end of the search: the chain, and what `find`
    returns. -/
def searchChain (table : ℕ) (key : UInt64) :
    TableM ν (ℕ × ℤ × Option (HTKeyValue ν) × Option ℕ) := do
  let t ← tableAt table
  let insertChain ← chainAt t (hashKeyToBucketNum t key).toUInt32.toNat
  let r ← find insertChain key false
  return (insertChain, r)

/-- `InsertHashTable` after the search. -/
def storeEntry (table : ℕ) (newkeyvalue : HTKeyValue ν) :
    ℕ × ℤ × Option (HTKeyValue ν) × Option ℕ → TableM ν (ℤ × Option (HTKeyValue ν))
  | (insertChain, success, _, found) => do
    if success = -1 then
      postWrt table
      return (0, none)
    else if success = 0 then
      setTable table fun t => { t with numElements := t.numElements + 1 }
      match ← onLists malloc with
      | none =>
        postWrt table
        return (0, none)
      | some newEntry =>
        putEntry newEntry newkeyvalue
        let pushed ← onLists (pushLinkedList insertChain newEntry)
        postWrt table
        return (if pushed then 1 else 0, none)
    else
      match found with
      | none => throw .dangling
      | some found =>
        let old ← entryAt found
        putEntry found { old with value := newkeyvalue.value }
        postWrt table
        return (2, some old)

/-- `LookupHashTable`, which returns `*keyvalue` too. -/
def lookupHashTable (table : ℕ) (key : UInt64) : TableM ν (ℤ × Option (HTKeyValue ν)) := do
  waitMutex table
  setTable table fun t => { t with readcount := t.readcount + 1 }
  if (← tableAt table).readcount = 1 then
    waitWrt table
  postMutex table
  let t ← tableAt table
  let lookupChain ← chainAt t (hashKeyToBucketNum t key).toNat
  let (ret, keyvalue, _) ← find lookupChain key false
  waitMutex table
  setTable table fun t => { t with readcount := t.readcount - 1 }
  if (← tableAt table).readcount = 0 then
    postWrt table
  postMutex table
  return (ret, keyvalue)

/-- `RemoveFromHashTable`, which returns `*keyvalue` too. -/
def removeFromHashTable (table : ℕ) (key : UInt64) : TableM ν (ℤ × Option (HTKeyValue ν)) := do
  waitWrt table
  let t ← tableAt table
  let removeChain ← chainAt t (hashKeyToBucketNum t key).toNat
  let (success, keyvalue, _) ← find removeChain key true
  if success = 1 then
    setTable table fun t => { t with numElements := t.numElements - 1 }
  postWrt table
  return (success, keyvalue)

/-! ## What access to memory does -/

section

variable {m : Memory ν} {E : Stop → Memory ν → Prop} {p ht : ℕ} {kv : HTKeyValue ν}
  {t : HashTableRecord}

theorem wp_onLists {x : LinkedListM ℕ α} {Q : α → Memory ν → Prop} :
    wp (onLists x) Q E m ↔
      wp x (fun a l => Q a { m with lists := l }) (fun e l => E e { m with lists := l }) m.lists := by
  simp only [wp, onLists]
  cases x m.lists <;> rfl

/-- After the resizing, `InsertHashTable` is a search, and what is made of what was found. -/
theorem insertHashTable_eq (grow : ℕ → TableM ν Unit) (ht : ℕ) (kv : HTKeyValue ν) :
    insertHashTable grow ht kv = waitWrt ht >>= fun _ => resizeHashtable grow ht >>= fun _ =>
      searchChain ht kv.key >>= storeEntry ht kv := by
  simp only [insertHashTable, searchChain, storeEntry, bind_assoc, pure_bind]

theorem wp_entryAt {Q : HTKeyValue ν → Memory ν → Prop} (h : m.entries p = some kv)
    (hQ : Q kv m) : wp (entryAt p) Q E m := by
  simpa [entryAt, h] using hQ

theorem wp_entryAt_none {Q : HTKeyValue ν → Memory ν → Prop} (h : m.entries p = none)
    (hE : E .dangling m) : wp (entryAt p) Q E m := by
  simpa [entryAt, h] using hE

theorem wp_putEntry {Q : Unit → Memory ν → Prop}
    (hQ : Q () { m with entries := Function.update m.entries p (some kv) }) :
    wp (putEntry p kv) Q E m :=
  (wp_modify _).2 hQ

theorem wp_freeEntry {Q : Unit → Memory ν → Prop} (h : m.entries p = some kv)
    (hQ : Q () { m with entries := Function.update m.entries p none }) :
    wp (freeEntry p) Q E m := by
  rw [freeEntry, wp_bind]
  exact wp_entryAt h ((wp_modify _).2 hQ)

theorem wp_tableAt {Q : HashTableRecord → Memory ν → Prop} (h : m.tables ht = some t)
    (hQ : Q t m) : wp (tableAt ht) Q E m := by
  simpa [tableAt, h] using hQ

theorem wp_setTable {f : HashTableRecord → HashTableRecord} {Q : Unit → Memory ν → Prop}
    (h : m.tables ht = some t)
    (hQ : Q () { m with tables := Function.update m.tables ht (some (f t)) }) :
    wp (setTable ht f) Q E m := by
  rw [setTable, wp_bind]
  exact wp_tableAt h ((wp_modify _).2 hQ)

end

/-! ## What `find` does -/

/-- A node of a chain, with its entry. -/
structure Slot (ν : Type) where
  node : ℕ
  entry : ℕ
  kv : HTKeyValue ν

/-- The node and what it points to. -/
def Slot.cell (s : Slot ν) : ℕ × ℕ := (s.node, s.entry)

section

variable {m m' : Memory ν} {c : ℕ → Option (List (ℕ × ℕ))} {E : Stop → Memory ν → Prop}
  {b : ℕ} {targetKey : UInt64} {chain : List (Slot ν)}

/-- What does not concern the chains is left alone. -/
structure Kept (m m' : Memory ν) : Prop where
  tables : m'.tables = m.tables
  room : m'.lists.room = m.lists.room
  next : m.lists.next ≤ m'.lists.next

/-- What `find` makes of the chain at `b`: the first slot with the key is returned, and
    removed if asked. -/
inductive Found (c : ℕ → Option (List (ℕ × ℕ))) (b : ℕ) (chain : List (Slot ν))
    (targetKey : UInt64) (remove : Bool) (m m' : Memory ν) :
    ℤ × Option (HTKeyValue ν) × Option ℕ → Prop
  | absent : (∀ s ∈ chain, s.kv.key ≠ targetKey) → m'.entries = m.entries →
      Represents m'.lists c → Found c b chain targetKey remove m m' (0, none, none)
  | kept {l₁ l₂ : List (Slot ν)} {s : Slot ν} : remove = false → chain = l₁ ++ s :: l₂ →
      s.kv.key = targetKey → m'.entries = m.entries → Represents m'.lists c →
      Found c b chain targetKey remove m m' (1, some s.kv, some s.entry)
  | removed {l₁ l₂ : List (Slot ν)} {s : Slot ν} : remove = true → chain = l₁ ++ s :: l₂ →
      s.kv.key = targetKey → m'.entries = Function.update m.entries s.entry none →
      Represents m'.lists (Function.update c b (some ((l₁ ++ l₂).map Slot.cell))) →
      Found c b chain targetKey remove m m' (1, some s.kv, some s.entry)

theorem Kept.refl (m : Memory ν) : Kept m m := ⟨rfl, rfl, le_rfl⟩

theorem Kept.trans {m'' : Memory ν} (h : Kept m m') (h' : Kept m' m'') : Kept m m'' :=
  ⟨h'.tables.trans h.tables, h'.room.trans h.room, h.next.trans h'.next⟩

/-- The walk from the slot `s` on, round by round. -/
theorem wp_findLoop {remove : Bool} {l₁ l₂ : List (Slot ν)} {s : Slot ν} {fuel : ℕ}
    (h : Represents m.lists c) (hb : c b = some (chain.map Slot.cell))
    (hentries : ∀ s ∈ chain, m.entries s.entry = some s.kv) (hchain : chain = l₁ ++ s :: l₂)
    (hbefore : ∀ s ∈ l₁, s.kv.key ≠ targetKey) (hfuel : l₂.length < fuel) :
    wp (findLoop targetKey remove fuel ⟨b, some s.node⟩) (fun r m' => Kept m m' ∧
      m'.lists.next = m.lists.next ∧ Found c b chain targetKey remove m m' r) E m := by
  induction fuel generalizing l₁ l₂ s with
  | zero => exact absurd hfuel (Nat.not_lt_zero _)
  | succ fuel ih =>
    have hcells : c b = some (l₁.map Slot.cell ++ (s.node, s.entry) :: l₂.map Slot.cell) := by
      rw [hb, hchain, List.map_append]
      rfl
    have hentry : m.entries s.entry = some s.kv :=
      hentries s (hchain ▸ List.mem_append_right _ List.mem_cons_self)
    rw [findLoop, wp_bind, wp_onLists]
    refine wp_llIteratorGetPayload h hcells ?_
    rw [wp_bind]
    refine wp_entryAt hentry ?_
    rw [wp_ite]
    refine ⟨fun hkey => ?_, fun hkey => ?_⟩
    · cases remove with
      | false => exact ⟨.refl m, rfl, .kept rfl hchain hkey rfl h⟩
      | true =>
        dsimp only
        rw [if_pos rfl, wp_bind]
        refine wp_freeEntry hentry ?_
        rw [wp_bind, wp_onLists]
        refine wp_mono (wp_llIteratorDelete h hcells) ?_ fun _ _ hE => hE
        rintro r lists ⟨-, hroom, hnext, hlists⟩
        rw [← List.map_append] at hlists
        exact ⟨⟨rfl, hroom, hnext.ge⟩, hnext, .removed rfl hchain hkey rfl hlists⟩
    · rw [wp_bind, wp_onLists]
      refine wp_llIteratorNext h hcells ?_
      have hbefore' : ∀ r ∈ l₁ ++ [s], r.kv.key ≠ targetKey := by
        intro r hr
        rcases List.mem_append.1 hr with hr | hr
        · exact hbefore r hr
        · exact List.mem_singleton.1 hr ▸ hkey
      cases l₂ with
      | nil => exact ⟨.refl m, rfl, .absent (hchain ▸ hbefore') rfl h⟩
      | cons r l₂ =>
        have hchain' : chain = (l₁ ++ [s]) ++ r :: l₂ := by
          rw [hchain, List.append_assoc]
          rfl
        exact ih hchain' hbefore' (Nat.lt_of_succ_lt_succ hfuel)

/-- `find` does not allocate the iterator of an empty chain. -/
theorem wp_find {remove : Bool} (h : Represents m.lists c) (hb : c b = some (chain.map Slot.cell))
    (hentries : ∀ s ∈ chain, m.entries s.entry = some s.kv)
    (hroom : chain ≠ [] → m.lists.room m.lists.next) :
    wp (find b targetKey remove) (fun r m' => Kept m m' ∧
      m'.lists.next = m.lists.next + (if chain = [] then 0 else 1) ∧
      Found c b chain targetKey remove m m' r) E m := by
  rw [find, wp_bind, wp_onLists]
  refine wp_mono (wp_llMakeIterator h hb) ?_ fun _ _ hE => hE
  rintro iter lists ⟨rfl, rfl⟩
  have h' : Represents { m.lists with
      next := m.lists.next + if chain.map Slot.cell = [] then 0 else 1 } c :=
    h.mono (Nat.le_add_right _ _) rfl rfl
  rw [wp_bind, wp_onLists]
  refine wp_numElementsInLinkedList h' hb ?_
  cases hchain : chain with
  | nil => exact ⟨⟨rfl, rfl, le_rfl⟩, rfl, .absent (fun s hs => absurd hs List.not_mem_nil) rfl h⟩
  | cons s l =>
    rw [hchain] at hb hentries h' hroom
    have hbefore : ∀ r ∈ ([] : List (Slot ν)), r.kv.key ≠ targetKey :=
      fun r hr => absurd hr List.not_mem_nil
    rw [if_pos ⟨List.cons_ne_nil _ _, hroom (List.cons_ne_nil s l)⟩]
    refine wp_mono (wp_findLoop (m := { m with lists := { m.lists with next := _ } }) h' hb hentries
      (List.nil_append (s :: l)).symm hbefore (by simp)) ?_ fun _ _ hE => hE
    rintro r m' ⟨hkept, hnext, hfound⟩
    refine ⟨⟨hkept.tables, hkept.room, (Nat.le_succ _).trans hkept.next⟩, hnext, ?_⟩
    cases hfound with
    | absent habsent hentries' hlists => exact .absent habsent hentries' hlists
    | kept hremove hl hkey hentries' hlists => exact .kept hremove hl hkey hentries' hlists
    | removed hremove hl hkey hentries' hlists => exact .removed hremove hl hkey hentries' hlists

/-- Without room for the iterator, `find` fails. -/
theorem wp_find_outOfMemory {remove : Bool} (h : Represents m.lists c)
    (hb : c b = some (chain.map Slot.cell)) (hchain : chain ≠ [])
    (hroom : m.lists.room m.lists.next = false) :
    wp (find b targetKey remove) (fun r m' => r = (-1, none, none) ∧
      m' = { m with lists := { m.lists with next := m.lists.next + 1 } }) E m := by
  obtain ⟨s, l, rfl⟩ := List.exists_cons_of_ne_nil hchain
  rw [find, wp_bind, wp_onLists]
  refine wp_mono (wp_llMakeIterator h hb) ?_ fun _ _ hE => hE
  rintro iter lists ⟨rfl, rfl⟩
  rw [wp_bind, wp_onLists]
  refine wp_numElementsInLinkedList (h.mono (Nat.le_succ _) rfl rfl) hb ?_
  rw [if_neg fun hne => Bool.false_ne_true (hroom.symm.trans hne.2)]
  exact ⟨rfl, rfl⟩

end

/-! ## What is in a table -/

/-- The chains of a table with these buckets: each slot sits in the bucket of its key, with
    an entry of its own, and no key occurs twice. -/
structure Chained (m : Memory ν) (c : ℕ → Option (List (ℕ × ℕ))) (numBuckets : UInt64)
    (buckets : List ℕ) (chains : List (List (Slot ν))) : Prop where
  lists : Represents m.lists c
  cells : ∀ (i b : ℕ) (chain : List (Slot ν)), buckets[i]? = some b → chains[i]? = some chain →
    c b = some (chain.map Slot.cell)
  length : buckets.length = numBuckets.toNat ∧ chains.length = numBuckets.toNat
  nodup : buckets.Nodup
  entries : ∀ s ∈ chains.flatten, m.entries s.entry = some s.kv ∧ s.entry < m.lists.next
  distinct : (chains.flatten.map Slot.entry).Nodup
  keys : (chains.flatten.map fun s => s.kv.key).Nodup
  bucket : ∀ (i : ℕ) (chain : List (Slot ν)), chains[i]? = some chain →
    ∀ s ∈ chain, (s.kv.key % numBuckets).toNat = i

/-- The map of what is in the slots. -/
def Maps (l : List (Slot ν)) (f : UInt64 → Option ν) : Prop :=
  ∀ k v, f k = some v ↔ ∃ s ∈ l, s.kv = ⟨k, v⟩

section

variable {m m' : Memory ν} {c : ℕ → Option (List (ℕ × ℕ))} {numBuckets : UInt64}
  {buckets : List ℕ} {chains : List (List (Slot ν))} {chain q : List (Slot ν)} {i b : ℕ}
  {f : UInt64 → Option ν}

namespace Chained

/-- A chain is changed, without changing the others. -/
theorem set (h : Chained m c numBuckets buckets chains) (hb : buckets[i]? = some b)
    (hchain : chains[i]? = some chain)
    (hlists : Represents m'.lists (Function.update c b (some (q.map Slot.cell))))
    (hentries : ∀ s ∈ q ++ (chains.set i []).flatten,
      m'.entries s.entry = some s.kv ∧ s.entry < m'.lists.next)
    (hdistinct : ((q ++ (chains.set i []).flatten).map Slot.entry).Nodup)
    (hkeys : ((q ++ (chains.set i []).flatten).map fun s => s.kv.key).Nodup)
    (hbucket : ∀ s ∈ q, (s.kv.key % numBuckets).toNat = i) :
    Chained m' (Function.update c b (some (q.map Slot.cell))) numBuckets buckets
      (chains.set i q) := by
  obtain ⟨hi, -⟩ := List.getElem?_eq_some_iff.1 hchain
  have hperm := flatten_set_perm_append hi q
  refine ⟨hlists, ?_, ?_, h.nodup, ?_, ?_, ?_, ?_⟩
  · intro j b' r hb' hr
    by_cases hj : j = i
    · subst hj
      rw [List.getElem?_set_self hi] at hr
      obtain rfl := Option.some.inj hr
      obtain rfl := Option.some.inj (hb.symm.trans hb')
      exact Function.update_self ..
    · rw [List.getElem?_set_ne (Ne.symm hj)] at hr
      have hne : b' ≠ b := by
        rintro rfl
        exact hj ((List.getElem?_inj (List.getElem?_eq_some_iff.1 hb').1 h.nodup).1
          (hb'.trans hb.symm))
      rw [Function.update_of_ne hne]
      exact h.cells j b' r hb' hr
  · rw [List.length_set]
    exact h.length
  · exact fun s hs => hentries s (hperm.mem_iff.1 hs)
  · exact (hperm.map _).nodup_iff.2 hdistinct
  · exact (hperm.map _).nodup_iff.2 hkeys
  · intro j r hr
    by_cases hj : j = i
    · subst hj
      rw [List.getElem?_set_self hi] at hr
      obtain rfl := Option.some.inj hr
      exact hbucket
    · rw [List.getElem?_set_ne (Ne.symm hj)] at hr
      exact h.bucket j r hr

/-- A slot with a key of this bucket is in its chain. -/
theorem mem_chain (h : Chained m c numBuckets buckets chains) (hchain : chains[i]? = some chain)
    {s : Slot ν} (hs : s ∈ chains.flatten) (hkey : (s.kv.key % numBuckets).toNat = i) :
    s ∈ chain := by
  obtain ⟨r, hr, hs⟩ := List.mem_flatten.1 hs
  obtain ⟨j, hj⟩ := List.getElem?_of_mem hr
  obtain rfl := (h.bucket j r hj s hs).symm.trans hkey
  obtain rfl := Option.some.inj (hj.symm.trans hchain)
  exact hs

/-- A new slot at the head of a chain. -/
theorem push (h : Chained m c numBuckets buckets chains) (hb : buckets[i]? = some b)
    (hchain : chains[i]? = some chain) {s : Slot ν} (hbucket : (s.kv.key % numBuckets).toNat = i)
    (habsent : ∀ r ∈ chain, r.kv.key ≠ s.kv.key) (hfresh : m.lists.next ≤ s.entry)
    (hlt : s.entry < m'.lists.next)
    (hentries : m'.entries = Function.update m.entries s.entry (some s.kv))
    (hlists : Represents m'.lists (Function.update c b (some ((s :: chain).map Slot.cell)))) :
    Chained m' (Function.update c b (some ((s :: chain).map Slot.cell))) numBuckets buckets
      (chains.set i (s :: chain)) := by
  have hperm := flatten_perm_append hchain
  have hold : ∀ r ∈ chain ++ (chains.set i []).flatten, r.entry ≠ s.entry := by
    intro r hr hrs
    exact (h.entries r (hperm.mem_iff.2 hr)).2.not_ge (hrs ▸ hfresh)
  have hkey : ∀ r ∈ chain ++ (chains.set i []).flatten, r.kv.key ≠ s.kv.key := by
    intro r hr hrs
    exact habsent r (h.mem_chain hchain (hperm.mem_iff.2 hr) (hrs ▸ hbucket)) hrs
  refine h.set hb hchain hlists ?_ ?_ ?_ ?_
  · intro r hr
    rcases List.mem_cons.1 hr with rfl | hr
    · exact ⟨by rw [hentries, Function.update_self], hlt⟩
    · obtain ⟨hentry, hlt'⟩ := h.entries r (hperm.mem_iff.2 hr)
      exact ⟨by rw [hentries, Function.update_of_ne (hold r hr), hentry],
        hlt'.trans_le (hfresh.trans hlt.le)⟩
  · rw [List.cons_append, List.map_cons, List.nodup_cons]
    refine ⟨fun hmem => ?_, (hperm.map _).nodup_iff.1 h.distinct⟩
    obtain ⟨r, hr, hrs⟩ := List.mem_map.1 hmem
    exact hold r hr hrs
  · rw [List.cons_append, List.map_cons, List.nodup_cons]
    refine ⟨fun hmem => ?_, (hperm.map _).nodup_iff.1 h.keys⟩
    obtain ⟨r, hr, hrs⟩ := List.mem_map.1 hmem
    exact hkey r hr hrs
  · intro r hr
    rcases List.mem_cons.1 hr with rfl | hr
    · exact hbucket
    · exact h.bucket i chain hchain r hr

/-- The slots but for one, which is found in a chain. -/
theorem split (h : Chained m c numBuckets buckets chains) {l₁ l₂ : List (Slot ν)} {s : Slot ν}
    (hchain : chains[i]? = some (l₁ ++ s :: l₂)) :
    chains.flatten.Perm (s :: (l₁ ++ l₂ ++ (chains.set i []).flatten)) ∧
      ∀ r ∈ l₁ ++ l₂ ++ (chains.set i []).flatten,
        r.entry ≠ s.entry ∧ r.kv.key ≠ s.kv.key := by
  have hperm : chains.flatten.Perm (s :: (l₁ ++ l₂ ++ (chains.set i []).flatten)) := by
    refine (flatten_perm_append hchain).trans ?_
    rw [List.append_assoc, List.cons_append, List.append_assoc]
    exact List.perm_middle
  refine ⟨hperm, fun r hr => ⟨fun hrs => ?_, fun hrs => ?_⟩⟩
  · have hnodup := (hperm.map _).nodup_iff.1 h.distinct
    exact (List.nodup_cons.1 hnodup).1 (List.mem_map.2 ⟨r, hr, hrs⟩)
  · have hnodup := (hperm.map _).nodup_iff.1 h.keys
    exact (List.nodup_cons.1 hnodup).1 (List.mem_map.2 ⟨r, hr, hrs⟩)

/-- The slot of a key is removed. -/
theorem remove (h : Chained m c numBuckets buckets chains) (hb : buckets[i]? = some b)
    {l₁ l₂ : List (Slot ν)} {s : Slot ν} (hchain : chains[i]? = some (l₁ ++ s :: l₂))
    (hnext : m.lists.next ≤ m'.lists.next)
    (hentries : m'.entries = Function.update m.entries s.entry none)
    (hlists : Represents m'.lists (Function.update c b (some ((l₁ ++ l₂).map Slot.cell)))) :
    Chained m' (Function.update c b (some ((l₁ ++ l₂).map Slot.cell))) numBuckets buckets
      (chains.set i (l₁ ++ l₂)) := by
  obtain ⟨hperm, hother⟩ := h.split hchain
  refine h.set hb hchain hlists ?_ ?_ ?_ ?_
  · intro r hr
    obtain ⟨hentry, hlt⟩ := h.entries r (hperm.mem_iff.2 (List.mem_cons_of_mem _ hr))
    exact ⟨by rw [hentries, Function.update_of_ne (hother r hr).1, hentry], hlt.trans_le hnext⟩
  · exact (List.nodup_cons.1 ((hperm.map _).nodup_iff.1 h.distinct)).2
  · exact (List.nodup_cons.1 ((hperm.map _).nodup_iff.1 h.keys)).2
  · intro r hr
    refine h.bucket i _ hchain r ?_
    rcases List.mem_append.1 hr with hr | hr
    · exact List.mem_append_left _ hr
    · exact List.mem_append_right _ (List.mem_cons_of_mem _ hr)

/-- The value in a slot is replaced. -/
theorem replace (h : Chained m c numBuckets buckets chains) (hb : buckets[i]? = some b)
    {l₁ l₂ : List (Slot ν)} {s : Slot ν} (hchain : chains[i]? = some (l₁ ++ s :: l₂)) {v : ν}
    (hnext : m.lists.next ≤ m'.lists.next)
    (hentries : m'.entries = Function.update m.entries s.entry (some { s.kv with value := v }))
    (hlists : Represents m'.lists c) :
    Chained m' c numBuckets buckets
      (chains.set i (l₁ ++ { s with kv := { s.kv with value := v } } :: l₂)) := by
  obtain ⟨hperm, hother⟩ := h.split hchain
  set s' : Slot ν := { s with kv := { s.kv with value := v } }
  have hcells : Function.update c b (some ((l₁ ++ s' :: l₂).map Slot.cell)) = c := by
    have hc := h.cells i b _ hb hchain
    rw [List.map_append, List.map_cons] at hc ⊢
    exact (congrArg (Function.update c b) hc.symm).trans (Function.update_eq_self b c)
  have hmiddle : (l₁ ++ s' :: l₂ ++ (chains.set i []).flatten).Perm
      (s' :: (l₁ ++ l₂ ++ (chains.set i []).flatten)) := by
    rw [List.append_assoc, List.cons_append, List.append_assoc]
    exact List.perm_middle
  rw [← hcells] at hlists ⊢
  refine h.set hb hchain hlists ?_ ?_ ?_ ?_
  · intro r hr
    rcases List.mem_cons.1 (hmiddle.mem_iff.1 hr) with rfl | hr
    · refine ⟨by rw [hentries]; exact Function.update_self .., ?_⟩
      exact (h.entries s (hperm.mem_iff.2 List.mem_cons_self)).2.trans_le hnext
    · obtain ⟨hentry, hlt⟩ := h.entries r (hperm.mem_iff.2 (List.mem_cons_of_mem _ hr))
      exact ⟨by rw [hentries, Function.update_of_ne (hother r hr).1, hentry], hlt.trans_le hnext⟩
  · exact (hmiddle.map _).nodup_iff.2 ((hperm.map _).nodup_iff.1 h.distinct)
  · exact (hmiddle.map _).nodup_iff.2 ((hperm.map _).nodup_iff.1 h.keys)
  · intro r hr
    rcases List.mem_append.1 hr with hr | hr
    · exact h.bucket i _ hchain r (List.mem_append_left _ hr)
    · rcases List.mem_cons.1 hr with rfl | hr
      · exact h.bucket i _ hchain s (List.mem_append_right _ List.mem_cons_self)
      · exact h.bucket i _ hchain r (List.mem_append_right _ (List.mem_cons_of_mem _ hr))

end Chained

namespace Maps

variable {l l' : List (Slot ν)} {s : Slot ν}

theorem perm (h : Maps l f) (hperm : l.Perm l') : Maps l' f := by
  intro k v
  rw [h k v]
  simp only [hperm.mem_iff]

theorem eq_none (h : Maps l f) {k : UInt64} (habsent : ∀ s ∈ l, s.kv.key ≠ k) : f k = none := by
  cases hk : f k with
  | none => rfl
  | some v =>
    obtain ⟨s, hs, hkv⟩ := (h k v).1 hk
    exact absurd (congrArg HTKeyValue.key hkv) (habsent s hs)

theorem eq_some (h : Maps l f) (hs : s ∈ l) : f s.kv.key = some s.kv.value :=
  (h _ _).2 ⟨s, hs, rfl⟩

theorem cons (h : Maps l f) (habsent : ∀ r ∈ l, r.kv.key ≠ s.kv.key) :
    Maps (s :: l) (Function.update f s.kv.key (some s.kv.value)) := by
  intro k v
  by_cases hk : k = s.kv.key
  · subst hk
    rw [Function.update_self]
    constructor
    · intro hv
      obtain rfl := Option.some.inj hv
      exact ⟨s, List.mem_cons_self, rfl⟩
    · rintro ⟨r, hr, hkv⟩
      rcases List.mem_cons.1 hr with rfl | hr
      · rw [hkv]
      · exact absurd (congrArg HTKeyValue.key hkv) (habsent r hr)
  · rw [Function.update_of_ne hk, h k v]
    constructor
    · rintro ⟨r, hr, hkv⟩
      exact ⟨r, List.mem_cons_of_mem _ hr, hkv⟩
    · rintro ⟨r, hr, hkv⟩
      rcases List.mem_cons.1 hr with rfl | hr
      · exact absurd (congrArg HTKeyValue.key hkv).symm hk
      · exact ⟨r, hr, hkv⟩

theorem tail (h : Maps (s :: l) f) (habsent : ∀ r ∈ l, r.kv.key ≠ s.kv.key) :
    Maps l (Function.update f s.kv.key none) := by
  intro k v
  by_cases hk : k = s.kv.key
  · subst hk
    rw [Function.update_self]
    constructor
    · intro hv
      cases hv
    · rintro ⟨r, hr, hkv⟩
      exact absurd (congrArg HTKeyValue.key hkv) (habsent r hr)
  · rw [Function.update_of_ne hk, h k v]
    constructor
    · rintro ⟨r, hr, hkv⟩
      rcases List.mem_cons.1 hr with rfl | hr
      · exact absurd (congrArg HTKeyValue.key hkv).symm hk
      · exact ⟨r, hr, hkv⟩
    · rintro ⟨r, hr, hkv⟩
      exact ⟨r, List.mem_cons_of_mem _ hr, hkv⟩

end Maps

end

end Cse461.Table.HashTable
