import Cse461.Table.HashTable

/-!
# A table among others

What the calls on one table do to its chains, and that they leave alone what belongs to
no table or another one, whatever allocations fail.

* `Stored` says that there is a table with some chains, `Left` that a call leaves it with
  others.
* `Removed`, `LookedUp` and `Inserted` say what the calls return, and what the chains are
  after them. An insert that finds no room for the new entry or its node is one of them
  (`Inserted.full`): the number of elements is incremented all the same.
-/

namespace Cse461.Table.HashTable

open Library LinkedList

variable {ν : Type}

/-! ## Tables -/

/-- The entries that the chains own. -/
def entriesOf (chains : List (List (Slot ν))) : List ℕ := chains.flatten.map Slot.entry

/-- There is a table at `ht`, with these chains. -/
structure Stored (m : Memory ν) (ht : ℕ) (t : HashTableRecord) (c : ℕ → Option (List (ℕ × ℕ)))
    (chains : List (List (Slot ν))) : Prop where
  table : m.tables ht = some t
  below : ht < m.lists.next
  chained : Chained m c t.numBuckets t.buckets chains
  pos : 0 < t.numBuckets.toNat
  lt : t.numBuckets.toNat < 2 ^ 32

/-- A call on the table at `ht`, with the lists `B` and the entries `P`, leaves alone what is
    elsewhere; after it, the table has the lists `B'` and the entries `P'`. -/
structure Stays (ht : ℕ) (B P : List ℕ) (m m' : Memory ν) (c c' : ℕ → Option (List (ℕ × ℕ)))
    (B' P' : List ℕ) : Prop where
  lists : ∀ b < m.lists.next, b ∉ B → c' b = c b
  entries : ∀ p < m.lists.next, p ∉ P → m'.entries p = m.entries p
  tables : ∀ h < m.lists.next, h ≠ ht → m'.tables h = m.tables h
  buckets : ∀ b ∈ B', b ∈ B ∨ m.lists.next ≤ b
  owned : ∀ p ∈ P', p ∈ P ∨ m.lists.next ≤ p
  room : m'.lists.room = m.lists.room
  next : m.lists.next ≤ m'.lists.next

/-- A call on the table at `ht` leaves it with these chains, and what is elsewhere alone. -/
structure Left (m : Memory ν) (ht : ℕ) (t : HashTableRecord) (c : ℕ → Option (List (ℕ × ℕ)))
    (chains : List (List (Slot ν))) (m' : Memory ν) (t' : HashTableRecord)
    (c' : ℕ → Option (List (ℕ × ℕ))) (chains' : List (List (Slot ν))) : Prop where
  stored : Stored m' ht t' c' chains'
  stays : Stays ht t.buckets (entriesOf chains) m m' c c' t'.buckets (entriesOf chains')

/-- What was there is left alone. -/
structure Quiet (m m' : Memory ν) (c c' : ℕ → Option (List (ℕ × ℕ))) : Prop where
  lists : ∀ b < m.lists.next, c' b = c b
  entries : ∀ p < m.lists.next, m'.entries p = m.entries p
  tables : ∀ h < m.lists.next, m'.tables h = m.tables h
  room : m'.lists.room = m.lists.room
  next : m.lists.next ≤ m'.lists.next

section

variable {m m' m'' : Memory ν} {ht : ℕ} {t t' t'' : HashTableRecord}
  {c c' c'' : ℕ → Option (List (ℕ × ℕ))} {chains chains' chains'' : List (List (Slot ν))}
  {E : Stop → Memory ν → Prop}

/-- Chains are kept where nothing is changed. -/
theorem Chained.congr {numBuckets : UInt64} {buckets : List ℕ}
    (h : Chained m c numBuckets buckets chains) (hlists : Represents m'.lists c')
    (hc : ∀ b ∈ buckets, c' b = c b) (hnext : m.lists.next ≤ m'.lists.next)
    (hentries : ∀ p ∈ entriesOf chains, m'.entries p = m.entries p) :
    Chained m' c' numBuckets buckets chains where
  lists := hlists
  cells i b chain hb hchain := (hc b (List.mem_of_getElem? hb)).trans (h.cells i b chain hb hchain)
  length := h.length
  nodup := h.nodup
  entries s hs := by
    rw [hentries s.entry (List.mem_map_of_mem hs)]
    exact ⟨(h.entries s hs).1, (h.entries s hs).2.trans_le hnext⟩
  distinct := h.distinct
  keys := h.keys
  bucket := h.bucket

theorem Chained.entry_lt {numBuckets : UInt64} {buckets : List ℕ}
    (h : Chained m c numBuckets buckets chains) {p : ℕ} (hp : p ∈ entriesOf chains) :
    p < m.lists.next := by
  obtain ⟨s, hs, rfl⟩ := List.mem_map.1 hp
  exact (h.entries s hs).2

theorem Chained.bucket_lt {numBuckets : UInt64} {buckets : List ℕ}
    (h : Chained m c numBuckets buckets chains) {b : ℕ} (hb : b ∈ buckets) : b < m.lists.next := by
  obtain ⟨i, hi⟩ := List.getElem?_of_mem hb
  have hlt : i < chains.length := by
    rw [h.length.2, ← h.length.1]
    exact (List.getElem?_eq_some_iff.1 hi).1
  exact (h.lists.lt b _ (h.cells i b _ hi (List.getElem?_eq_getElem hlt))).1

/-- An entry, after a chain was changed, is one of the new chain or was there before. -/
theorem mem_entriesOf_set {i p : ℕ} {chain q : List (Slot ν)} (hchain : chains[i]? = some chain)
    (hp : p ∈ entriesOf (chains.set i q)) : p ∈ q.map Slot.entry ∨ p ∈ entriesOf chains := by
  obtain ⟨r, hr, rfl⟩ := List.mem_map.1 hp
  have hset := flatten_set_perm_append (List.getElem?_eq_some_iff.1 hchain).1 q
  rcases List.mem_append.1 (hset.mem_iff.1 hr) with hr | hr
  · exact .inl (List.mem_map_of_mem hr)
  · refine .inr (List.mem_map_of_mem ((flatten_perm_append hchain).mem_iff.2 ?_))
    exact List.mem_append_right _ hr

theorem mem_entriesOf {i : ℕ} {chain : List (Slot ν)} {s : Slot ν} (hchain : chains[i]? = some chain)
    (hs : s ∈ chain) : s.entry ∈ entriesOf chains :=
  List.mem_map_of_mem (List.mem_flatten.2 ⟨chain, List.mem_of_getElem? hchain, hs⟩)

theorem Stays.refl (ht : ℕ) (B P : List ℕ) (m : Memory ν) (c : ℕ → Option (List (ℕ × ℕ))) :
    Stays ht B P m m c c B P where
  lists _ _ _ := rfl
  entries _ _ _ := rfl
  tables _ _ _ := rfl
  buckets _ hb := .inl hb
  owned _ hp := .inl hp
  room := rfl
  next := le_rfl

theorem Stays.trans {B P B' P' B'' P'' : List ℕ} (h : Stays ht B P m m' c c' B' P')
    (h' : Stays ht B' P' m' m'' c' c'' B'' P'') : Stays ht B P m m'' c c'' B'' P'' where
  lists b hb hB := by
    refine (h'.lists b (hb.trans_le h.next) fun hB' => ?_).trans (h.lists b hb hB)
    exact (h.buckets b hB').elim hB fun hle => hb.not_ge hle
  entries p hp hP := by
    refine (h'.entries p (hp.trans_le h.next) fun hP' => ?_).trans (h.entries p hp hP)
    exact (h.owned p hP').elim hP fun hle => hp.not_ge hle
  tables k hk hne := (h'.tables k (hk.trans_le h.next) hne).trans (h.tables k hk hne)
  buckets b hb := (h'.buckets b hb).elim (h.buckets b) fun hle => .inr (h.next.trans hle)
  owned p hp := (h'.owned p hp).elim (h.owned p) fun hle => .inr (h.next.trans hle)
  room := h'.room.trans h.room
  next := h.next.trans h'.next

theorem Left.trans (h : Left m ht t c chains m' t' c' chains')
    (h' : Left m' ht t' c' chains' m'' t'' c'' chains'') :
    Left m ht t c chains m'' t'' c'' chains'' :=
  ⟨h'.stored, h.stays.trans h'.stays⟩

/-- A table is kept where what was there is left alone. -/
theorem Stored.quiet (h : Stored m ht t c chains) (hquiet : Quiet m m' c c')
    (hlists : Represents m'.lists c') : Left m ht t c chains m' t c' chains where
  stored := by
    refine ⟨(hquiet.tables ht h.below).trans h.table, h.below.trans_le hquiet.next, ?_, h.pos, h.lt⟩
    exact h.chained.congr hlists (fun b hb => hquiet.lists b (h.chained.bucket_lt hb)) hquiet.next
      fun p hp => hquiet.entries p (h.chained.entry_lt hp)
  stays := ⟨fun b hb _ => hquiet.lists b hb, fun p hp _ => hquiet.entries p hp,
    fun k hk _ => hquiet.tables k hk, fun _ hb => .inl hb, fun _ hp => .inl hp, hquiet.room,
    hquiet.next⟩

/-- A call on a table that was not there leaves alone what was. -/
theorem Quiet.trans_stays {B P B' P' : List ℕ} (h : Quiet m m' c c')
    (hstays : Stays ht B P m' m'' c' c'' B' P') (hht : m.lists.next ≤ ht)
    (hB : ∀ b ∈ B, m.lists.next ≤ b) (hP : ∀ p ∈ P, m.lists.next ≤ p) : Quiet m m'' c c'' where
  lists b hb := (hstays.lists b (hb.trans_le h.next) fun hmem => hb.not_ge (hB b hmem)).trans
    (h.lists b hb)
  entries p hp := (hstays.entries p (hp.trans_le h.next) fun hmem => hp.not_ge (hP p hmem)).trans
    (h.entries p hp)
  tables k hk := (hstays.tables k (hk.trans_le h.next) (hk.trans_le hht).ne).trans (h.tables k hk)
  room := hstays.room.trans h.room
  next := h.next.trans hstays.next

/-- The record of the table is written, and nothing else. -/
theorem Stored.setTable (h : Stored m ht t c chains) (hlists : Represents m'.lists c)
    (htables : m'.tables = Function.update m.tables ht (some t'))
    (hentries : m'.entries = m.entries) (hroom : m'.lists.room = m.lists.room)
    (hnext : m.lists.next ≤ m'.lists.next) (hbuckets : t'.buckets = t.buckets)
    (hnumBuckets : t'.numBuckets = t.numBuckets) : Left m ht t c chains m' t' c chains := by
  refine ⟨⟨?_, h.below.trans_le hnext, ?_, ?_, ?_⟩, ?_⟩
  · rw [htables, Function.update_self]
  · rw [hbuckets, hnumBuckets]
    exact h.chained.congr hlists (fun _ _ => rfl) hnext fun p _ => congrFun hentries p
  · rw [hnumBuckets]
    exact h.pos
  · rw [hnumBuckets]
    exact h.lt
  · rw [hbuckets]
    refine ⟨fun _ _ _ => rfl, fun p _ _ => congrFun hentries p, fun k _ hk => ?_,
      fun _ hb => .inl hb, fun _ hp => .inl hp, hroom, hnext⟩
    rw [htables, Function.update_of_ne hk]

/-- One chain is changed, with the record of the table. -/
theorem Stored.setChain (h : Stored m ht t c chains) {i b : ℕ} {x : Option (List (ℕ × ℕ))}
    (hb : t.buckets[i]? = some b)
    (hchained : Chained m' (Function.update c b x) t.numBuckets t.buckets chains')
    (htables : m'.tables = Function.update m.tables ht (some t'))
    (hentries : ∀ p < m.lists.next, p ∉ entriesOf chains → m'.entries p = m.entries p)
    (howned : ∀ p ∈ entriesOf chains', p ∈ entriesOf chains ∨ m.lists.next ≤ p)
    (hroom : m'.lists.room = m.lists.room) (hnext : m.lists.next ≤ m'.lists.next)
    (hbuckets : t'.buckets = t.buckets) (hnumBuckets : t'.numBuckets = t.numBuckets) :
    Left m ht t c chains m' t' (Function.update c b x) chains' := by
  refine ⟨⟨?_, h.below.trans_le hnext, ?_, ?_, ?_⟩, ?_⟩
  · rw [htables, Function.update_self]
  · rw [hbuckets, hnumBuckets]
    exact hchained
  · rw [hnumBuckets]
    exact h.pos
  · rw [hnumBuckets]
    exact h.lt
  · rw [hbuckets]
    refine ⟨fun b' _ hb' => ?_, hentries, fun k _ hk => ?_, fun _ hb => .inl hb, howned, hroom,
      hnext⟩
    · refine Function.update_of_ne ?_ _ _
      rintro rfl
      exact hb' (List.mem_of_getElem? hb)
    · rw [htables, Function.update_of_ne hk]

/-- The chain of a key. -/
theorem Stored.chain (h : Stored m ht t c chains) (key : UInt64) :
    ∃ b chain, t.buckets[(hashKeyToBucketNum t key).toNat]? = some b ∧
      chains[(hashKeyToBucketNum t key).toNat]? = some chain ∧
      c b = some (chain.map Slot.cell) ∧
      (∀ s ∈ chain, m.entries s.entry = some s.kv) ∧
      ((∀ s ∈ chain, s.kv.key ≠ key) → ∀ s ∈ chains.flatten, s.kv.key ≠ key) := by
  have hlt : (hashKeyToBucketNum t key).toNat < t.numBuckets.toNat := by
    rw [hashKeyToBucketNum, UInt64.toNat_mod]
    exact Nat.mod_lt _ h.pos
  have hb : (hashKeyToBucketNum t key).toNat < t.buckets.length := h.chained.length.1 ▸ hlt
  have hchain : (hashKeyToBucketNum t key).toNat < chains.length := h.chained.length.2 ▸ hlt
  refine ⟨_, _, List.getElem?_eq_getElem hb, List.getElem?_eq_getElem hchain,
    h.chained.cells _ _ _ (List.getElem?_eq_getElem hb) (List.getElem?_eq_getElem hchain), ?_, ?_⟩
  · intro s hs
    exact (h.chained.entries s (List.mem_flatten.2 ⟨_, List.getElem_mem hchain, hs⟩)).1
  · rintro habsent s hs rfl
    exact habsent s (h.chained.mem_chain (List.getElem?_eq_getElem hchain) hs rfl) rfl

/-! ## What the calls do to the chains -/

theorem wp_waitWrt {Q : Unit → Memory ν → Prop} (h : m.tables ht = some t) (hwrt : 0 < t.wrt)
    (hQ : Q () { m with tables := Function.update m.tables ht (some { t with wrt := t.wrt - 1 }) }) :
    wp (waitWrt ht) Q E m := by
  rw [waitWrt, wp_bind]
  refine wp_tableAt h ?_
  rw [if_neg hwrt.ne']
  exact wp_setTable h hQ

theorem wp_waitMutex {Q : Unit → Memory ν → Prop} (h : m.tables ht = some t)
    (hmutex : 0 < t.mutex)
    (hQ : Q () { m with
      tables := Function.update m.tables ht (some { t with mutex := t.mutex - 1 }) }) :
    wp (waitMutex ht) Q E m := by
  rw [waitMutex, wp_bind]
  refine wp_tableAt h ?_
  rw [if_neg hmutex.ne']
  exact wp_setTable h hQ

theorem wp_chainAt {i b : ℕ} {Q : ℕ → Memory ν → Prop} (h : t.buckets[i]? = some b)
    (hQ : Q b m) : wp (chainAt t i) Q E m := by
  simpa [chainAt, h] using hQ

/-- What `find` returns: an error if there is no room for the iterator, and else what there is
    in the chain. -/
theorem wp_find_or {b : ℕ} {chain : List (Slot ν)} {targetKey : UInt64} {remove : Bool}
    (h : Represents m.lists c) (hb : c b = some (chain.map Slot.cell))
    (hentries : ∀ s ∈ chain, m.entries s.entry = some s.kv) :
    wp (find b targetKey remove) (fun r m' => Kept m m' ∧
      m'.lists.next = m.lists.next + (if chain = [] then 0 else 1) ∧
      ((chain ≠ [] ∧ m.lists.room m.lists.next = false ∧ r = (-1, none, none) ∧
        m'.entries = m.entries ∧ Represents m'.lists c) ∨
      (chain ≠ [] → m.lists.room m.lists.next = true) ∧
        Found c b chain targetKey remove m m' r)) E m := by
  by_cases hroom : chain ≠ [] → m.lists.room m.lists.next = true
  · refine wp_mono (wp_find h hb hentries hroom) ?_ fun _ _ hE => hE
    rintro r m' ⟨hkept, hnext, hfound⟩
    exact ⟨hkept, hnext, .inr ⟨hroom, hfound⟩⟩
  · rw [Classical.not_imp, Bool.not_eq_true] at hroom
    refine wp_mono (wp_find_outOfMemory h hb hroom.1 hroom.2) ?_ fun _ _ hE => hE
    rintro r m' ⟨rfl, rfl⟩
    refine ⟨⟨rfl, rfl, Nat.le_succ _⟩, by rw [if_neg hroom.1], .inl ⟨hroom.1, hroom.2, rfl, rfl, ?_⟩⟩
    exact h.mono (Nat.le_succ _) rfl rfl

/-- What a call returns. -/
abbrev Result (ν : Type) := ℤ × Option (HTKeyValue ν)

/-- What `RemoveFromHashTable` makes of the chains. -/
inductive Removed (room : ℕ → Bool) (key : UInt64) (t : HashTableRecord)
    (chains : List (List (Slot ν))) :
    Result ν → HashTableRecord → List (List (Slot ν)) → Prop
  | failed {a : ℕ} : room a = false → Removed room key t chains (-1, none) t chains
  | absent : (∀ s ∈ chains.flatten, s.kv.key ≠ key) →
      Removed room key t chains (0, none) t chains
  | removed {l₁ l₂ : List (Slot ν)} {s : Slot ν} :
      chains[(hashKeyToBucketNum t key).toNat]? = some (l₁ ++ s :: l₂) → s.kv.key = key →
      Removed room key t chains (1, some s.kv) { t with numElements := t.numElements - 1 }
        (chains.set (hashKeyToBucketNum t key).toNat (l₁ ++ l₂))

theorem wp_removeFromHashTable (h : Stored m ht t c chains) (hwrt : 0 < t.wrt) (key : UInt64) :
    wp (removeFromHashTable ht key) (fun r m' => (∃ t' c' chains',
      Left m ht t c chains m' t' c' chains' ∧ Removed m.lists.room key t chains r t' chains') ∧
      ∃ chain, chains[(hashKeyToBucketNum t key).toNat]? = some chain ∧
        m'.lists.next = m.lists.next + (if chain = [] then 0 else 1) ∧
        (r.1 = -1 ↔ chain ≠ [] ∧ m.lists.room m.lists.next = false)) E m := by
  obtain ⟨b, chain, hb, hchain, hcells, hentries, habsent⟩ := h.chain key
  have hback : t.wrt - 1 + 1 = t.wrt := Nat.sub_add_cancel hwrt
  rw [removeFromHashTable, wp_bind]
  refine wp_waitWrt h.table hwrt ?_
  rw [wp_bind]
  refine wp_tableAt (Function.update_self ..) ?_
  rw [wp_bind]
  refine wp_chainAt hb ?_
  rw [wp_bind]
  refine wp_mono (wp_find_or h.chained.lists hcells hentries) ?_ fun _ _ hE => hE
  rintro r m' ⟨hkept, hnext, hr⟩
  have htable : m'.tables ht = some { t with wrt := t.wrt - 1 } := by
    rw [hkept.tables]
    exact Function.update_self ..
  have htables : ∀ t', Function.update m'.tables ht (some t') =
      Function.update m.tables ht (some t') := by
    intro t'
    rw [hkept.tables]
    exact Function.update_idem ..
  rcases hr with ⟨hne, hroom, rfl, hentries', hlists⟩ | ⟨hroom, hfound⟩
  · dsimp only
    rw [if_neg (by decide), wp_bind, postWrt]
    refine wp_setTable htable ⟨⟨t, c, chains, h.setTable hlists ?_ hentries' hkept.room hkept.next
      rfl rfl, .failed hroom⟩, chain, hchain, hnext, fun _ => ⟨hne, hroom⟩, fun _ => rfl⟩
    dsimp only
    rw [hback, htables]
  · have hiff : ∀ {r : ℤ}, r ≠ -1 → (r = -1 ↔ chain ≠ [] ∧ m.lists.room m.lists.next = false) := by
      refine fun hr => ⟨fun h => absurd h hr, fun ⟨hne, hfull⟩ => ?_⟩
      exact absurd ((hroom hne).symm.trans hfull) (by decide)
    have hzero : (0 : ℤ) ≠ -1 := by decide
    have hone : (1 : ℤ) ≠ -1 := by decide
    cases hfound with
    | absent hnone hentries' hlists =>
      dsimp only
      rw [if_neg (by decide), wp_bind, postWrt]
      refine wp_setTable htable ⟨⟨t, c, chains, h.setTable hlists ?_ hentries' hkept.room hkept.next
        rfl rfl, .absent (habsent hnone)⟩, chain, hchain, hnext, hiff hzero⟩
      dsimp only
      rw [hback, htables]
    | @removed l₁ l₂ s hremove hl hkey hentries' hlists =>
      subst hl
      have hmem : s ∈ chains.flatten := (h.chained.split hchain).1.mem_iff.2 List.mem_cons_self
      have hchained : Chained m' _ t.numBuckets t.buckets _ :=
        h.chained.remove hb hchain hkept.next hentries' hlists
      dsimp only
      rw [if_pos rfl, wp_bind]
      refine wp_setTable htable ?_
      rw [wp_bind, postWrt]
      refine wp_setTable (Function.update_self ..) ⟨⟨{ t with numElements := t.numElements - 1 },
        Function.update c b (some ((l₁ ++ l₂).map Slot.cell)), _, h.setChain hb ?_ ?_ ?_ ?_ hkept.room
        hkept.next rfl rfl, .removed hchain hkey⟩, _, hchain, hnext, hiff hone⟩
      · exact hchained.congr hlists (fun _ _ => rfl) le_rfl fun _ _ => rfl
      · dsimp only
        rw [hback, Function.update_idem, htables]
      · intro p _ hp
        refine (congrFun hentries' p).trans (Function.update_of_ne ?_ _ _)
        rintro rfl
        exact hp (List.mem_map_of_mem hmem)
      · intro p hp
        rcases mem_entriesOf_set hchain hp with hp | hp
        · obtain ⟨r, hr, rfl⟩ := List.mem_map.1 hp
          refine .inl (mem_entriesOf hchain ?_)
          rcases List.mem_append.1 hr with hr | hr
          · exact List.mem_append_left _ hr
          · exact List.mem_append_right _ (List.mem_cons_of_mem _ hr)
        · exact .inl hp
    | kept hremove => cases hremove

/-- What `LookupHashTable` returns. -/
inductive LookedUp (room : ℕ → Bool) (key : UInt64) (chains : List (List (Slot ν))) :
    Result ν → Prop
  | failed {a : ℕ} : room a = false → LookedUp room key chains (-1, none)
  | absent : (∀ s ∈ chains.flatten, s.kv.key ≠ key) → LookedUp room key chains (0, none)
  | found {s : Slot ν} : s ∈ chains.flatten → s.kv.key = key →
      LookedUp room key chains (1, some s.kv)

theorem wp_lookupHashTable (h : Stored m ht t c chains) (hwrt : 0 < t.wrt) (hmutex : t.mutex = 1)
    (hreadcount : t.readcount = 0) (key : UInt64) :
    wp (lookupHashTable ht key) (fun r m' => Left m ht t c chains m' t c chains ∧
      LookedUp m.lists.room key chains r) E m := by
  obtain ⟨b, chain, hb, hchain, hcells, hentries, habsent⟩ := h.chain key
  have hone : t.readcount + 1 = 1 := by
    rw [hreadcount]
    rfl
  rw [lookupHashTable, wp_bind]
  refine wp_waitMutex h.table (by rw [hmutex]; decide) ?_
  rw [wp_bind]
  refine wp_setTable (Function.update_self ..) ?_
  rw [wp_bind]
  refine wp_tableAt (Function.update_self ..) ?_
  dsimp only
  rw [if_pos hone, wp_bind]
  refine wp_waitWrt (Function.update_self ..) hwrt ?_
  rw [wp_bind, postMutex]
  refine wp_setTable (Function.update_self ..) ?_
  rw [wp_bind]
  refine wp_tableAt (Function.update_self ..) ?_
  rw [wp_bind]
  refine wp_chainAt hb ?_
  rw [wp_bind]
  refine wp_mono (wp_find_or h.chained.lists hcells hentries) ?_ fun _ _ hE => hE
  rintro r m' ⟨hkept, -, hr⟩
  have htable : m'.tables ht = some { t with
      wrt := t.wrt - 1, mutex := t.mutex - 1 + 1, readcount := t.readcount + 1 } := by
    rw [hkept.tables]
    exact Function.update_self ..
  -- The locks are given back in the same way whether the key was found or not.
  have hunlock : ∀ {ret : ℤ} {keyvalue : Option (HTKeyValue ν)}, m'.entries = m.entries →
      Represents m'.lists c → LookedUp m.lists.room key chains (ret, keyvalue) →
      wp (do
        waitMutex ht
        setTable ht fun t => { t with readcount := t.readcount - 1 }
        if (← tableAt ht).readcount = 0 then
          postWrt ht
        postMutex ht
        return (ret, keyvalue)) (fun r m' => Left m ht t c chains m' t c chains ∧
          LookedUp m.lists.room key chains r) E m' := by
    intro ret keyvalue hentries' hlists hr
    have hzero : t.readcount + 1 - 1 = 0 := by
      rw [hreadcount]
      rfl
    rw [wp_bind]
    refine wp_waitMutex htable (Nat.succ_pos _) ?_
    rw [wp_bind]
    refine wp_setTable (Function.update_self ..) ?_
    rw [wp_bind]
    refine wp_tableAt (Function.update_self ..) ?_
    dsimp only
    rw [if_pos hzero, wp_bind, postWrt]
    refine wp_setTable (Function.update_self ..) ?_
    rw [wp_bind, postMutex]
    refine wp_setTable (Function.update_self ..) ⟨h.setTable hlists ?_ hentries' hkept.room
      hkept.next rfl rfl, hr⟩
    have hsame : { t with
        wrt := t.wrt - 1 + 1, mutex := t.mutex - 1 + 1 - 1 + 1, readcount := 0 } = t := by
      have hsub : t.mutex - 1 + 1 - 1 + 1 = t.mutex := by omega
      rw [Nat.sub_add_cancel hwrt, hsub, ← hreadcount]
    simp only [Function.update_idem]
    rw [hzero, hsame, hkept.tables]
    simp only [Function.update_idem]
  rcases hr with ⟨-, hroom, rfl, hentries', hlists⟩ | ⟨-, hfound⟩
  · exact hunlock hentries' hlists (.failed hroom)
  · cases hfound with
    | absent hnone hentries' hlists => exact hunlock hentries' hlists (.absent (habsent hnone))
    | @kept l₁ l₂ s hremove hl hkey hentries' hlists =>
      subst hl
      refine hunlock hentries' hlists (.found ?_ hkey)
      exact (h.chained.split hchain).1.mem_iff.2 List.mem_cons_self
    | removed hremove => cases hremove

/-- There is room for what an insert into the chain allocates after it incremented the number of
    elements: nothing, if the search found the key or failed, else the entry and its node. -/
def EntryFits (lists : LinkedList.Memory ℕ) (key : UInt64) (chain : List (Slot ν)) : Prop :=
  (∃ s ∈ chain, s.kv.key = key) ∨ (chain ≠ [] ∧ lists.room lists.next = false) ∨
    lists.room (lists.next + if chain = [] then 0 else 1) ∧
      lists.room (lists.next + (if chain = [] then 0 else 1) + 1)

/-- What `InsertHashTable` makes of the chains after the resizing. -/
inductive Inserted (room : ℕ → Bool) (fits : Prop) (kv : HTKeyValue ν) (t : HashTableRecord)
    (chains : List (List (Slot ν))) :
    Result ν → HashTableRecord → List (List (Slot ν)) → Prop
  | failed {a : ℕ} : room a = false → fits →
      Inserted room fits kv t chains (0, none) { t with wrt := t.wrt + 1 } chains
  | full : ¬fits → Inserted room fits kv t chains (0, none)
      { t with wrt := t.wrt + 1, numElements := t.numElements + 1 } chains
  | fresh {chain : List (Slot ν)} {s : Slot ν} : fits →
      chains[(hashKeyToBucketNum t kv.key).toNat]? = some chain →
      (∀ r ∈ chains.flatten, r.kv.key ≠ kv.key) → s.kv = kv →
      Inserted room fits kv t chains (1, none)
        { t with wrt := t.wrt + 1, numElements := t.numElements + 1 }
        (chains.set (hashKeyToBucketNum t kv.key).toNat (s :: chain))
  | replaced {l₁ l₂ : List (Slot ν)} {s : Slot ν} : fits →
      chains[(hashKeyToBucketNum t kv.key).toNat]? = some (l₁ ++ s :: l₂) → s.kv.key = kv.key →
      Inserted room fits kv t chains (2, some s.kv) { t with wrt := t.wrt + 1 }
        (chains.set (hashKeyToBucketNum t kv.key).toNat
          (l₁ ++ { s with kv := { s.kv with value := kv.value } } :: l₂))

/-- The bucket of a key fits into the `uint32_t` that `InsertHashTable` has for it. -/
theorem Stored.toUInt32 (h : Stored m ht t c chains) (key : UInt64) :
    (hashKeyToBucketNum t key).toUInt32.toNat = (hashKeyToBucketNum t key).toNat := by
  rw [UInt64.toNat_toUInt32]
  refine Nat.mod_eq_of_lt (lt_trans ?_ h.lt)
  rw [hashKeyToBucketNum, UInt64.toNat_mod]
  exact Nat.mod_lt _ h.pos

theorem wp_searchChain (h : Stored m ht t c chains) (key : UInt64) :
    wp (searchChain ht key) (fun r m' => Left m ht t c chains m' t c chains ∧
      ∃ b chain, t.buckets[(hashKeyToBucketNum t key).toNat]? = some b ∧
        chains[(hashKeyToBucketNum t key).toNat]? = some chain ∧
        m'.lists.next = m.lists.next + (if chain = [] then 0 else 1) ∧
        (r = (b, -1, none, none) ∧ chain ≠ [] ∧ m.lists.room m.lists.next = false ∨
        r = (b, 0, none, none) ∧ (∀ s ∈ chain, s.kv.key ≠ key) ∧
          (chain ≠ [] → m.lists.room m.lists.next = true) ∨
        ∃ l₁ s l₂, r = (b, 1, some s.kv, some s.entry) ∧ chain = l₁ ++ s :: l₂ ∧
          s.kv.key = key)) E m := by
  obtain ⟨b, chain, hb, hchain, hcells, hentries, -⟩ := h.chain key
  rw [searchChain, wp_bind]
  refine wp_tableAt h.table ?_
  rw [wp_bind, h.toUInt32]
  refine wp_chainAt hb ?_
  rw [wp_bind]
  refine wp_mono (wp_find_or h.chained.lists hcells hentries) ?_ fun _ _ hE => hE
  rintro r m' ⟨hkept, hnext, hr⟩
  have hleft : m'.entries = m.entries → Represents m'.lists c →
      Left m ht t c chains m' t c chains := by
    intro hentries' hlists
    refine h.setTable hlists ?_ hentries' hkept.room hkept.next rfl rfl
    rw [hkept.tables, ← h.table, Function.update_eq_self]
  rcases hr with ⟨hne, hroom, rfl, hentries', hlists⟩ | ⟨hroom, hfound⟩
  · exact ⟨hleft hentries' hlists, b, chain, hb, hchain, hnext, .inl ⟨rfl, hne, hroom⟩⟩
  · cases hfound with
    | absent hnone hentries' hlists =>
      exact ⟨hleft hentries' hlists, b, chain, hb, hchain, hnext, .inr (.inl ⟨rfl, hnone, hroom⟩)⟩
    | kept hremove hl hkey hentries' hlists =>
      exact ⟨hleft hentries' hlists, b, chain, hb, hchain, hnext,
        .inr (.inr ⟨_, _, _, rfl, hl, hkey⟩)⟩
    | removed hremove => cases hremove

/-- A key that is not there yet gets an entry at the head of its chain, if there is room for it
    and its node; the number of elements is incremented in any case. -/
theorem wp_storeEntry_absent (h : Stored m ht t c chains) {kv : HTKeyValue ν} {b : ℕ}
    {chain : List (Slot ν)} {fits : Prop}
    (hb : t.buckets[(hashKeyToBucketNum t kv.key).toNat]? = some b)
    (hchain : chains[(hashKeyToBucketNum t kv.key).toNat]? = some chain)
    (hnone : ∀ s ∈ chain, s.kv.key ≠ kv.key)
    (hfits : fits ↔ m.lists.room m.lists.next ∧ m.lists.room (m.lists.next + 1)) :
    wp (storeEntry ht kv (b, 0, none, none)) (fun r m' => ∃ t' c' chains',
      Left m ht t c chains m' t' c' chains' ∧
      Inserted m.lists.room fits kv t chains r t' chains') E m := by
  have hcells := h.chained.cells _ _ _ hb hchain
  have habsent : ∀ s ∈ chains.flatten, s.kv.key ≠ kv.key := by
    rintro s hs hkey
    exact hnone s (h.chained.mem_chain hchain hs (hkey ▸ rfl)) hkey
  rw [storeEntry, if_neg (by decide), if_pos rfl, wp_bind]
  refine wp_setTable h.table ?_
  rw [wp_bind, wp_onLists]
  refine wp_malloc ?_
  dsimp only
  cases hroom : m.lists.room m.lists.next with
  | false =>
    rw [if_neg Bool.false_ne_true, wp_bind, postWrt]
    refine wp_setTable (Function.update_self ..) ⟨_, c, chains, h.setTable
      (h.chained.lists.mono (Nat.le_succ _) rfl rfl) (Function.update_idem ..) rfl rfl
      (Nat.le_succ _) rfl rfl, .full ?_⟩
    exact fun hf => Bool.false_ne_true (hroom.symm.trans (hfits.1 hf).1)
  | true =>
    rw [if_pos rfl, wp_bind]
    refine wp_putEntry ?_
    rw [wp_bind, wp_onLists]
    refine wp_mono (wp_pushLinkedList (h.chained.lists.mono (Nat.le_succ _) rfl rfl) hcells) ?_
      fun _ _ hE => hE
    rintro pushed lists ⟨hpushed, hlistsRoom, hnext, hpush⟩
    dsimp only at hpushed hnext
    have hle : m.lists.next ≤ lists.next := by omega
    have hother : ∀ p < m.lists.next, (Function.update m.entries m.lists.next (some kv)) p =
        m.entries p := fun p hp => Function.update_of_ne hp.ne _ _
    rw [wp_bind, postWrt]
    cases hroom' : m.lists.room (m.lists.next + 1) with
    | false =>
      obtain rfl := hpushed.trans hroom'
      refine wp_setTable (Function.update_self ..) ⟨{ t with
        wrt := t.wrt + 1, numElements := t.numElements + 1 }, c, chains,
        ⟨⟨Function.update_self .., h.below.trans_le hle, ?_, h.pos, h.lt⟩, ?_⟩, .full ?_⟩
      · exact h.chained.congr hpush (fun _ _ => rfl) hle fun p hp =>
          hother p (h.chained.entry_lt hp)
      · refine ⟨fun _ _ _ => rfl, fun p hp _ => hother p hp, fun k _ hk => ?_,
          fun _ hb => .inl hb, fun _ hp => .inl hp, hlistsRoom, hle⟩
        dsimp only
        rw [Function.update_idem, Function.update_of_ne hk]
      · exact fun hf => Bool.false_ne_true (hroom'.symm.trans (hfits.1 hf).2)
    | true =>
      obtain rfl := hpushed.trans hroom'
      set s : Slot ν := ⟨m.lists.next + 1, m.lists.next, kv⟩
      have hlt : s.entry < lists.next := by
        change m.lists.next < lists.next
        omega
      refine wp_setTable (Function.update_self ..) ⟨{ t with
        wrt := t.wrt + 1, numElements := t.numElements + 1 }, _, _,
        h.setChain hb (h.chained.push (s := s) hb hchain rfl hnone le_rfl hlt rfl hpush) ?_ ?_ ?_
          hlistsRoom hle rfl rfl, .fresh (hfits.2 ⟨hroom, hroom'⟩) hchain habsent rfl⟩
      · dsimp only
        rw [Function.update_idem]
      · exact fun p hp _ => hother p hp
      · intro p hp
        rcases mem_entriesOf_set hchain hp with hp | hp
        · obtain ⟨r, hr, rfl⟩ := List.mem_map.1 hp
          rcases List.mem_cons.1 hr with rfl | hr
          · exact .inr le_rfl
          · exact .inl (mem_entriesOf hchain hr)
        · exact .inl hp

/-- The value of a key that is there is replaced. -/
theorem wp_storeEntry_found (h : Stored m ht t c chains) {kv : HTKeyValue ν} {b : ℕ}
    {l₁ l₂ : List (Slot ν)} {s : Slot ν} {fits : Prop} (hfits : fits)
    (hb : t.buckets[(hashKeyToBucketNum t kv.key).toNat]? = some b)
    (hchain : chains[(hashKeyToBucketNum t kv.key).toNat]? = some (l₁ ++ s :: l₂))
    (hkey : s.kv.key = kv.key) :
    wp (storeEntry ht kv (b, 1, some s.kv, some s.entry)) (fun r m' => ∃ t' c' chains',
      Left m ht t c chains m' t' c' chains' ∧
      Inserted m.lists.room fits kv t chains r t' chains') E m := by
  have hmem : s ∈ chains.flatten := (h.chained.split hchain).1.mem_iff.2 List.mem_cons_self
  set s' : Slot ν := { s with kv := { s.kv with value := kv.value } }
  rw [storeEntry, if_neg (by decide), if_neg (by decide), wp_bind]
  refine wp_entryAt (h.chained.entries s hmem).1 ?_
  rw [wp_bind]
  refine wp_putEntry ?_
  rw [wp_bind, postWrt]
  have hchained : Chained ⟨m.lists, Function.update m.entries s.entry
      (some { s.kv with value := kv.value }), m.tables⟩ c t.numBuckets t.buckets
      (chains.set (hashKeyToBucketNum t kv.key).toNat (l₁ ++ s' :: l₂)) :=
    h.chained.replace hb hchain le_rfl rfl h.chained.lists
  refine wp_setTable h.table ⟨{ t with wrt := t.wrt + 1 }, c, _,
    ⟨⟨Function.update_self .., h.below, ?_, h.pos, h.lt⟩, ?_⟩, .replaced hfits hchain hkey⟩
  · exact hchained.congr h.chained.lists (fun _ _ => rfl) le_rfl fun _ _ => rfl
  · refine ⟨fun _ _ _ => rfl, fun p _ hp => Function.update_of_ne ?_ _ _, fun k _ hk =>
      Function.update_of_ne hk _ _, fun _ hb => .inl hb, fun p hp => .inl ?_, rfl, le_rfl⟩
    · rintro rfl
      exact hp (List.mem_map_of_mem hmem)
    · rcases mem_entriesOf_set hchain hp with hp | hp
      · obtain ⟨r, hr, rfl⟩ := List.mem_map.1 hp
        rcases List.mem_append.1 hr with hr | hr
        · exact mem_entriesOf hchain (List.mem_append_left _ hr)
        · rcases List.mem_cons.1 hr with rfl | hr
          · exact mem_entriesOf hchain (s := s) (by simp)
          · exact mem_entriesOf hchain (by simp [hr])
      · exact hp

/-- What `InsertHashTable` does after the resizing. -/
theorem wp_insertEntry (h : Stored m ht t c chains) (kv : HTKeyValue ν) :
    wp (searchChain ht kv.key >>= storeEntry ht kv) (fun r m' => ∃ t' c' chains' chain,
      chains[(hashKeyToBucketNum t kv.key).toNat]? = some chain ∧
      Left m ht t c chains m' t' c' chains' ∧
      Inserted m.lists.room (EntryFits m.lists kv.key chain) kv t chains r t' chains') E m := by
  rw [wp_bind]
  refine wp_mono (wp_searchChain h kv.key) ?_ fun _ _ hE => hE
  rintro r m₁ ⟨hleft, b, chain, hb, hchain, hnext, hr⟩
  have hroom := hleft.stays.room
  rcases hr with ⟨rfl, hne, hfull⟩ | ⟨rfl, hnone, hiter⟩ | ⟨l₁, s, l₂, rfl, rfl, hkey⟩
  · rw [storeEntry, if_pos rfl, wp_bind, postWrt]
    refine wp_setTable hleft.stored.table ⟨_, c, chains, chain, hchain, hleft.trans
      (hleft.stored.setTable hleft.stored.chained.lists rfl rfl rfl le_rfl rfl rfl),
      .failed hfull ?_⟩
    exact .inr (.inl ⟨hne, hfull⟩)
  · have hfits : EntryFits m.lists kv.key chain ↔
        m₁.lists.room m₁.lists.next ∧ m₁.lists.room (m₁.lists.next + 1) := by
      rw [hroom, hnext]
      refine ⟨fun hf => ?_, fun hf => .inr (.inr hf)⟩
      rcases hf with ⟨s, hs, hkey⟩ | ⟨hne, hfull⟩ | hf
      · exact absurd hkey (hnone s hs)
      · exact absurd ((hiter hne).symm.trans hfull) (by decide)
      · exact hf
    refine wp_mono (wp_storeEntry_absent hleft.stored hb hchain hnone hfits) ?_ fun _ _ hE => hE
    rintro r m' ⟨t', c', chains', hleft', hr⟩
    exact ⟨t', c', chains', chain, hchain, hleft.trans hleft', hroom ▸ hr⟩
  · have hfits : EntryFits m.lists kv.key (l₁ ++ s :: l₂) := .inl ⟨s, by simp, hkey⟩
    refine wp_mono (wp_storeEntry_found hleft.stored hfits hb hchain hkey) ?_ fun _ _ hE => hE
    rintro r m' ⟨t', c', chains', hleft', hr⟩
    exact ⟨t', c', chains', _, hchain, hleft.trans hleft', hroom ▸ hr⟩

/-- The table is locked for writing. -/
theorem Stored.lock (h : Stored m ht t c chains) :
    Left m ht t c chains
      { m with tables := Function.update m.tables ht (some { t with wrt := t.wrt - 1 }) }
      { t with wrt := t.wrt - 1 } c chains :=
  h.setTable h.chained.lists rfl rfl rfl le_rfl rfl rfl

theorem wp_resizeHashtable_of_lt {grow : ℕ → TableM ν Unit} {Q : Unit → Memory ν → Prop}
    (h : m.tables ht = some t) (hload : t.numElements < 3 * t.numBuckets) (hQ : Q () m) :
    wp (resizeHashtable grow ht) Q E m := by
  rw [resizeHashtable, wp_bind]
  refine wp_tableAt h ?_
  rw [if_pos hload]
  exact hQ

end

end Cse461.Table.HashTable
