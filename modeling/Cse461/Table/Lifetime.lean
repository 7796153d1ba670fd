import Cse461.Library.Transition
import Cse461.Table.Resize

/-!
# The lifetime of a table

A table is allocated, and then used by one call after the other, of which any allocation may
fail, and which may find any garbage (`lifetime`). `Stored` holds throughout; of `Tight`, the
count of the elements is lost when there is no room for a new entry or its node.

* `FreeHashTable` releases what is in a table only if that is nothing (`releases_iff`).
* `ResizeHashtable` never restores the load bound (`not_restored`).
* A failed insert changes nothing, if and only if it is not the allocation of the new entry or
  of its node that fails (`atomic_iff`).
-/

namespace Cse461.Table.HashTable

open Library LinkedList

variable {ν : Type}

/-- A memory before the first allocation. -/
def Memory.start (room : ℕ → Bool) : Memory ν where
  lists := { nodes := fun _ => none, heads := fun _ => none, next := 0, room := room }
  entries _ := none
  tables _ := none

/-- The calls on the table at `ht`, from its allocation on. -/
def lifetime (grow : ℕ → TableM ν Unit) (room : ℕ → Bool) (n : UInt32) (ht : ℕ) :
    System (Memory ν) (Op ν) where
  init m := allocateHashTable n (Memory.start room) = .ok (some ht) m
  step m o :=
    match o.call grow ht m with
    | .ok _ m' => some m'
    | .error _ _ => none

section

variable {m m' m₁ : Memory ν} {ht : ℕ} {t : HashTableRecord} {c : ℕ → Option (List (ℕ × ℕ))}
  {chains : List (List (Slot ν))} {f : UInt64 → Option ν} {grow : ℕ → TableM ν Unit}
  {room : ℕ → Bool} {n : UInt32} {g : Garbage ν} {depth : ℕ} {o : Op ν}

theorem lifetime_step_eq_some :
    (lifetime grow room n ht).step m o = some m' ↔ ∃ r, o.call grow ht m = .ok r m' := by
  simp only [lifetime]
  cases o.call grow ht m with
  | ok r m₁ => simp
  | error e m₁ => simp

theorem represents_start (room : ℕ → Bool) :
    Represents (Memory.start room : Memory ν).lists fun _ => none := by
  constructor <;> simp

/-- A new table is empty. -/
theorem tight_of_init (h : allocateHashTable n (Memory.start room) = .ok (some ht) m) :
    ∃ t c, Tight m ht t c (List.replicate n.toNat []) (fun _ => none) ∧ t.numBuckets = n.toUInt64 ∧
      m.lists.room = room := by
  have hallocate := wp_allocateHashTable (E := fun _ _ => False) n (represents_start (ν := ν) room)
  rw [wp_of_ok h] at hallocate
  obtain ⟨c, -, hquiet, ⟨-, hr⟩ | ⟨ht', t, hr, -, -, -, hbuckets, htight⟩⟩ := hallocate
  · cases hr
  · obtain rfl := Option.some.inj hr
    exact ⟨t, c, htight, hbuckets, hquiet.room⟩

/-! ## Whatever fails -/

/-- A table that can be used. -/
def Usable (m : Memory ν) (ht : ℕ) : Prop :=
  ∃ t c chains, Stored m ht t c chains ∧ 0 < t.wrt ∧ Unlocked t

theorem usable (h : (lifetime (growTable g depth) room n ht).Reachable m) : Usable m ht := by
  refine h.invariant (I := fun m => Usable m ht) ?_ ?_
  · intro m hm
    obtain ⟨t, c, h, -⟩ := tight_of_init hm
    exact ⟨t, c, _, h.stored, h.wrt ▸ Nat.one_pos, h.mutex, h.readcount⟩
  · rintro m o m' ⟨t, c, chains, h, hwrt, hunlocked⟩ hstep
    obtain ⟨r, hr⟩ := lifetime_step_eq_some.1 hstep
    cases o with
    | insert kv =>
      obtain ⟨t', c', chains', hwrt', hunlocked', hleft⟩ := (wp_of_ok hr).1
        ((grows_growTable g depth).wp_insertHashTable h hwrt hunlocked kv)
      exact ⟨t', c', chains', hleft.stored, hwrt', hunlocked'⟩
    | lookup key =>
      obtain ⟨hleft, -⟩ := (wp_of_ok hr).1 (wp_lookupHashTable (E := fun _ _ => False) h hwrt
        hunlocked.mutex hunlocked.readcount key)
      exact ⟨t, c, chains, hleft.stored, hwrt, hunlocked⟩
    | remove key =>
      obtain ⟨⟨t', c', chains', hleft, hremoved⟩, -⟩ :=
        (wp_of_ok hr).1 (wp_removeFromHashTable (E := fun _ _ => False) h hwrt key)
      refine ⟨t', c', chains', hleft.stored, ?_, ?_⟩
      · cases hremoved <;> exact hwrt
      · cases hremoved <;> exact ⟨hunlocked.mutex, hunlocked.readcount⟩

/-- `FreeHashTable` frees each entry of the chains once, after it called `value_free_function` on
    its value, and nothing else. -/
def Releases (m : Memory ν) (ht : ℕ) (chains : List (List (Slot ν))) : Prop :=
  ∃ released m', freeHashTable ht m = .ok released m' ∧
    released.Perm (chains.flatten.map fun s => (s.entry, s.kv.value))

theorem releases_iff_of_stored (h : Stored m ht t c chains) :
    Releases m ht chains ↔ chains.flatten = [] := by
  have hfree := wp_freeHashTable h
  constructor
  · rintro ⟨released, m', hr, hperm⟩
    rw [wp_of_ok hr] at hfree
    rw [hfree.1] at hperm
    exact List.map_eq_nil_iff.1 hperm.nil_eq.symm
  · intro hnil
    have hshort : ¬∃ chain ∈ chains, 1 < chain.length := by
      rintro ⟨chain, hchain, hlong⟩
      rw [List.flatten_eq_nil_iff.1 hnil chain hchain] at hlong
      exact absurd hlong (Nat.not_lt_zero 1)
    obtain ⟨released, m', hr, rfl, -⟩ :=
      ok_of_wp (wp_mono hfree (fun _ _ h => h) fun _ _ hE => hshort hE.2)
    exact ⟨[], m', hr, by rw [hnil]; exact List.Perm.nil⟩

/-- A table in use is freed as it should be if and only if nothing is in it. -/
theorem releases_iff (h : (lifetime (growTable g depth) room n ht).Reachable m) :
    ∃ t c chains, Stored m ht t c chains ∧ (Releases m ht chains ↔ chains.flatten = []) := by
  obtain ⟨t, c, chains, h, -⟩ := usable h
  exact ⟨t, c, chains, h, releases_iff_of_stored h⟩

/-! ## When all new entries fit -/

/-- Resizing comes too late to be done. -/
theorem Tight.exists_long (h : Tight m ht t c chains f)
    (hload : ¬t.numElements < 3 * t.numBuckets) : ∃ chain ∈ chains, 1 < chain.length := by
  by_contra hall
  push Not at hall
  refine hload ?_
  have hle : chains.flatten.length ≤ t.numBuckets.toNat := by
    rw [← h.stored.chained.length.2, List.length_flatten]
    refine (List.sum_le_card_nsmul _ 1 ?_).trans (by simp)
    intro k hk
    obtain ⟨chain, hchain, rfl⟩ := List.mem_map.1 hk
    exact hall chain hchain
  refine h.lt_of_size ?_
  have hpos := h.stored.pos
  rw [h.size_eq]
  omega

/-- An insert, up to the end of the resizing. -/
def resized (grow : ℕ → TableM ν Unit) (ht : ℕ) : TableM ν Unit := do
  waitWrt ht
  resizeHashtable grow ht

/-- Resizing leaves a table alone, or the call does not return. -/
theorem Tight.wp_resized (h : Tight m ht t c chains f) (g : Garbage ν) (depth : ℕ) :
    wp (resized (growTable g depth) ht) (fun _ m' => ∃ c',
      Left m ht t c chains m' { t with wrt := t.wrt - 1 } c' chains) (fun _ _ => True) m := by
  rw [resized, wp_bind]
  refine wp_waitWrt h.stored.table (h.wrt ▸ Nat.one_pos) ?_
  have hlock := h.stored.lock
  rw [resizeHashtable, wp_bind]
  refine wp_tableAt hlock.stored.table ?_
  by_cases hload : t.numElements < 3 * t.numBuckets
  · rw [if_pos hload]
    exact ⟨c, hlock⟩
  · rw [if_neg hload]
    refine wp_mono (grows_growTable g depth _ ht _ c chains hlock.stored) ?_ fun _ _ hE => hE
    rintro _ m' (⟨c', hleft⟩ | ⟨hshort, -⟩)
    · exact ⟨c', hlock.trans hleft⟩
    · obtain ⟨chain, hchain, hlong⟩ := h.exists_long hload
      exact absurd (hshort chain hchain) hlong.not_ge

/-- An insert ends as what follows the resizing does. -/
theorem insertHashTable_eq_ok {kv : HTKeyValue ν} {r : Result ν} :
    insertHashTable grow ht kv m = .ok r m' ↔ ∃ m₁, resized grow ht m = .ok () m₁ ∧
      (searchChain ht kv.key >>= storeEntry ht kv) m₁ = .ok r m' := by
  have heq : insertHashTable grow ht kv m = EStateM.bind (resized grow ht)
      (fun _ => searchChain ht kv.key >>= storeEntry ht kv) m := by
    rw [insertHashTable_eq, resized]
    exact congrFun (bind_assoc _ _ _).symm m
  rw [heq, EStateM.bind]
  cases resized grow ht m with
  | ok a m₁ =>
    refine ⟨fun h => ⟨m₁, rfl, h⟩, ?_⟩
    rintro ⟨m₂, hm₂, h⟩
    cases hm₂
    exact h
  | error e m₁ =>
    constructor
    · intro h
      cases h
    · rintro ⟨m₂, hm₂, -⟩
      cases hm₂

/-- The insert of `kv` finds room for its entry and the node, if it gets so far. -/
def Fits (grow : ℕ → TableM ν Unit) (ht : ℕ) (m : Memory ν) (t : HashTableRecord)
    (chains : List (List (Slot ν))) (kv : HTKeyValue ν) : Prop :=
  ∀ m₁ chain, resized grow ht m = .ok () m₁ →
    chains[(hashKeyToBucketNum t kv.key).toNat]? = some chain → EntryFits m₁.lists kv.key chain

/-- An insert that fails changes nothing of the table and its chains, the number of elements and
    the lock among it; another one does to the map what it should. -/
def Atomic (grow : ℕ → TableM ν Unit) (ht : ℕ) (m : Memory ν) (t : HashTableRecord)
    (chains : List (List (Slot ν))) (f : UInt64 → Option ν) (kv : HTKeyValue ν) : Prop :=
  ∀ r m', insertHashTable grow ht kv m = .ok r m' →
    (r.1 = 0 → ∃ c', Tight m' ht t c' chains f) ∧
      (r.1 ≠ 0 → r = ((Op.insert kv).spec f).1 ∧
        ∃ t' c' chains', Tight m' ht t' c' chains' ((Op.insert kv).spec f).2)

/-- What an insert makes of a table. -/
theorem Tight.insert (h : Tight m ht t c chains f) (kv : HTKeyValue ν)
    (hm₁ : resized (growTable g depth) ht m = .ok () m₁) :
    ∃ chain, chains[(hashKeyToBucketNum t kv.key).toNat]? = some chain ∧
      wp (searchChain ht kv.key >>= storeEntry ht kv) (fun r m' =>
        m'.lists.room = m.lists.room ∧
        (EntryFits m₁.lists kv.key chain ∧ r.1 = 0 ∧ (∃ c', Tight m' ht t c' chains f) ∨
          EntryFits m₁.lists kv.key chain ∧ r.1 ≠ 0 ∧ r = ((Op.insert kv).spec f).1 ∧
            (∃ t' c' chains', Tight m' ht t' c' chains' ((Op.insert kv).spec f).2) ∨
          ¬EntryFits m₁.lists kv.key chain ∧ r.1 = 0 ∧
            m'.tables ht = some { t with numElements := t.numElements + 1 }))
        (fun _ _ => False) m₁ := by
  have hresized := h.wp_resized g depth
  rw [wp_of_ok hm₁] at hresized
  obtain ⟨c₁, hleft⟩ := hresized
  have hback : t.wrt - 1 + 1 = t.wrt := Nat.sub_add_cancel (h.wrt ▸ le_rfl)
  have hcounts : Counts { t with wrt := t.wrt - 1 } chains f := ⟨h.counts.maps, h.counts.count⟩
  obtain ⟨b, chain, -, hchain, -⟩ := h.stored.chain kv.key
  refine ⟨chain, hchain, wp_mono (wp_insertEntry hleft.stored kv) ?_ fun _ _ hE => hE⟩
  rintro r m' ⟨t', c', chains', chain', hchain', hleft', hi⟩
  obtain rfl := Option.some.inj (hchain.symm.trans hchain')
  refine ⟨hleft'.stays.room.trans hleft.stays.room, ?_⟩
  rcases hi.counts hleft.stored hcounts with
    ⟨-, hfits, rfl, rfl, rfl⟩ | ⟨hfits, rfl, rfl, rfl⟩ | ⟨hfits, rfl, hc, k, rfl⟩
  · refine .inl ⟨hfits, rfl, c', ?_⟩
    have hsame : { { t with wrt := t.wrt - 1 } with wrt := t.wrt - 1 + 1 } = t := by
      rw [hback]
    exact ⟨hsame ▸ hleft'.stored, h.counts, h.wrt, h.mutex, h.readcount⟩
  · refine .inr (.inr ⟨hfits, rfl, hleft'.stored.table.trans ?_⟩)
    rw [hback]
  · refine .inr (.inl ⟨hfits, ?_, rfl, _, c', chains', hleft'.stored, hc, hback.trans h.wrt, h.mutex,
      h.readcount⟩)
    dsimp only [Op.spec]
    split <;> decide

theorem Tight.atomic_iff_fits (h : Tight m ht t c chains f) (kv : HTKeyValue ν) :
    Atomic (growTable g depth) ht m t chains f kv ↔ Fits (growTable g depth) ht m t chains kv := by
  constructor
  · intro hatomic m₁ chain hm₁ hchain
    obtain ⟨chain', hchain', hinsert⟩ := h.insert kv hm₁
    obtain rfl := Option.some.inj (hchain.symm.trans hchain')
    obtain ⟨r, m', hr, -, ⟨hfits, -⟩ | ⟨hfits, -⟩ | ⟨-, hzero, htable⟩⟩ := ok_of_wp hinsert
    · exact hfits
    · exact hfits
    · obtain ⟨c', h'⟩ := (hatomic r m' (insertHashTable_eq_ok.2 ⟨m₁, hm₁, hr⟩)).1 hzero
      have hcount := congrArg HashTableRecord.numElements
        (Option.some.inj (htable.symm.trans h'.stored.table))
      exact absurd (left_eq_add.1 hcount.symm) (by decide)
  · intro hfits r m' hr
    obtain ⟨m₁, hm₁, hrest⟩ := insertHashTable_eq_ok.1 hr
    obtain ⟨chain, hchain, hinsert⟩ := h.insert kv hm₁
    rw [wp_of_ok hrest] at hinsert
    obtain ⟨-, ⟨-, hzero, hsame⟩ | ⟨-, hone, hspec, hnew⟩ | ⟨hnot, -⟩⟩ := hinsert
    · exact ⟨fun _ => hsame, fun hone => absurd hzero hone⟩
    · exact ⟨fun hzero => absurd hzero hone, fun _ => ⟨hspec, hnew⟩⟩
    · exact absurd (hfits m₁ chain hm₁ hchain) hnot

/-- A call keeps the count of the elements, unless it is an insert that finds no room for its entry
    or the node. -/
theorem Tight.call (h : Tight m ht t c chains f) {r : Result ν}
    (hr : o.call (growTable g depth) ht m = .ok r m')
    (hfits : ∀ kv, o = .insert kv → Fits (growTable g depth) ht m t chains kv) :
    m'.lists.room = m.lists.room ∧ ∃ t' c' chains' f', Tight m' ht t' c' chains' f' := by
  have hwrt : 0 < t.wrt := h.wrt ▸ Nat.one_pos
  cases o with
  | insert kv =>
    obtain ⟨m₁, hm₁, hrest⟩ := insertHashTable_eq_ok.1 hr
    obtain ⟨chain, hchain, hinsert⟩ := h.insert kv hm₁
    rw [wp_of_ok hrest] at hinsert
    obtain ⟨hroom, ⟨-, -, c', h'⟩ | ⟨-, -, -, t', c', chains', h'⟩ | ⟨hnot, -⟩⟩ := hinsert
    · exact ⟨hroom, t, c', chains, f, h'⟩
    · exact ⟨hroom, t', c', chains', _, h'⟩
    · exact absurd (hfits kv rfl m₁ chain hm₁ hchain) hnot
  | lookup key =>
    obtain ⟨hleft, -⟩ := (wp_of_ok hr).1 (wp_lookupHashTable (E := fun _ _ => False) h.stored hwrt
      h.mutex h.readcount key)
    exact ⟨hleft.stays.room, t, c, chains, f, hleft.stored, h.counts, h.wrt, h.mutex, h.readcount⟩
  | remove key =>
    obtain ⟨⟨t', c', chains', hleft, hremoved⟩, -⟩ :=
      (wp_of_ok hr).1 (wp_removeFromHashTable (E := fun _ _ => False) h.stored hwrt key)
    have hlocks : t'.wrt = t.wrt ∧ t'.mutex = t.mutex ∧ t'.readcount = t.readcount := by
      cases hremoved <;> exact ⟨rfl, rfl, rfl⟩
    obtain ⟨hw, hm, hc⟩ := hlocks
    rcases hremoved.counts h.stored h.counts with ⟨-, -, rfl, rfl⟩ | ⟨-, hcounts⟩
    · exact ⟨hleft.stays.room, t', c', chains', f, hleft.stored, h.counts, h.wrt, h.mutex,
        h.readcount⟩
    · exact ⟨hleft.stays.room, t', c', chains', _, hleft.stored, hcounts, hw.trans h.wrt,
        hm.trans h.mutex, hc.trans h.readcount⟩

/-- A call is not an insert that finds no room for its entry or the node. -/
def Roomy (grow : ℕ → TableM ν Unit) (ht : ℕ) (m : Memory ν) (o : Op ν) : Prop :=
  ∀ kv t c chains f, o = .insert kv → Tight m ht t c chains f → Fits grow ht m t chains kv

open Classical in
/-- The lifetime of a table whose inserts all find room for their entries and nodes. -/
noncomputable def roomyLifetime (grow : ℕ → TableM ν Unit) (room : ℕ → Bool) (n : UInt32) (ht : ℕ) :
    System (Memory ν) (Op ν) :=
  (lifetime grow room n ht).restrict (Roomy grow ht)

theorem exists_tight (h : (roomyLifetime (growTable g depth) room n ht).Reachable m) :
    ∃ t c chains f, Tight m ht t c chains f := by
  classical
  refine h.invariant (I := fun m => ∃ t c chains f, Tight m ht t c chains f) ?_ ?_
  · intro m hm
    obtain ⟨t, c, h, -⟩ := tight_of_init hm
    exact ⟨t, c, _, _, h⟩
  · rintro m o m' ⟨t, c, chains, f, h⟩ hstep
    obtain ⟨hfits, hstep⟩ := System.restrict_step_eq_some.1 hstep
    obtain ⟨r, hr⟩ := lifetime_step_eq_some.1 hstep
    exact (h.call hr fun kv hkv => hfits kv t c chains f hkv h).2

/-- As long as all inserts found room for their entries and nodes, the next one is atomic if and
    only if it does. -/
theorem atomic_iff (h : (roomyLifetime (growTable g depth) room n ht).Reachable m) :
    ∃ t c chains f, Tight m ht t c chains f ∧ ∀ kv,
      (Atomic (growTable g depth) ht m t chains f kv ↔
        Fits (growTable g depth) ht m t chains kv) := by
  obtain ⟨t, c, chains, f, h⟩ := exists_tight h
  exact ⟨t, c, chains, f, h, h.atomic_iff_fits⟩

/-- Where there is always room, everything fits. -/
theorem exists_tight_of_room (hroom : ∀ a, room a)
    (h : (lifetime (growTable g depth) room n ht).Reachable m) :
    m.lists.room = room ∧ ∃ t c chains f, Tight m ht t c chains f := by
  refine h.invariant (I := fun m => m.lists.room = room ∧ ∃ t c chains f, Tight m ht t c chains f)
    ?_ ?_
  · intro m hm
    obtain ⟨t, c, h, -, hm⟩ := tight_of_init hm
    exact ⟨hm, t, c, _, _, h⟩
  · rintro m o m' ⟨hm, t, c, chains, f, h⟩ hstep
    obtain ⟨r, hr⟩ := lifetime_step_eq_some.1 hstep
    have hfits : ∀ kv, o = .insert kv → Fits (growTable g depth) ht m t chains kv := by
      intro kv _ m₁ chain hm₁ _
      have hresized := h.wp_resized g depth
      rw [wp_of_ok hm₁] at hresized
      obtain ⟨c₁, hleft⟩ := hresized
      rw [EntryFits, hleft.stays.room, hm]
      exact .inr (.inr ⟨hroom _, hroom _⟩)
    obtain ⟨hm', h'⟩ := h.call hr hfits
    exact ⟨hm'.trans hm, h'⟩

/-- Resizing ends with nine times as many buckets, and the same entries in them. -/
def Restored (grow : ℕ → TableM ν Unit) (ht : ℕ) (m : Memory ν) (t : HashTableRecord)
    (chains : List (List (Slot ν))) : Prop :=
  ∃ m' t' c' chains', resized grow ht m = .ok () m' ∧ Stored m' ht t' c' chains' ∧
    t'.numBuckets = 9 * t.numBuckets ∧ t'.numElements = t.numElements ∧
      (chains'.flatten.map Slot.kv).Perm (chains.flatten.map Slot.kv)

theorem Tight.not_restored_of_lt (h : Tight m ht t c chains f)
    (hlt : t.numBuckets.toNat * 9 < 2 ^ 32) (g : Garbage ν) (depth : ℕ) :
    ¬Restored (growTable g depth) ht m t chains := by
  rintro ⟨m', t', c', chains', hm', h', hbuckets, -⟩
  have hresized := h.wp_resized g depth
  rw [wp_of_ok hm'] at hresized
  obtain ⟨c₁, hleft⟩ := hresized
  obtain rfl := Option.some.inj (hleft.stored.table.symm.trans h'.table)
  have htoNat := congrArg UInt64.toNat hbuckets
  have hnine : (9 : UInt64).toNat = 9 := rfl
  have hpos := h.stored.pos
  rw [UInt64.toNat_mul, hnine] at htoNat
  dsimp only at htoNat
  omega

/-- A table that is due to be resized never is, whatever the garbage is and however often resizing
    nests: the call does not return, or leaves the table as it was. -/
theorem not_restored (hroom : ∀ a, room a)
    (h : (lifetime (growTable g depth) room n ht).Reachable m) :
    ∃ t c chains f, Tight m ht t c chains f ∧
      (¬t.numElements < 3 * t.numBuckets → t.numBuckets.toNat * 9 < 2 ^ 32 →
        ∀ g' depth', ¬Restored (growTable g' depth') ht m t chains) := by
  obtain ⟨-, t, c, chains, f, h⟩ := exists_tight_of_room hroom h
  exact ⟨t, c, chains, f, h, fun _ hlt g' depth' => h.not_restored_of_lt hlt g' depth'⟩

/-! ## Tables in use -/

/-- Calls that all return are a run. -/
theorem exec_of_calls {ops : List (Op ν)} {rs : List (Result ν)}
    (h : calls grow ht ops m = .ok rs m') : (lifetime grow room n ht).exec m ops = some m' := by
  induction ops generalizing m rs with
  | nil =>
    cases h
    rfl
  | cons o ops ih =>
    have hrun : wp (calls grow ht (o :: ops)) (fun _ m₂ => m₂ = m') (fun _ _ => False) m := by
      rw [wp_of_ok h]
    rw [calls, wp_bind] at hrun
    obtain ⟨r, m₁, hr, hrest⟩ := ok_of_wp hrun
    rw [wp_bind] at hrest
    obtain ⟨rs', m₂, hrs', rfl⟩ := ok_of_wp hrest
    exact Option.bind_eq_some_iff.2 ⟨m₁, lifetime_step_eq_some.2 ⟨r, hr⟩, ih hrs'⟩

/-- There is one table at an address. -/
theorem Stored.table_unique {t' : HashTableRecord} {c' : ℕ → Option (List (ℕ × ℕ))}
    {chains' : List (List (Slot ν))} (h : Stored m ht t c chains)
    (h' : Stored m ht t' c' chains') : t' = t :=
  Option.some.inj (h'.table.symm.trans h.table)

end

/-- Three entries for the only bucket of a table. -/
def three : List (Op ℕ) := [.insert ⟨5, 10⟩, .insert ⟨6, 11⟩, .insert ⟨7, 12⟩]

theorem size_three : size (specRun (fun _ => none) three).2 = 3 := by
  have hkeys : {k | (specRun (fun _ => none) three).2 k ≠ none} = ({5, 6, 7} : Finset UInt64) := by
    ext k
    by_cases h₅ : k = 5 <;> by_cases h₆ : k = 6 <;> by_cases h₇ : k = 7 <;>
      simp [three, specRun, Op.spec, Function.update_apply, h₅, h₆, h₇]
  rw [size, hkeys, Set.ncard_coe_finset]
  rfl

/-- A table of one bucket with three entries, which is due to be resized. -/
theorem exists_exec_three (grow : ℕ → TableM ℕ Unit) : ∃ ht m₀ m t c chains,
    (lifetime grow (fun _ => true) 1 ht).init m₀ ∧
      (lifetime grow (fun _ => true) 1 ht).exec m₀ three = some m ∧
      Tight m ht t c chains (specRun (fun _ => none) three).2 ∧ t.numBuckets = 1 ∧
        t.numElements = 3 ∧ chains.flatten.length = 3 := by
  have hload : Unloaded (1 : UInt32).toNat (fun _ => none) three :=
    unloaded_of_length_le (by decide)
  obtain ⟨ht, m₀, m, hinit, hcalls, t, c, chains, h, hone, -⟩ :=
    exists_calls (by decide) grow hload
  have hlength : chains.flatten.length = 3 := h.size_eq.symm.trans size_three
  refine ⟨ht, m₀, m, t, c, chains, hinit, exec_of_calls hcalls, h, hone, ?_, hlength⟩
  rw [h.counts.count, hlength]
  rfl

/-- No local variable that is not written holds anything but zero. -/
def zeros : Garbage ℕ := ⟨fun _ => ⟨0, 0⟩, fun _ => 0⟩

/-- Three inserts into a new table, which is not freed as it should be then. -/
theorem releases_iff_three : ∃ ht m₀ m t c chains,
    (lifetime (growTable zeros 1) (fun _ => true) 1 ht).init m₀ ∧
      (lifetime (growTable zeros 1) (fun _ => true) 1 ht).exec m₀ three = some m ∧
      (Stored m ht t c chains ∧ t.numBuckets = 1 ∧ t.numElements = 3) ∧
      (Releases m ht chains ↔ chains.flatten = []) := by
  obtain ⟨ht, m₀, m, t, c, chains, hinit, hexec, h, hone, hcount, -⟩ :=
    exists_exec_three (growTable zeros 1)
  obtain ⟨t', c', chains', h', hreleases⟩ := releases_iff (System.reachable_of_exec hinit hexec)
  obtain rfl := h.stored.table_unique h'
  exact ⟨ht, m₀, m, t', c', chains', hinit, hexec, ⟨h', hone, hcount⟩, hreleases⟩

/-- The first entry of the chain is freed, and then followed. -/
theorem not_releases : ∃ ht m t c chains,
    (lifetime (growTable zeros 1) (fun _ => true) 1 ht).Reachable m ∧ Stored m ht t c chains ∧
      ¬Releases m ht chains := by
  obtain ⟨ht, m₀, m, t, c, chains, hinit, hexec, h, -, -, hlength⟩ :=
    exists_exec_three (growTable zeros 1)
  refine ⟨ht, m, t, c, chains, System.reachable_of_exec hinit hexec, h.stored, ?_⟩
  intro hreleases
  rw [(releases_iff_of_stored h.stored).1 hreleases] at hlength
  cases hlength

/-- Three inserts into a new table: the table is due to be resized, and is not. -/
theorem not_restored_three : ∃ ht m₀ m t c chains f,
    (lifetime (growTable zeros 1) (fun _ => true) 1 ht).init m₀ ∧
      (lifetime (growTable zeros 1) (fun _ => true) 1 ht).exec m₀ three = some m ∧
      (Tight m ht t c chains f ∧ t.numBuckets = 1 ∧ t.numElements = 3) ∧
      ∀ g depth, ¬Restored (growTable g depth) ht m t chains := by
  obtain ⟨ht, m₀, m, t, c, chains, hinit, hexec, h, hone, hcount, -⟩ :=
    exists_exec_three (growTable zeros 1)
  obtain ⟨t', c', chains', f, h', hresize⟩ :=
    not_restored (fun _ => rfl) (System.reachable_of_exec hinit hexec)
  obtain rfl := h.stored.table_unique h'.stored
  have hload : ¬t'.numElements < 3 * t'.numBuckets := by
    rw [hcount, hone]
    decide
  have hlt : t'.numBuckets.toNat * 9 < 2 ^ 32 := by
    rw [hone]
    decide
  exact ⟨ht, m₀, m, t', c', chains', f, hinit, hexec, ⟨h', hone, hcount⟩, hresize hload hlt⟩

/-- Three entries are in one bucket, so that the next insert resizes the table. -/
theorem loaded_not_restored : ∃ ht m t c chains,
    (lifetime (growTable zeros 1) (fun _ => true) 1 ht).Reachable m ∧ Stored m ht t c chains ∧
      ¬t.numElements < 3 * t.numBuckets ∧ t.numBuckets.toNat * 9 < 2 ^ 32 ∧
        ¬Restored (growTable zeros 1) ht m t chains := by
  obtain ⟨ht, m₀, m, t, c, chains, hinit, hexec, h, hone, hcount, -⟩ :=
    exists_exec_three (growTable zeros 1)
  have hload : ¬t.numElements < 3 * t.numBuckets := by
    rw [hcount, hone]
    decide
  have hlt : t.numBuckets.toNat * 9 < 2 ^ 32 := by
    rw [hone]
    decide
  exact ⟨ht, m, t, c, chains, System.reachable_of_exec hinit hexec, h.stored, hload, hlt,
    h.not_restored_of_lt hlt zeros 1⟩

/-- A new table of one bucket. There is no room for a first entry. -/
def crowded : Memory ℕ := finalState (allocateHashTable 1) (Memory.start fun a => a ≠ 3)

theorem crowded_eq : allocateHashTable 1 (Memory.start fun a => a ≠ 3) = .ok (some 0) crowded := rfl

theorem insert_crowded : ∃ m', insertHashTable (growTable zeros 1) 0 ⟨5, 10⟩ crowded =
    .ok (0, none) m' ∧ (m'.tables 0).map HashTableRecord.numElements = some 1 :=
  ⟨_, rfl, rfl⟩

theorem reachable_crowded :
    (roomyLifetime (growTable zeros 1) (fun a => a ≠ 3) 1 0).Reachable crowded :=
  .init crowded_eq

/-- An insert of which resizing leaves room for a new entry and its node. -/
theorem roomy_insert {m m₁ : Memory ℕ} {ht : ℕ} {grow : ℕ → TableM ℕ Unit} {kv : HTKeyValue ℕ}
    (hm₁ : resized grow ht m = .ok () m₁)
    (hroom : ∀ k ≤ 2, m₁.lists.room (m₁.lists.next + k) = true) :
    Roomy grow ht m (.insert kv) := by
  intro kv' t c chains f _ _ m₂ chain hm₂ _
  obtain ⟨-, rfl⟩ := EStateM.Result.ok.inj (hm₁.symm.trans hm₂)
  refine .inr (.inr ⟨hroom _ ?_, hroom (_ + 1) ?_⟩)
  · split <;> decide
  · split <;> decide

/-- There is room for two entries and their nodes, and not for a third. -/
def spare : Memory ℕ := finalState (allocateHashTable 1) (Memory.start fun a => a ≠ 9)

def spare₁ : Memory ℕ := finalState (insertHashTable (growTable zeros 1) 0 ⟨5, 10⟩) spare

def spare₂ : Memory ℕ := finalState (insertHashTable (growTable zeros 1) 0 ⟨6, 11⟩) spare₁

theorem insert_spare :
    (Op.insert ⟨5, 10⟩).call (growTable zeros 1) 0 spare = .ok (1, none) spare₁ := rfl

theorem insert_spare₁ :
    (Op.insert ⟨6, 11⟩).call (growTable zeros 1) 0 spare₁ = .ok (1, none) spare₂ := rfl

theorem resized_spare :
    ∃ m₁, resized (growTable zeros 1) 0 spare = .ok () m₁ ∧
      ∀ k ≤ 2, m₁.lists.room (m₁.lists.next + k) = true :=
  ⟨_, rfl, by decide⟩

theorem resized_spare₁ :
    ∃ m₁, resized (growTable zeros 1) 0 spare₁ = .ok () m₁ ∧
      ∀ k ≤ 2, m₁.lists.room (m₁.lists.next + k) = true :=
  ⟨_, rfl, by decide⟩

theorem exec_spare : (roomyLifetime (growTable zeros 1) (fun a => a ≠ 9) 1 0).exec spare
    [.insert ⟨5, 10⟩, .insert ⟨6, 11⟩] = some spare₂ := by
  classical
  -- Each insert takes its step in the restricted system, since there is room for its entry.
  obtain ⟨m₁, hm₁, hroom⟩ := resized_spare
  obtain ⟨m₂, hm₂, hroom'⟩ := resized_spare₁
  refine Option.bind_eq_some_iff.2 ⟨spare₁, System.restrict_step_eq_some.2
    ⟨roomy_insert hm₁ hroom, lifetime_step_eq_some.2 ⟨_, insert_spare⟩⟩, ?_⟩
  exact Option.bind_eq_some_iff.2 ⟨spare₂, System.restrict_step_eq_some.2
    ⟨roomy_insert hm₂ hroom', lifetime_step_eq_some.2 ⟨_, insert_spare₁⟩⟩, rfl⟩

/-- Two entries are in the table. Only an insert that finds room for its entry is atomic. -/
theorem atomic_iff_spare : ∃ t c chains f,
    (roomyLifetime (growTable zeros 1) (fun a => a ≠ 9) 1 0).init spare ∧
      (roomyLifetime (growTable zeros 1) (fun a => a ≠ 9) 1 0).exec spare
        [.insert ⟨5, 10⟩, .insert ⟨6, 11⟩] = some spare₂ ∧
      (Tight spare₂ 0 t c chains f ∧ t.numElements = 2) ∧
      ∀ kv, (Atomic (growTable zeros 1) 0 spare₂ t chains f kv ↔
        Fits (growTable zeros 1) 0 spare₂ t chains kv) := by
  have hinit : (roomyLifetime (growTable zeros 1) (fun a => a ≠ 9) 1 0).init spare := rfl
  obtain ⟨t, c, chains, f, h, hatomic⟩ := atomic_iff (System.reachable_of_exec hinit exec_spare)
  have hcount : (spare₂.tables 0).map HashTableRecord.numElements = some 2 := rfl
  rw [h.stored.table] at hcount
  exact ⟨t, c, chains, f, hinit, exec_spare, ⟨h, Option.some.inj hcount⟩, hatomic⟩

/-- The insert fails, and counts an element that is not there. -/
theorem crowded_not_atomic : ∃ t c chains f,
    (roomyLifetime (growTable zeros 1) (fun a => a ≠ 3) 1 0).Reachable crowded ∧
      Tight crowded 0 t c chains f ∧ ¬Atomic (growTable zeros 1) 0 crowded t chains f ⟨5, 10⟩ := by
  obtain ⟨t, c, h, -⟩ := tight_of_init crowded_eq
  refine ⟨t, c, _, _, reachable_crowded, h, fun hatomic => ?_⟩
  obtain ⟨m', hinsert, hcount⟩ := insert_crowded
  obtain ⟨c', h'⟩ := (hatomic _ m' hinsert).1 rfl
  rw [h'.stored.table, Option.map_some, h'.counts.count] at hcount
  exact absurd hcount (by decide)

end Cse461.Table.HashTable
