import Cse461.Table.Stored

/-!
# The calls on a table

A table does what a finite map does (`Op.spec`), one call after the other, as long as it
is not so full that an insert resizes it (`calls_refine`). What holds of a table between
two calls is `Tight`, whatever room there is, and `Holds`, where there is always room.
-/

namespace Cse461.Table.HashTable

open Library LinkedList

variable {ν : Type}

/-- What holds of a table between calls: the map `f` is in its chains, the elements are
    counted, and the locks are free. -/
structure Holds (m : Memory ν) (ht : ℕ) (t : HashTableRecord) (c : ℕ → Option (List (ℕ × ℕ)))
    (chains : List (List (Slot ν))) (f : UInt64 → Option ν) : Prop where
  table : m.tables ht = some t
  chained : Chained m c t.numBuckets t.buckets chains
  maps : Maps chains.flatten f
  pos : 0 < t.numBuckets.toNat
  lt : t.numBuckets.toNat < 2 ^ 32
  count : t.numElements.toNat = chains.flatten.length
  load : chains.flatten.length ≤ 3 * t.numBuckets.toNat
  wrt : t.wrt = 1
  mutex : t.mutex = 1
  readcount : t.readcount = 0
  room : ∀ a, m.lists.room a

/-- A call on a table. -/
inductive Op (ν : Type)
  | insert (newkeyvalue : HTKeyValue ν)
  | lookup (key : UInt64)
  | remove (key : UInt64)

/-- Make a call. -/
def Op.call (grow : ℕ → TableM ν Unit) (table : ℕ) : Op ν → TableM ν (Result ν)
  | .insert newkeyvalue => insertHashTable grow table newkeyvalue
  | .lookup key => lookupHashTable table key
  | .remove key => removeFromHashTable table key

/-- Make calls, one after the other. -/
def calls (grow : ℕ → TableM ν Unit) (table : ℕ) : List (Op ν) → TableM ν (List (Result ν))
  | [] => return []
  | o :: l => do
    let r ← o.call grow table
    let rs ← calls grow table l
    return r :: rs

/-- What a call on a finite map returns, and the map after it. -/
def Op.spec (f : UInt64 → Option ν) : Op ν → Result ν × (UInt64 → Option ν)
  | .insert kv =>
    ((if (f kv.key).isSome then 2 else 1, (f kv.key).map fun v => ⟨kv.key, v⟩),
      Function.update f kv.key (some kv.value))
  | .lookup key => ((if (f key).isSome then 1 else 0, (f key).map fun v => ⟨key, v⟩), f)
  | .remove key =>
    ((if (f key).isSome then 1 else 0, (f key).map fun v => ⟨key, v⟩),
      Function.update f key none)

/-- The map `f` is in the chains, and the elements are counted. -/
structure Counts (t : HashTableRecord) (chains : List (List (Slot ν))) (f : UInt64 → Option ν) :
    Prop where
  maps : Maps chains.flatten f
  count : t.numElements = UInt64.ofNat chains.flatten.length

/-- What holds of a table between calls, whether there is room for more or not. -/
structure Tight (m : Memory ν) (ht : ℕ) (t : HashTableRecord) (c : ℕ → Option (List (ℕ × ℕ)))
    (chains : List (List (Slot ν))) (f : UInt64 → Option ν) : Prop where
  stored : Stored m ht t c chains
  counts : Counts t chains f
  wrt : t.wrt = 1
  mutex : t.mutex = 1
  readcount : t.readcount = 0

section

variable {m m' : Memory ν} {ht : ℕ} {t t' : HashTableRecord} {c c' : ℕ → Option (List (ℕ × ℕ))}
  {chains chains' : List (List (Slot ν))} {f : UInt64 → Option ν} {E : Stop → Memory ν → Prop}
  {room : ℕ → Bool} {r : Result ν} {key : UInt64} {kv : HTKeyValue ν}

/-- What is in the chains after a removal is what is in the map after it. -/
theorem Removed.counts (hr : Removed room key t chains r t' chains') (h : Stored m ht t c chains)
    (hc : Counts t chains f) : ((∃ a, room a = false) ∧ r = (-1, none) ∧ t' = t ∧ chains' = chains) ∨
      r = ((Op.remove key).spec f).1 ∧ Counts t' chains' ((Op.remove key).spec f).2 := by
  cases hr with
  | failed hroom => exact .inl ⟨⟨_, hroom⟩, rfl, rfl, rfl⟩
  | absent habsent =>
    have hnot : f key = none := hc.maps.eq_none habsent
    have hspec : (Op.remove key).spec f = ((0, none), f) := by
      simp [Op.spec, hnot, Function.update_eq_self_iff]
    rw [hspec]
    exact .inr ⟨rfl, hc⟩
  | @removed l₁ l₂ s hchain hkey =>
    subst hkey
    obtain ⟨hperm, hother⟩ := h.chained.split hchain
    have hmaps := hc.maps.perm hperm
    have hf : f s.kv.key = some s.kv.value := hmaps.eq_some List.mem_cons_self
    have hset := flatten_set_perm_append (List.getElem?_eq_some_iff.1 hchain).1 (l₁ ++ l₂)
    have hspec : (Op.remove s.kv.key).spec f =
        ((1, some s.kv), Function.update f s.kv.key none) := by
      simp [Op.spec, hf]
    rw [hspec]
    refine .inr ⟨rfl, (hmaps.tail fun r hr => (hother r hr).2).perm hset.symm, ?_⟩
    have hlength := hperm.length_eq
    rw [List.length_cons, ← hset.length_eq] at hlength
    dsimp only
    rw [hc.count, hlength, UInt64.ofNat_add]
    exact add_sub_cancel_right _ _

theorem LookedUp.eq (hr : LookedUp room key chains r) (hc : Counts t chains f) :
    ((∃ a, room a = false) ∧ r = (-1, none)) ∨ r = ((Op.lookup key).spec f).1 := by
  cases hr with
  | failed hroom => exact .inl ⟨⟨_, hroom⟩, rfl⟩
  | absent habsent => exact .inr (by simp [Op.spec, hc.maps.eq_none habsent])
  | found hs hkey =>
    subst hkey
    exact .inr (by simp [Op.spec, hc.maps.eq_some hs])

/-- What is in the chains after an insert is what is in the map after it, if it does not fail. -/
theorem Inserted.counts {fits : Prop} (hi : Inserted room fits kv t chains r t' chains')
    (h : Stored m ht t c chains) (hc : Counts t chains f) :
    ((∃ a, room a = false) ∧ fits ∧ r = (0, none) ∧ t' = { t with wrt := t.wrt + 1 } ∧
        chains' = chains) ∨
      (¬fits ∧ r = (0, none) ∧ t' = { t with
        wrt := t.wrt + 1, numElements := t.numElements + 1 } ∧ chains' = chains) ∨
      fits ∧ r = ((Op.insert kv).spec f).1 ∧ Counts t' chains' ((Op.insert kv).spec f).2 ∧
        ∃ n, t' = { t with wrt := t.wrt + 1, numElements := n } := by
  cases hi with
  | failed hroom hfits => exact .inl ⟨⟨_, hroom⟩, hfits, rfl, rfl, rfl⟩
  | full hfits => exact .inr (.inl ⟨hfits, rfl, rfl, rfl⟩)
  | @fresh chain s hfits hchain habsent hs =>
    subst hs
    have hspec : (Op.insert s.kv).spec f =
        ((1, none), Function.update f s.kv.key (some s.kv.value)) := by
      simp [Op.spec, hc.maps.eq_none habsent]
    have hset := flatten_set_perm_append (List.getElem?_eq_some_iff.1 hchain).1 (s :: chain)
    have hperm := (flatten_perm_append hchain).cons s
    rw [hspec]
    refine .inr (.inr ⟨hfits, rfl, ⟨?_, ?_⟩, _, rfl⟩)
    · exact (Maps.cons hc.maps habsent).perm (hperm.trans hset.symm)
    · have hlength := (hperm.trans hset.symm).length_eq
      rw [List.length_cons] at hlength
      dsimp only
      rw [hc.count, ← hlength, UInt64.ofNat_add]
      rfl
  | @replaced l₁ l₂ s hfits hchain hkey =>
    obtain ⟨k, v⟩ := kv
    subst hkey
    obtain ⟨hperm, hother⟩ := h.chained.split hchain
    have hmaps := hc.maps.perm hperm
    have hspec : (Op.insert ⟨s.kv.key, v⟩).spec f =
        ((2, some s.kv), Function.update f s.kv.key (some v)) := by
      simp [Op.spec, hmaps.eq_some List.mem_cons_self]
    set s' : Slot ν := { s with kv := { s.kv with value := v } }
    have hset := flatten_set_perm_append (List.getElem?_eq_some_iff.1 hchain).1 (l₁ ++ s' :: l₂)
    have hmiddle : (l₁ ++ s' :: l₂ ++
        (chains.set (hashKeyToBucketNum t s.kv.key).toNat []).flatten).Perm
        (s' :: (l₁ ++ l₂ ++ (chains.set (hashKeyToBucketNum t s.kv.key).toNat []).flatten)) := by
      rw [List.append_assoc, List.cons_append, List.append_assoc]
      exact List.perm_middle
    rw [hspec]
    refine .inr (.inr ⟨hfits, rfl, ⟨?_, ?_⟩, t.numElements, rfl⟩)
    · have hcons := Maps.cons (s := s') (hmaps.tail fun r hr => (hother r hr).2)
        fun r hr => (hother r hr).2
      rw [Function.update_idem] at hcons
      exact hcons.perm (hset.trans hmiddle).symm
    · have hlength := hperm.length_eq
      have hlength' := (hset.trans hmiddle).length_eq
      rw [List.length_cons] at hlength hlength'
      dsimp only
      rw [hc.count, hlength, ← hlength']

end

/-! ## Whole runs -/

/-- What the calls on a finite map return, and the map after them. -/
def specRun (f : UInt64 → Option ν) : List (Op ν) → List (Result ν) × (UInt64 → Option ν)
  | [] => ([], f)
  | o :: l => ((o.spec f).1 :: (specRun (o.spec f).2 l).1, (specRun (o.spec f).2 l).2)

/-- The number of keys of a map. -/
noncomputable def size (f : UInt64 → Option ν) : ℕ := {k | f k ≠ none}.ncard

/-- At each insert, the map has less than three keys for each bucket. -/
def Unloaded (numBuckets : ℕ) (f : UInt64 → Option ν) (ops : List (Op ν)) : Prop :=
  ∀ pre kv post, ops = pre ++ .insert kv :: post → size (specRun f pre).2 < 3 * numBuckets

/-- A memory with room for everything, before the first allocation. -/
def Memory.empty : Memory ν where
  lists := { nodes := fun _ => none, heads := fun _ => none, next := 0, room := fun _ => true }
  entries _ := none
  tables _ := none

section

variable {m m' : Memory ν} {ht : ℕ} {t : HashTableRecord} {c : ℕ → Option (List (ℕ × ℕ))}
  {chains : List (List (Slot ν))} {f : UInt64 → Option ν} {E : Stop → Memory ν → Prop}
  {grow : ℕ → TableM ν Unit} {ops : List (Op ν)}

/-- The chains are new and empty, if there is room for all of them. -/
theorem wp_allocateBuckets {m : LinkedList.Memory ℕ} {E : Stop → LinkedList.Memory ℕ → Prop}
    (n : ℕ) (buckets : List ℕ) (h : Represents m c) :
    wp (allocateBuckets n buckets) (fun r m' => m'.room = m.room ∧ m.next ≤ m'.next ∧
      ∃ c', Represents m' c' ∧ (∀ b < m.next, b ∉ buckets → c' b = c b) ∧
        ((∃ a, m.room a = false) ∧ r = none ∨ ∃ l, r = some (buckets ++ l) ∧ l.length = n ∧
          l.Nodup ∧ (∀ b ∈ l, c' b = some [] ∧ m.next ≤ b) ∧ ∀ b < m.next, c' b = c b)) E m := by
  induction n generalizing m c buckets with
  | zero =>
    exact ⟨rfl, le_rfl, c, h, fun _ _ _ => rfl, .inr ⟨[], by simp, rfl, List.nodup_nil,
      fun b hb => absurd hb List.not_mem_nil, fun _ _ => rfl⟩⟩
  | succ n ih =>
    rw [allocateBuckets, wp_bind]
    refine wp_mono (wp_allocateLinkedList h) ?_ fun _ _ hE => hE
    rintro r m₁ ⟨rfl, hroom₁, hnext₁, h₁⟩
    cases hroom : m.room m.next with
    | false =>
      rw [hroom] at h₁
      refine ⟨hroom₁, (Nat.le_succ _).trans hnext₁.ge, fun b => if b ∈ buckets then none else c b,
        h₁.drop le_rfl ?_ rfl, fun b _ hb => if_neg hb, .inl ⟨⟨_, hroom⟩, rfl⟩⟩
      intro b l hl
      by_cases hb : b ∈ buckets
      · rw [if_pos hb] at hl
        cases hl
      · rw [if_neg hb] at hl
        exact ⟨hl, if_neg hb⟩
    | true =>
      rw [hroom, if_pos rfl] at h₁
      refine wp_mono (ih (buckets ++ [m.next]) h₁) ?_ fun _ _ hE => hE
      rintro r m' ⟨hroom', hnext', c', h', hother, hr⟩
      refine ⟨hroom'.trans hroom₁, by omega, c', h', fun b hb hmem => ?_, ?_⟩
      · refine (hother b (by omega) ?_).trans (Function.update_of_ne hb.ne _ _)
        rw [List.mem_append, List.mem_singleton, not_or]
        exact ⟨hmem, hb.ne⟩
      · rcases hr with ⟨hfull, rfl⟩ | ⟨l, rfl, hlength, hnodup, hl, hc'⟩
        · exact .inl ⟨hroom₁ ▸ hfull, rfl⟩
        · refine .inr ⟨m.next :: l, by simp, by rw [List.length_cons, hlength], ?_, ?_, ?_⟩
          · refine List.nodup_cons.2 ⟨fun hmem => ?_, hnodup⟩
            have := (hl _ hmem).2
            omega
          · intro b hb
            rcases List.mem_cons.1 hb with rfl | hb
            · exact ⟨(hc' _ (by omega)).trans (Function.update_self ..), le_rfl⟩
            · have := hl b hb
              exact ⟨this.1, by omega⟩
          · intro b hb
            exact (hc' b (by omega)).trans (Function.update_of_ne hb.ne _ _)

/-- A new table is empty. -/
theorem wp_allocateHashTable (n : UInt32) (h : Represents m.lists c) :
    wp (allocateHashTable n) (fun r m' => ∃ c', Represents m'.lists c' ∧ Quiet m m' c c' ∧
      ((n = 0 ∨ ∃ a, m.lists.room a = false) ∧ r = none ∨ ∃ ht t, r = some ht ∧ n ≠ 0 ∧
        m.lists.next ≤ ht ∧ (∀ b ∈ t.buckets, m.lists.next ≤ b) ∧ t.numBuckets = n.toUInt64 ∧
          Tight m' ht t c' (List.replicate n.toNat []) fun _ => none)) E m := by
  have hlt := n.toNat_lt
  rw [allocateHashTable, wp_ite]
  refine ⟨fun hzero => ⟨c, h, ⟨fun _ _ => rfl, fun _ _ => rfl, fun _ _ => rfl, rfl, le_rfl⟩,
    .inl ⟨.inl hzero, rfl⟩⟩, fun hn => ?_⟩
  have hpos : 0 < n.toNat := Nat.pos_of_ne_zero fun hzero => hn (UInt32.toNat.inj hzero)
  rw [wp_bind, wp_onLists]
  refine wp_malloc ?_
  cases hroom : m.lists.room m.lists.next with
  | false =>
    exact ⟨c, h.mono (Nat.le_succ _) rfl rfl, ⟨fun _ _ => rfl, fun _ _ => rfl, fun _ _ => rfl, rfl,
      Nat.le_succ _⟩, .inl ⟨.inr ⟨_, hroom⟩, rfl⟩⟩
  | true =>
    rw [if_pos rfl]
    dsimp only
    rw [wp_bind, wp_onLists]
    refine wp_malloc ?_
    dsimp only
    cases hroom₁ : m.lists.room (m.lists.next + 1) with
    | false =>
      exact ⟨c, h.mono (by dsimp only; omega) rfl rfl, ⟨fun _ _ => rfl, fun _ _ => rfl,
        fun _ _ => rfl, rfl, by dsimp only; omega⟩, .inl ⟨.inr ⟨_, hroom₁⟩, rfl⟩⟩
    | true =>
      rw [if_pos rfl]
      dsimp only
      rw [wp_bind, wp_onLists]
      refine wp_mono (wp_allocateBuckets n.toNat [] (c := c)
        (h.mono (by dsimp only; omega) rfl rfl)) ?_ fun _ _ hE => hE
      rintro r m' ⟨hroom', hnext', c', h', hother, hr⟩
      dsimp only at hnext' hr hother
      have hlists : ∀ b < m.lists.next, c' b = c b :=
        fun b hb => hother b (by omega) List.not_mem_nil
      rcases hr with ⟨hfull, rfl⟩ | ⟨l, rfl, hlength, hnodup, hl, -⟩
      · exact ⟨c', h', ⟨hlists, fun _ _ => rfl, fun _ _ => rfl, hroom', by dsimp only; omega⟩,
          .inl ⟨.inr hfull, rfl⟩⟩
      · have hflatten : (List.replicate n.toNat ([] : List (Slot ν))).flatten = [] :=
          List.flatten_replicate_nil
        rw [List.nil_append, wp_bind, wp_modify, wp_pure]
        refine ⟨c', h', ⟨hlists, fun _ _ => rfl, fun k hk => Function.update_of_ne hk.ne _ _, hroom',
          by dsimp only; omega⟩, .inr ⟨m.lists.next, _, rfl, hn, le_rfl, fun b hb => ?_, rfl,
          ⟨⟨Function.update_self .., by dsimp only; omega, ⟨h', ?_, ⟨hlength, List.length_replicate⟩,
            hnodup, ?_, ?_, ?_, ?_⟩, hpos, hlt⟩, ⟨?_, ?_⟩, rfl, rfl, rfl⟩⟩⟩
        · have := (hl b hb).2
          omega
        · intro i b chain hb hchain
          obtain rfl := List.eq_of_mem_replicate (List.mem_of_getElem? hchain)
          exact (hl b (List.mem_of_getElem? hb)).1
        · intro s hs
          rw [hflatten] at hs
          cases hs
        · rw [hflatten]
          exact List.nodup_nil
        · rw [hflatten]
          exact List.nodup_nil
        · intro i chain hchain s hs
          obtain rfl := List.eq_of_mem_replicate (List.mem_of_getElem? hchain)
          cases hs
        · intro k v
          rw [hflatten]
          simp
        · rw [hflatten]
          rfl

theorem Tight.size_eq (h : Tight m ht t c chains f) : size f = chains.flatten.length := by
  have hkeys : {k | f k ≠ none} = (chains.flatten.map fun s => s.kv.key).toFinset := by
    ext k
    simp only [Set.mem_ofPred_eq, List.coe_toFinset, List.mem_map]
    constructor
    · intro hk
      obtain ⟨v, hv⟩ := Option.ne_none_iff_exists'.1 hk
      obtain ⟨s, hs, hkv⟩ := (h.counts.maps k v).1 hv
      exact ⟨s, hs, congrArg HTKeyValue.key hkv⟩
    · rintro ⟨s, hs, rfl⟩
      rw [h.counts.maps.eq_some hs]
      exact Option.some_ne_none _
  rw [size, hkeys, Set.ncard_coe_finset, List.toFinset_card_of_nodup h.stored.chained.keys,
    List.length_map]

theorem size_update_le (f : UInt64 → Option ν) (key : UInt64) (v : Option ν) :
    size (Function.update f key v) ≤ size f + 1 := by
  have hsub : {k | Function.update f key v k ≠ none} ⊆ insert key {k | f k ≠ none} := by
    intro k hk
    by_cases hkey : k = key
    · exact .inl hkey
    · refine .inr ?_
      rwa [Set.mem_ofPred_eq, Function.update_of_ne hkey] at hk
  exact (Set.ncard_le_ncard hsub (Set.toFinite _)).trans (Set.ncard_insert_le _ _)

theorem size_update_none_le (f : UInt64 → Option ν) (key : UInt64) (hf : {k | f k ≠ none}.Finite) :
    size (Function.update f key none) ≤ size f := by
  refine Set.ncard_le_ncard (fun k hk => ?_) hf
  by_cases hkey : k = key
  · rw [hkey, Set.mem_ofPred_eq, Function.update_self] at hk
    exact absurd rfl hk
  · rwa [Set.mem_ofPred_eq, Function.update_of_ne hkey] at hk

/-- Each call adds at most one key. -/
theorem size_specRun_le (f : UInt64 → Option ν) (ops : List (Op ν)) :
    size (specRun f ops).2 ≤ size f + ops.length := by
  induction ops generalizing f with
  | nil => exact le_rfl
  | cons o l ih =>
    have hstep : size (o.spec f).2 ≤ size f + 1 := by
      cases o with
      | insert kv => exact size_update_le f kv.key _
      | lookup key => exact Nat.le_succ _
      | remove key => exact size_update_le f key _
    calc size (specRun (o.spec f).2 l).2 ≤ size (o.spec f).2 + l.length := ih _
      _ ≤ size f + (o :: l).length := by
        rw [List.length_cons]
        omega

/-- A call does what it does on a finite map, if there is room for everything and the table is
    not resized. -/
theorem Tight.wp_call (h : Tight m ht t c chains f) (grow : ℕ → TableM ν Unit) (o : Op ν)
    (hroom : ∀ a, m.lists.room a)
    (hload : ∀ kv, o = .insert kv → t.numElements < 3 * t.numBuckets) :
    wp (o.call grow ht) (fun r m' => r = (o.spec f).1 ∧ ∃ t' c' chains',
      Tight m' ht t' c' chains' (o.spec f).2 ∧ t'.numBuckets = t.numBuckets ∧
        ∀ a, m'.lists.room a) E m := by
  have hwrt : 0 < t.wrt := by
    rw [h.wrt]
    exact Nat.one_pos
  have hfull : ¬∃ a, m.lists.room a = false := by
    rintro ⟨a, ha⟩
    exact Bool.false_ne_true (ha.symm.trans (hroom a))
  cases o with
  | insert kv =>
    rw [Op.call, insertHashTable_eq, wp_bind]
    refine wp_waitWrt h.stored.table hwrt ?_
    rw [wp_bind]
    refine wp_resizeHashtable_of_lt (Function.update_self ..) (hload kv rfl) ?_
    refine wp_mono (wp_insertEntry h.stored.lock.stored kv) ?_ fun _ _ hE => hE
    rintro r m' ⟨t', c', chains', chain, -, hleft, hi⟩
    have hroom' : ∀ a, m'.lists.room a := fun a => by
      rw [hleft.stays.room]
      exact hroom a
    have hcounts : Counts { t with wrt := t.wrt - 1 } chains f := ⟨h.counts.maps, h.counts.count⟩
    have hback : t.wrt - 1 + 1 = 1 := (Nat.sub_add_cancel hwrt).trans h.wrt
    rcases hi.counts h.stored.lock.stored hcounts with
      ⟨hex, -⟩ | ⟨hfits, -⟩ | ⟨-, rfl, hc, n, rfl⟩
    · exact absurd hex hfull
    · exact absurd (.inr (.inr ⟨hroom _, hroom _⟩)) hfits
    · exact ⟨rfl, _, c', chains', ⟨hleft.stored, hc, hback, h.mutex, h.readcount⟩, rfl, hroom'⟩
  | lookup key =>
    refine wp_mono (wp_lookupHashTable h.stored hwrt h.mutex h.readcount key) ?_ fun _ _ hE => hE
    rintro r m' ⟨hleft, hr⟩
    have hroom' : ∀ a, m'.lists.room a := fun a => by
      rw [hleft.stays.room]
      exact hroom a
    rcases hr.eq h.counts with ⟨hex, -⟩ | rfl
    · exact absurd hex hfull
    · exact ⟨rfl, t, c, chains, ⟨hleft.stored, h.counts, h.wrt, h.mutex, h.readcount⟩, rfl, hroom'⟩
  | remove key =>
    refine wp_mono (wp_removeFromHashTable h.stored hwrt key) ?_ fun _ _ hE => hE
    rintro r m' ⟨⟨t', c', chains', hleft, hr⟩, -⟩
    have hroom' : ∀ a, m'.lists.room a := fun a => by
      rw [hleft.stays.room]
      exact hroom a
    have hlocks : t'.wrt = t.wrt ∧ t'.mutex = t.mutex ∧ t'.readcount = t.readcount ∧
        t'.numBuckets = t.numBuckets := by
      cases hr <;> exact ⟨rfl, rfl, rfl, rfl⟩
    rcases hr.counts h.stored h.counts with ⟨hex, -⟩ | ⟨rfl, hc⟩
    · exact absurd hex hfull
    · exact ⟨rfl, t', c', chains', ⟨hleft.stored, hc, hlocks.1.trans h.wrt,
        hlocks.2.1.trans h.mutex, hlocks.2.2.1.trans h.readcount⟩, hlocks.2.2.2, hroom'⟩

/-- The number of elements is what is counted, as long as it is small. -/
theorem Tight.toNat_numElements (h : Tight m ht t c chains f)
    (hload : chains.flatten.length ≤ 3 * t.numBuckets.toNat) :
    t.numElements.toNat = chains.flatten.length := by
  have hlt := h.stored.lt
  rw [h.counts.count, UInt64.toNat_ofNat']
  exact Nat.mod_eq_of_lt (by omega)

/-- What is counted is compared with the number of buckets. -/
theorem Tight.lt_of_size (h : Tight m ht t c chains f) (hload : size f < 3 * t.numBuckets.toNat) :
    t.numElements < 3 * t.numBuckets := by
  have hlt := h.stored.lt
  have hthree : (3 : UInt64).toNat = 3 := rfl
  rw [h.size_eq] at hload
  rw [UInt64.lt_iff_toNat_lt, UInt64.toNat_mul, hthree, h.toNat_numElements hload.le]
  omega

/-- Calls that do not find a map too full do not make it so. -/
theorem Unloaded.size_le {numBuckets : ℕ} (hload : Unloaded numBuckets f ops)
    (hsize : size f ≤ 3 * numBuckets) : size (specRun f ops).2 ≤ 3 * numBuckets := by
  induction ops generalizing f with
  | nil => exact hsize
  | cons o l ih =>
    refine ih (fun pre kv post hl => hload (o :: pre) kv post (congrArg (o :: ·) hl)) ?_
    cases o with
    | insert kv => exact (size_update_le f kv.key _).trans (hload [] kv l rfl)
    | lookup key => exact hsize
    | remove key =>
      have hfinite : {k | f k ≠ none}.Finite := Set.toFinite _
      exact (size_update_none_le f key hfinite).trans hsize

/-- The calls do what they do on a finite map, one after the other. -/
theorem Tight.wp_calls (h : Tight m ht t c chains f) (hroom : ∀ a, m.lists.room a)
    (hload : Unloaded t.numBuckets.toNat f ops) :
    wp (calls grow ht ops) (fun rs m' => rs = (specRun f ops).1 ∧
      ∃ t' c' chains', Tight m' ht t' c' chains' (specRun f ops).2 ∧
        t'.numBuckets = t.numBuckets ∧ ∀ a, m'.lists.room a) E m := by
  induction ops generalizing m t c chains f with
  | nil => exact ⟨rfl, t, c, chains, h, rfl, hroom⟩
  | cons o l ih =>
    have hfirst : ∀ kv, o = .insert kv → t.numElements < 3 * t.numBuckets := by
      rintro kv rfl
      exact h.lt_of_size (hload [] kv l rfl)
    rw [calls, wp_bind]
    refine wp_mono (h.wp_call grow o hroom hfirst) ?_ fun _ _ hE => hE
    rintro r m' ⟨rfl, t', c', chains', h', ht', hroom'⟩
    have hrest : Unloaded t'.numBuckets.toNat (o.spec f).2 l := by
      rintro pre kv post rfl
      rw [ht']
      exact hload (o :: pre) kv post rfl
    rw [wp_bind]
    refine wp_mono (ih h' hroom' hrest) ?_ fun _ _ hE => hE
    rintro rs m'' ⟨rfl, t'', c'', chains'', h'', ht'', hroom''⟩
    exact ⟨rfl, t'', c'', chains'', h'', ht''.trans ht', hroom''⟩

/-- What holds of a table that is not too full, where there is room for all. -/
theorem Tight.holds (h : Tight m ht t c chains f) (hroom : ∀ a, m.lists.room a)
    (hsize : size f ≤ 3 * t.numBuckets.toNat) : Holds m ht t c chains f := by
  rw [h.size_eq] at hsize
  exact ⟨h.stored.table, h.stored.chained, h.counts.maps, h.stored.pos, h.stored.lt,
    h.toNat_numElements hsize, hsize, h.wrt, h.mutex, h.readcount, hroom⟩

/-- A new table with the calls made on it. -/
theorem exists_calls {n : UInt32} (hn : n ≠ 0) (grow : ℕ → TableM ν Unit)
    (hload : Unloaded n.toNat (fun _ => none) ops) :
    ∃ (ht : ℕ) (m m' : Memory ν), allocateHashTable n Memory.empty = .ok (some ht) m ∧
      calls grow ht ops m = .ok (specRun (fun _ => none) ops).1 m' ∧
      ∃ t c chains, Tight m' ht t c chains (specRun (fun _ => none) ops).2 ∧
        t.numBuckets = n.toUInt64 ∧ ∀ a, m'.lists.room a := by
  have hempty : Represents (Memory.empty : Memory ν).lists fun _ => none := by
    constructor <;> simp
  obtain ⟨r, m, hr, c, -, hquiet, hm⟩ := ok_of_wp (wp_allocateHashTable n hempty)
  rcases hm with ⟨hzero | ⟨a, ha⟩, -⟩ | ⟨ht, t, rfl, -, -, -, hbuckets, h⟩
  · exact absurd hzero hn
  · exact absurd ha.symm Bool.false_ne_true
  · have hroom : ∀ a, m.lists.room a := fun a => by
      rw [hquiet.room]
      rfl
    have hload' : Unloaded t.numBuckets.toNat (fun _ => none) ops := by
      rw [hbuckets, UInt32.toNat_toUInt64]
      exact hload
    obtain ⟨rs, m', hrs, rfl, t', c', chains', h', hbuckets', hroom'⟩ :=
      ok_of_wp (h.wp_calls hroom hload')
    exact ⟨ht, m, m', hr, hrs, t', c', chains', h', hbuckets'.trans hbuckets, hroom'⟩

/-- A new table does what a finite map does, as long as no insert finds it too full, whatever
    would happen then: the calls return the same, and the map is what is in the chains. -/
theorem calls_refine {n : UInt32} (hn : n ≠ 0) (grow : ℕ → TableM ν Unit)
    (hload : Unloaded n.toNat (fun _ => none) ops) :
    ∃ (ht : ℕ) (m m' : Memory ν), allocateHashTable n Memory.empty = .ok (some ht) m ∧
      calls grow ht ops m = .ok (specRun (fun _ => none) ops).1 m' ∧
      ∃ t c chains, Holds m' ht t c chains (specRun (fun _ => none) ops).2 ∧
        t.numBuckets = n.toUInt64 := by
  obtain ⟨ht, m, m', hm, hcalls, t, c, chains, h, hbuckets, hroom⟩ := exists_calls hn grow hload
  refine ⟨ht, m, m', hm, hcalls, t, c, chains, h.holds hroom ?_, hbuckets⟩
  rw [hbuckets, UInt32.toNat_toUInt64]
  refine hload.size_le ?_
  simp [size]

end

/-- A few calls do not fill a new table. -/
theorem unloaded_of_length_le {numBuckets : ℕ} {ops : List (Op ν)}
    (hlength : ops.length ≤ 3 * numBuckets) : Unloaded numBuckets (fun _ => none) ops := by
  rintro pre kv post rfl
  have hsize := size_specRun_le (fun _ => none) pre
  have hempty : size (fun _ : UInt64 => (none : Option ν)) = 0 := by
    simp [size]
  rw [List.length_append, List.length_cons] at hlength
  omega

/-- A key that is inserted, overwritten and removed. -/
def overwritten : List (Op ℕ) := [.insert ⟨5, 10⟩, .insert ⟨5, 11⟩, .remove 5]

theorem calls_refine_overwritten : ∃ (ht : ℕ) (m m' : Memory ℕ),
    allocateHashTable 1 Memory.empty = .ok (some ht) m ∧
      calls (fun _ => throw .loaded) ht overwritten m =
        .ok [(1, none), (2, some ⟨5, 10⟩), (1, some ⟨5, 11⟩)] m' := by
  have hload : Unloaded (1 : UInt32).toNat (fun _ => none) overwritten :=
    unloaded_of_length_le (by decide)
  obtain ⟨ht, m, m', hallocate, hcalls, -⟩ :=
    calls_refine (by decide) (fun _ => throw .loaded) hload
  have hspec : (specRun (fun _ => none) overwritten).1 =
      [(1, none), (2, some ⟨5, 10⟩), (1, some ⟨5, 11⟩)] := by decide
  exact ⟨ht, m, m', hallocate, hspec ▸ hcalls⟩

end Cse461.Table.HashTable
