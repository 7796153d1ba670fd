import Cse461.Table.Calls

/-!
# Hash table iterators

`HTIter` of `HashTable.c`: a cursor in a chain, with the number of its bucket. Its client
gets one entry after the other, and goes on after each or deletes it (`iterate`).

* What a field holds that is not written after the allocation of the record is a parameter.
* `HTIteratorNext` does not look whether `LLMakeIterator` failed, nor `HTIteratorDelete`
  whether `RemoveFromHashTable` did.

The run of a client visits each entry once, and deletes those that it deletes, if and only if
none of its allocations fails (`iteratesOnce_iff`).
-/

namespace Cse461.Table.HashTable

open Library LinkedList

variable {ν : Type}

/-- `HTIterRecord`. -/
structure HTIterRecord where
  isValid : Bool
  ht : ℕ
  bucketNum : UInt64
  bucketIt : Option LLIterSt

/-! ## The functions -/

/-- The loop of `HashTableMakeIterator`. -/
def firstBucket (t : HashTableRecord) : ℕ → ℕ → TableM ν (Option ℕ)
  | 0, _ => return none
  | rounds + 1, i => do
    if 0 < (← onLists (numElementsInLinkedList (← chainAt t i))) then
      return some i
    else
      firstBucket t rounds (i + 1)

/-- `HashTableMakeIterator`, given what `bucket_num` of the new record holds. -/
def hashTableMakeIterator (uninit : UInt64) (table : ℕ) : TableM ν (Option HTIterRecord) := do
  match ← onLists malloc with
  | none => return none
  | some _ =>
    let t ← tableAt table
    if t.numElements = 0 then
      return some ⟨false, table, uninit, none⟩
    else
      let first ← firstBucket t t.numBuckets.toNat 0
      let bucketNum := (first.map UInt64.ofNat).getD uninit
      match ← onLists (llMakeIterator (← chainAt t bucketNum.toNat) 0) with
      | none => return none
      | some it => return some ⟨true, table, bucketNum, some it⟩

/-- The record of the list iterator. -/
def bucketItAt (iter : HTIterRecord) : TableM ν LLIterSt :=
  match iter.bucketIt with
  | some it => return it
  | none => throw .dangling

/-- The loop of `HTIteratorNext`, which returns the chain that it stops at. -/
def nextBucket (t : HashTableRecord) : ℕ → UInt64 → TableM ν (UInt64 × Option ℕ)
  | 0, _ => throw .unbounded
  | fuel + 1, bucketNum => do
    let bucketNum := bucketNum + 1
    if t.numBuckets ≤ bucketNum then
      return (bucketNum, none)
    else
      let nextChain ← chainAt t bucketNum.toNat
      if (← onLists (numElementsInLinkedList nextChain)) = 0 then
        nextBucket t fuel bucketNum
      else
        return (bucketNum, some nextChain)

/-- `HTIteratorNext`, which returns the iterator too. The loop takes a round for each bucket
    ahead, and one more from a number that has no successor. -/
def htIteratorNext (iter : HTIterRecord) : TableM ν (ℤ × HTIterRecord) := do
  if ¬iter.isValid then
    return (0, iter)
  else
    let it ← bucketItAt iter
    if ← onLists (llIteratorHasNext it) then
      let (r, it) ← onLists (llIteratorNext it)
      return (if r then 1 else 0, { iter with bucketIt := some it })
    else
      let t ← tableAt iter.ht
      let (bucketNum, nextChain) ← nextBucket t (t.numBuckets.toNat + 1) iter.bucketNum
      match nextChain with
      | none => return (0, { iter with isValid := false, bucketNum := bucketNum })
      | some nextChain =>
        let it ← onLists (llMakeIterator nextChain 0)
        return (1, { iter with bucketNum := bucketNum, bucketIt := it })

/-- `HTIteratorPastEnd`. -/
def htIteratorPastEnd (iter : HTIterRecord) : TableM ν Bool := do
  if ¬iter.isValid then return true else return (← tableAt iter.ht).numElements = 0

/-- `HTIteratorGet`, which returns `*keyvalue` too. -/
def htIteratorGet (iter : HTIterRecord) : TableM ν (Result ν) := do
  if ← htIteratorPastEnd iter then
    return (0, none)
  else
    let payload ← onLists (llIteratorGetPayload (← bucketItAt iter))
    return (1, some (← entryAt payload))

/-- `HTIteratorDelete`, which returns `*keyvalue` and the iterator too. -/
def htIteratorDelete (iter : HTIterRecord) : TableM ν (Result ν × HTIterRecord) := do
  match ← htIteratorGet iter with
  | (_, none) => return ((0, none), iter)
  | (_, some kv) =>
    let (res, iter) ← htIteratorNext iter
    let (_, keyvalue) ← removeFromHashTable iter.ht kv.key
    return ((if res = 0 then 2 else 1, keyvalue), iter)

/-! ## Clients -/

/-- What a client got from `HTIteratorGet`, and from `HTIteratorDelete` if it called it. -/
structure Visit (ν : Type) where
  got : Result ν
  deleted : Option (Result ν)

/-- A client gets an entry, and then deletes it or goes on. -/
def visit (delete : Bool) (iter : HTIterRecord) : TableM ν (Visit ν × HTIterRecord) := do
  let got ← htIteratorGet iter
  if delete then
    let (r, iter) ← htIteratorDelete iter
    return (⟨got, some r⟩, iter)
  else
    let (_, iter) ← htIteratorNext iter
    return (⟨got, none⟩, iter)

/-- A client visits entries until the iterator is past the end, and deletes the one of round `k`
    if `delete k`. -/
def iterate (delete : ℕ → Bool) : ℕ → ℕ → HTIterRecord → TableM ν (List (Visit ν))
  | 0, _, _ => throw .unbounded
  | fuel + 1, k, iter => do
    if ← htIteratorPastEnd iter then
      return []
    else
      let (v, iter) ← visit (delete k) iter
      return v :: (← iterate delete fuel (k + 1) iter)

/-! ## What the functions do -/

/-- An iterator that is on a slot of the chain `b`, in the bucket `i`. -/
def HTIterRecord.on (ht b i : ℕ) (s : Slot ν) : HTIterRecord :=
  ⟨true, ht, UInt64.ofNat i, some ⟨b, some s.node⟩⟩

section

variable {m m' : Memory ν} {ht b : ℕ} {t : HashTableRecord} {c : ℕ → Option (List (ℕ × ℕ))}
  {chains pre post : List (List (Slot ν))} {l₁ l₂ : List (Slot ν)} {s : Slot ν}
  {f : UInt64 → Option ν} {E : Stop → Memory ν → Prop}

/-- The bucket of a chain. -/
theorem Stored.bucket (h : Stored m ht t c chains) {chain : List (Slot ν)}
    (hchains : chains = pre ++ chain :: post) : ∃ b, t.buckets[pre.length]? = some b ∧
      c b = some (chain.map Slot.cell) ∧ pre.length + 1 + post.length = t.numBuckets.toNat := by
  have hlength := h.chained.length
  have hsum : chains.length = pre.length + (post.length + 1) := by
    rw [hchains, List.length_append, List.length_cons]
  have hlt : pre.length < t.buckets.length := by omega
  have hget : chains[pre.length]? = some chain := by
    rw [hchains, List.getElem?_append_right le_rfl, Nat.sub_self]
    rfl
  exact ⟨_, List.getElem?_eq_getElem hlt, h.chained.cells _ _ _ (List.getElem?_eq_getElem hlt) hget,
    by omega⟩

theorem ofNat_add_one (n : ℕ) : UInt64.ofNat n + 1 = UInt64.ofNat (n + 1) := by
  rw [UInt64.ofNat_add]
  rfl

/-- The number of a bucket is small. -/
theorem Stored.toNat_bucket (h : Stored m ht t c chains) {i : ℕ} (hi : i ≤ t.numBuckets.toNat) :
    (UInt64.ofNat i).toNat = i := by
  have hlt := h.lt
  rw [UInt64.toNat_ofNat']
  exact Nat.mod_eq_of_lt (by omega)

/-- The search for the first bucket that is not empty. -/
theorem wp_firstBucket (h : Stored m ht t c chains) (hchains : chains = pre ++ post) :
    wp (firstBucket t post.length pre.length) (fun r m' => m' = m ∧
      (post.flatten = [] ∧ r = none ∨ ∃ skipped s l post', post = skipped ++ (s :: l) :: post' ∧
        skipped.flatten = [] ∧ r = some (pre.length + skipped.length))) E m := by
  induction post generalizing pre with
  | nil => exact ⟨rfl, .inl ⟨rfl, rfl⟩⟩
  | cons chain post ih =>
    obtain ⟨b, hb, hcells, -⟩ := h.bucket hchains
    rw [List.length_cons, firstBucket, wp_bind]
    refine wp_chainAt hb ?_
    rw [wp_bind, wp_onLists]
    refine wp_numElementsInLinkedList h.chained.lists hcells ?_
    rw [List.length_map]
    cases chain with
    | cons s l => exact ⟨rfl, .inr ⟨[], s, l, post, rfl, rfl, rfl⟩⟩
    | nil =>
      rw [List.length_nil, if_neg (lt_irrefl 0)]
      have hlength : pre.length + 1 = (pre ++ [[]]).length := by simp
      rw [hlength]
      refine wp_mono (ih (by simp [hchains])) ?_ fun _ _ hE => hE
      rintro r m' ⟨rfl, ⟨hnil, rfl⟩ | ⟨skipped, s, l, post', rfl, hskipped, rfl⟩⟩
      · exact ⟨rfl, .inl ⟨hnil, rfl⟩⟩
      · refine ⟨rfl, .inr ⟨[] :: skipped, s, l, post', rfl, hskipped, ?_⟩⟩
        rw [← hlength, List.length_cons]
        congr 1
        omega

/-- The search for the next bucket that is not empty. -/
theorem wp_nextBucket (h : Stored m ht t c chains) {chain : List (Slot ν)} {fuel : ℕ}
    (hchains : chains = pre ++ chain :: post) (hfuel : post.length < fuel) :
    wp (nextBucket t fuel (UInt64.ofNat pre.length)) (fun r m' => m' = m ∧
      (post.flatten = [] ∧ r.2 = none ∨ ∃ skipped s l post' b, post = skipped ++ (s :: l) :: post' ∧
        skipped.flatten = [] ∧ t.buckets[pre.length + 1 + skipped.length]? = some b ∧
        r = (UInt64.ofNat (pre.length + 1 + skipped.length), some b))) E m := by
  induction post generalizing pre chain fuel with
  | nil =>
    obtain ⟨-, -, -, hlength⟩ := h.bucket hchains
    obtain ⟨fuel, rfl⟩ := Nat.exists_eq_succ_of_ne_zero (Nat.ne_of_gt hfuel)
    have hle : t.numBuckets ≤ UInt64.ofNat pre.length + 1 := by
      have hlast : pre.length + 1 = t.numBuckets.toNat := hlength
      rw [ofNat_add_one, UInt64.le_iff_toNat_le, h.toNat_bucket hlast.le, hlast]
    rw [nextBucket, wp_ite]
    exact ⟨fun _ => ⟨rfl, .inl ⟨rfl, rfl⟩⟩, fun hnot => absurd hle hnot⟩
  | cons next post ih =>
    have hchains' : chains = (pre ++ [chain]) ++ next :: post := by simp [hchains]
    have hpre : (pre ++ [chain]).length = pre.length + 1 := by simp
    obtain ⟨b, hb, hcells, hlength⟩ := h.bucket hchains'
    obtain ⟨fuel, rfl⟩ := Nat.exists_eq_succ_of_ne_zero (Nat.ne_of_gt (Nat.zero_lt_of_lt hfuel))
    rw [hpre] at hb hlength
    have htoNat := h.toNat_bucket (i := pre.length + 1) (by omega)
    have hnot : ¬t.numBuckets ≤ UInt64.ofNat (pre.length + 1) := by
      rw [UInt64.le_iff_toNat_le, htoNat]
      omega
    rw [nextBucket, ofNat_add_one, if_neg hnot, wp_bind, htoNat]
    refine wp_chainAt hb ?_
    rw [wp_bind, wp_onLists]
    refine wp_numElementsInLinkedList h.chained.lists hcells ?_
    rw [List.length_map]
    cases next with
    | cons s l => exact ⟨rfl, .inr ⟨[], s, l, post, b, rfl, rfl, hb, rfl⟩⟩
    | nil =>
      have hrest := ih hchains' (Nat.lt_of_succ_lt_succ hfuel)
      rw [hpre] at hrest
      rw [List.length_nil, if_pos rfl]
      refine wp_mono hrest ?_ fun _ _ hE => hE
      rintro r m' ⟨rfl, ⟨hnil, hr⟩ | ⟨skipped, s, l, post', b', rfl, hskipped, hb', rfl⟩⟩
      · exact ⟨rfl, .inl ⟨hnil, hr⟩⟩
      · have hshift : pre.length + 1 + 1 + skipped.length =
            pre.length + 1 + ([] :: skipped).length := by
          rw [List.length_cons]
          omega
        rw [hshift] at hb' ⊢
        exact ⟨rfl, .inr ⟨[] :: skipped, s, l, post', b', rfl, hskipped, hb', rfl⟩⟩

/-- The chain after the empty ones. -/
theorem next_chain {i : ℕ} {skipped : List (List (Slot ν))}
    (hdrop : chains.drop i = skipped ++ (s :: l₂) :: post) (hskipped : skipped.flatten = []) :
    chains[i + skipped.length]? = some (s :: l₂) ∧
      (chains.drop i).flatten = s :: l₂ ++ (chains.drop (i + skipped.length + 1)).flatten ∧
      (chains.drop i).countP (· ≠ []) =
        (chains.drop (i + skipped.length + 1)).countP (· ≠ []) + 1 := by
  have hpost : chains.drop (i + skipped.length + 1) = post := by
    rw [Nat.add_assoc, ← List.drop_drop, hdrop, List.drop_length_add_append]
    rfl
  refine ⟨?_, ?_, ?_⟩
  · rw [← List.getElem?_drop, hdrop, List.getElem?_append_right le_rfl, Nat.sub_self]
    rfl
  · rw [hpost, hdrop, List.flatten_append, hskipped]
    rfl
  · have hzero : skipped.countP (· ≠ []) = 0 :=
      List.countP_eq_zero.2 fun q hq => by simp [List.flatten_eq_nil_iff.1 hskipped q hq]
    rw [hpost, hdrop, List.countP_append, hzero, List.countP_cons_of_pos (by simp), Nat.zero_add]

/-- An allocation that fails, or that nothing is written to. -/
def Memory.skip (m : Memory ν) : Memory ν :=
  { m with lists := { m.lists with next := m.lists.next + 1 } }

theorem Stored.skip (h : Stored m ht t c chains) : Left m ht t c chains m.skip t c chains :=
  h.quiet ⟨fun _ _ => rfl, fun _ _ => rfl, fun _ _ => rfl, rfl, Nat.le_succ _⟩
    (h.chained.lists.mono (Nat.le_succ _) rfl rfl)

/-- Where an iterator is: the slots `rest` are still to be visited, in the chain that it is in
    and in `ahead` other ones. -/
inductive At (ht : ℕ) (t : HashTableRecord) (chains : List (List (Slot ν))) :
    HTIterRecord → List (Slot ν) → ℕ → Prop
  | slot {i b : ℕ} {l₁ l₂ : List (Slot ν)} {s : Slot ν} :
      chains[i]? = some (l₁ ++ s :: l₂) → t.buckets[i]? = some b →
      At ht t chains (.on ht b i s) (s :: l₂ ++ (chains.drop (i + 1)).flatten)
        ((chains.drop (i + 1)).countP (· ≠ []))
  | off {iter : HTIterRecord} : iter.isValid = false → iter.ht = ht → At ht t chains iter [] 0

/-- An iterator went on. It is allocated anew in the next chain, and is lost if there is no room
    for it. -/
inductive Advanced (m : Memory ν) (ht : ℕ) (t : HashTableRecord) (chains : List (List (Slot ν)))
    (rest : List (Slot ν)) (ahead : ℕ) : HTIterRecord → Memory ν → Prop
  | near {iter : HTIterRecord} : At ht t chains iter rest ahead →
      Advanced m ht t chains rest ahead iter m
  | far {iter : HTIterRecord} {n : ℕ} : ahead = n + 1 → m.lists.room m.lists.next →
      At ht t chains iter rest n → Advanced m ht t chains rest ahead iter m.skip
  | lost {iter : HTIterRecord} {n : ℕ} : ahead = n + 1 → m.lists.room m.lists.next = false →
      rest ≠ [] → iter.ht = ht → iter.isValid → iter.bucketIt = none →
      Advanced m ht t chains rest ahead iter m.skip

/-- `HTIteratorNext`, from a slot. The slots before it in its chain do not matter, so that they
    and the slot itself may be deleted. -/
theorem wp_htIteratorNext (h : Stored m ht t c chains) {i : ℕ}
    (hchain : chains[i]? = some (l₁ ++ s :: l₂)) (hb : t.buckets[i]? = some b) :
    wp (htIteratorNext (.on ht b i s)) (fun r m' =>
      r.1 = (if l₂ ++ (chains.drop (i + 1)).flatten = [] then 0 else 1) ∧
      ∀ l₁', Advanced m ht t (chains.set i (l₁' ++ l₂)) (l₂ ++ (chains.drop (i + 1)).flatten)
        ((chains.drop (i + 1)).countP (· ≠ [])) r.2 m') E m := by
  obtain ⟨hi, hget⟩ := List.getElem?_eq_some_iff.1 hchain
  have hchains : chains = chains.take i ++ (l₁ ++ s :: l₂) :: chains.drop (i + 1) := by
    rw [← hget, List.getElem_cons_drop, List.take_append_drop]
  have hi' : (chains.take i).length = i := by
    rw [List.length_take]
    omega
  have hcells := h.chained.cells i b _ hb hchain
  rw [List.map_append, List.map_cons] at hcells
  have hset : ∀ l₁' : List (Slot ν), (chains.set i (l₁' ++ l₂)).drop (i + 1) =
      chains.drop (i + 1) := fun l₁' => List.drop_set_of_lt (Nat.lt_succ_self i)
  rw [htIteratorNext, if_neg (by simp [HTIterRecord.on]), wp_bind]
  change wp (onLists (llIteratorHasNext ⟨b, some s.node⟩) >>= _) _ _ _
  rw [wp_bind, wp_onLists]
  refine wp_llIteratorHasNext h.chained.lists hcells ?_
  cases l₂ with
  | cons s' l =>
    dsimp only
    rw [if_pos (by simp), wp_bind, wp_onLists]
    refine wp_llIteratorNext h.chained.lists hcells ⟨by simp, fun l₁' => .near ?_⟩
    have hnext : (chains.set i (l₁' ++ s' :: l))[i]? = some (l₁' ++ s' :: l) :=
      List.getElem?_set_self hi
    have hat : At ht t _ _ _ _ := .slot hnext hb
    rw [hset] at hat
    exact hat
  | nil =>
    have hfuel : (chains.drop (i + 1)).length < t.numBuckets.toNat + 1 := by
      rw [List.length_drop, ← h.chained.length.2]
      omega
    have hbucket := wp_nextBucket (E := E) h hchains hfuel
    rw [hi'] at hbucket
    dsimp only
    rw [if_neg (by simp), wp_bind]
    refine wp_tableAt h.table ?_
    rw [wp_bind]
    refine wp_mono hbucket ?_ fun _ _ hE => hE
    rintro ⟨bucketNum, nextChain⟩ m' ⟨rfl, ⟨hnil, rfl⟩ | ⟨skipped, s', l, post, b', hdrop, hskipped,
      hb', hr⟩⟩
    · have hcount : (chains.drop (i + 1)).countP (· ≠ []) = 0 :=
        List.countP_eq_zero.2 fun q hq => by simp [List.flatten_eq_nil_iff.1 hnil q hq]
      refine ⟨by rw [hnil]; rfl, fun l₁' => .near ?_⟩
      rw [hnil, hcount]
      exact .off rfl rfl
    · obtain ⟨rfl, rfl⟩ := Prod.ext_iff.1 hr
      obtain ⟨hnext, hflatten, hcount⟩ := next_chain hdrop hskipped
      have hne : i ≠ i + 1 + skipped.length := by omega
      have hset' : ∀ l₁' : List (Slot ν), (chains.set i (l₁' ++ [])).drop
          (i + 1 + skipped.length + 1) = chains.drop (i + 1 + skipped.length + 1) :=
        fun l₁' => List.drop_set_of_lt (by omega)
      rw [List.nil_append, hflatten, hcount]
      dsimp only
      rw [wp_bind, wp_onLists]
      refine wp_mono (wp_llMakeIterator h.chained.lists (h.chained.cells _ _ _ hb' hnext)) ?_
        fun _ _ hE => hE
      rintro it lists ⟨rfl, rfl⟩
      refine ⟨rfl, fun l₁' => ?_⟩
      change Advanced m' ht t _ _ _ _ m'.skip
      cases hroom : m'.lists.room m'.lists.next with
      | false => exact .lost rfl hroom (List.cons_ne_nil _ _) rfl rfl (by simp)
      | true =>
        refine .far rfl hroom ?_
        have hnext' : (chains.set i (l₁' ++ []))[i + 1 + skipped.length]? = some ([] ++ s' :: l) :=
          (List.getElem?_set_ne hne).trans hnext
        have hat : At ht t _ _ _ _ := .slot hnext' hb'
        rw [hset'] at hat
        rw [if_pos ⟨by simp, rfl⟩]
        exact hat

theorem wp_htIteratorPastEnd {iter : HTIterRecord} {Q : Bool → Memory ν → Prop}
    (h : m.tables iter.ht = some t) (hvalid : iter.isValid) (hne : t.numElements ≠ 0)
    (hQ : Q false m) : wp (htIteratorPastEnd iter) Q E m := by
  rw [htIteratorPastEnd, if_neg (not_not.2 hvalid), wp_bind]
  refine wp_tableAt h ?_
  rw [wp_pure, decide_eq_false hne]
  exact hQ

theorem wp_htIteratorGet (h : Stored m ht t c chains) {i : ℕ} {Q : Result ν → Memory ν → Prop}
    (hchain : chains[i]? = some (l₁ ++ s :: l₂)) (hb : t.buckets[i]? = some b)
    (hne : t.numElements ≠ 0) (hQ : Q (1, some s.kv) m) :
    wp (htIteratorGet (.on ht b i s)) Q E m := by
  have hcells := h.chained.cells i b _ hb hchain
  rw [List.map_append, List.map_cons] at hcells
  have hmem : s ∈ chains.flatten :=
    List.mem_flatten.2 ⟨_, List.mem_of_getElem? hchain, List.mem_append_right _ List.mem_cons_self⟩
  rw [htIteratorGet, wp_bind]
  refine wp_htIteratorPastEnd h.table rfl hne ?_
  rw [if_neg Bool.false_ne_true, wp_bind]
  change wp (onLists (llIteratorGetPayload ⟨b, some s.node⟩) >>= _) _ _ _
  rw [wp_bind, wp_onLists]
  refine wp_llIteratorGetPayload h.chained.lists hcells ?_
  rw [wp_bind]
  exact wp_entryAt (h.chained.entries s hmem).1 hQ

/-- A lost iterator is followed. -/
theorem wp_htIteratorGet_lost {iter : HTIterRecord} {Q : Result ν → Memory ν → Prop}
    (h : m.tables iter.ht = some t) (hvalid : iter.isValid) (hne : t.numElements ≠ 0)
    (hlost : iter.bucketIt = none) (hE : E .dangling m) : wp (htIteratorGet iter) Q E m := by
  rw [htIteratorGet, wp_bind]
  refine wp_htIteratorPastEnd h hvalid hne ?_
  rw [if_neg Bool.false_ne_true, bucketItAt, hlost, wp_bind, wp_throw]
  exact hE

/-- The slots of a chain are told apart by their keys. -/
theorem eq_of_key_eq {l₁' l₂' : List (Slot ν)} {s' : Slot ν}
    (hnodup : ((l₁ ++ s :: l₂).map fun s => s.kv.key).Nodup)
    (heq : l₁ ++ s :: l₂ = l₁' ++ s' :: l₂') (hkey : s'.kv.key = s.kv.key) :
    l₁' = l₁ ∧ s' = s ∧ l₂' = l₂ := by
  have hlength : l₁.length = l₁'.length := by
    have hlt : l₁.length < ((l₁ ++ s :: l₂).map fun s => s.kv.key).length := by simp
    refine (List.getElem?_inj hlt hnodup).1 ?_
    rw [List.getElem?_map, List.getElem?_map]
    conv_rhs => rw [heq]
    simp [hkey]
  obtain ⟨rfl, htail⟩ := List.append_inj heq hlength
  obtain ⟨rfl, rfl⟩ := List.cons.inj htail
  exact ⟨rfl, rfl, rfl⟩

theorem length_flatten_set {i : ℕ} (hchain : chains[i]? = some (l₁ ++ s :: l₂)) :
    (chains.set i (l₁ ++ l₂)).flatten.length + 1 = chains.flatten.length := by
  have hset := (flatten_set_perm_append (List.getElem?_eq_some_iff.1 hchain).1 (l₁ ++ l₂)).length_eq
  rw [hset, (flatten_perm_append hchain).length_eq]
  simp only [List.length_append, List.length_cons]
  omega

/-- A slot is deleted by its key, if there is room for the iterator of the search. -/
theorem Tight.wp_remove (h : Tight m ht t c chains f) {i : ℕ}
    (hchain : chains[i]? = some (l₁ ++ s :: l₂)) :
    wp (removeFromHashTable ht s.kv.key) (fun r m' => m'.lists.next = m.lists.next + 1 ∧
      m'.lists.room = m.lists.room ∧ (m.lists.room m.lists.next = false ∧ r = (-1, none) ∨
        m.lists.room m.lists.next ∧ r = (1, some s.kv) ∧ ∃ t' c', t'.buckets = t.buckets ∧
          t'.numElements = t.numElements - 1 ∧
          Tight m' ht t' c' (chains.set i (l₁ ++ l₂)) (Function.update f s.kv.key none))) E m := by
  have hwrt : 0 < t.wrt := h.wrt ▸ Nat.one_pos
  have hmem : s ∈ chains.flatten :=
    List.mem_flatten.2 ⟨_, List.mem_of_getElem? hchain, List.mem_append_right _ List.mem_cons_self⟩
  have hi : (hashKeyToBucketNum t s.kv.key).toNat = i :=
    h.stored.chained.bucket i _ hchain s (List.mem_append_right _ List.mem_cons_self)
  have hne : l₁ ++ s :: l₂ ≠ [] := by simp
  refine wp_mono (wp_removeFromHashTable h.stored hwrt s.kv.key) ?_ fun _ _ hE => hE
  rintro r m' ⟨⟨t', c', chains', hleft, hr⟩, chain, hchain', hnext, hfailed⟩
  rw [hi] at hchain'
  obtain rfl := Option.some.inj (hchain.symm.trans hchain')
  rw [if_neg hne] at hnext
  refine ⟨hnext, hleft.stays.room, ?_⟩
  have hcounts := hr.counts h.stored h.counts
  have hspec : (Op.remove s.kv.key).spec f = ((1, some s.kv), Function.update f s.kv.key none) := by
    simp [Op.spec, h.counts.maps.eq_some hmem]
  cases hr with
  | failed hroom => exact .inl ⟨(hfailed.1 rfl).2, rfl⟩
  | absent habsent => exact absurd rfl (habsent s hmem)
  | @removed l₁' l₂' s' hchain' hkey =>
    rw [hi] at hchain' hleft hcounts
    have hnodup : ((l₁ ++ s :: l₂).map fun s => s.kv.key).Nodup :=
      h.stored.chained.keys.sublist ((List.sublist_flatten_of_mem (List.mem_of_getElem? hchain)).map _)
    obtain ⟨rfl, rfl, rfl⟩ := eq_of_key_eq hnodup (Option.some.inj (hchain.symm.trans hchain')) hkey
    have hroom : m.lists.room m.lists.next := by
      by_contra hroom
      have hone : (1 : ℤ) = -1 := hfailed.2 ⟨hne, Bool.eq_false_of_not_eq_true hroom⟩
      exact absurd hone (by decide)
    rw [hspec] at hcounts
    rcases hcounts with ⟨-, hfalse, -⟩ | ⟨-, hc⟩
    · exact absurd (congrArg Prod.fst hfalse) (by dsimp only; decide)
    · exact .inr ⟨hroom, rfl, { t with numElements := t.numElements - 1 }, c', rfl, rfl,
        hleft.stored, hc, h.wrt, h.mutex, h.readcount⟩

theorem At.eq_on {iter : HTIterRecord} {rest rest' : List (Slot ν)} {ahead : ℕ}
    (h : At ht t chains iter rest' ahead) (hrest : rest' = s :: rest) : ∃ i b l₁ l₂,
      chains[i]? = some (l₁ ++ s :: l₂) ∧ t.buckets[i]? = some b ∧ iter = .on ht b i s ∧
        rest = l₂ ++ (chains.drop (i + 1)).flatten ∧
          ahead = (chains.drop (i + 1)).countP (· ≠ []) := by
  cases h with
  | slot hchain hb =>
    obtain ⟨rfl, rfl⟩ := List.cons.inj hrest
    exact ⟨_, _, _, _, hchain, hb, rfl, rfl, rfl⟩
  | off => cases hrest

theorem At.eq_off {iter : HTIterRecord} {ahead : ℕ} (h : At ht t chains iter [] ahead) :
    iter.isValid = false ∧ ahead = 0 := by
  generalize hrest : ([] : List (Slot ν)) = rest at h
  cases h with
  | slot hchain hb => cases hrest
  | off hvalid => exact ⟨hvalid, rfl⟩

theorem At.ht_eq {iter : HTIterRecord} {rest : List (Slot ν)} {ahead : ℕ}
    (h : At ht t chains iter rest ahead) : iter.ht = ht := by
  cases h with
  | slot => rfl
  | off _ hht => exact hht

theorem At.congr {t' : HashTableRecord} {iter : HTIterRecord} {rest : List (Slot ν)} {ahead : ℕ}
    (h : At ht t chains iter rest ahead) (hbuckets : t'.buckets = t.buckets) :
    At ht t' chains iter rest ahead := by
  cases h with
  | slot hchain hb => exact .slot hchain (hbuckets ▸ hb)
  | off hvalid hht => exact .off hvalid hht

theorem At.length_le {iter : HTIterRecord} {rest : List (Slot ν)} {ahead : ℕ}
    (h : At ht t chains iter rest ahead) : rest.length ≤ chains.flatten.length := by
  cases h with
  | @slot i b l₁ l₂ s hchain =>
    obtain ⟨hi, hget⟩ := List.getElem?_eq_some_iff.1 hchain
    have hchains : chains = chains.take i ++ (l₁ ++ s :: l₂) :: chains.drop (i + 1) := by
      rw [← hget, List.getElem_cons_drop, List.take_append_drop]
    conv_rhs => rw [hchains]
    simp only [List.flatten_append, List.flatten_cons, List.length_append, List.length_cons]
    omega
  | off => exact Nat.zero_le _

/-- An iterator that is on a slot. -/
theorem At.valid {iter : HTIterRecord} {rest : List (Slot ν)} {ahead : ℕ}
    (hat : At ht t chains iter (s :: rest) ahead) (h : Tight m ht t c chains f)
    (hcount : t.numElements.toNat = chains.flatten.length) :
    m.tables iter.ht = some t ∧ iter.isValid ∧ t.numElements ≠ 0 := by
  obtain ⟨i, b, l₁, l₂, hchain, hb, rfl, -, -⟩ := hat.eq_on rfl
  refine ⟨h.stored.table, rfl, fun hzero => ?_⟩
  rw [hzero] at hcount
  have hnil := List.length_eq_zero_iff.1 hcount.symm
  have hmem := List.flatten_eq_nil_iff.1 hnil _ (List.mem_of_getElem? hchain)
  exact absurd hmem (by simp)

end

/-! ## The run of a client -/

/-- What a client gets that has the slots ahead of it. -/
def visits (delete : ℕ → Bool) : ℕ → List (Slot ν) → List (Visit ν)
  | _, [] => []
  | k, s :: rest =>
    ⟨(1, some s.kv), if delete k then some (if rest = [] then 2 else 1, some s.kv) else none⟩ ::
      visits delete (k + 1) rest

/-- What is left of the map. -/
def leftover (delete : ℕ → Bool) : ℕ → List (Slot ν) → (UInt64 → Option ν) → UInt64 → Option ν
  | _, [], f => f
  | k, s :: rest, f =>
    leftover delete (k + 1) rest (if delete k then Function.update f s.kv.key none else f)

/-- The number of allocations of a client from round `k` on, which visits `n` slots, in `ahead`
    chains but the one that it is in. -/
def allocations (delete : ℕ → Bool) (k n ahead : ℕ) : ℕ := ahead + (List.range' k n).countP delete

/-- There is room for the next `n` allocations. -/
def Room (m : Memory ν) (n : ℕ) : Prop := ∀ i < n, m.lists.room (m.lists.next + i)

section

variable {m m' : Memory ν} {ht b : ℕ} {t : HashTableRecord} {c : ℕ → Option (List (ℕ × ℕ))}
  {chains pre post : List (List (Slot ν))} {l₁ l₂ rest : List (Slot ν)} {s : Slot ν}
  {f : UInt64 → Option ν} {E : Stop → Memory ν → Prop} {delete : ℕ → Bool} {k n ahead : ℕ}
  {iter : HTIterRecord}

theorem room_zero : Room m 0 := fun _ hi => absurd hi (Nat.not_lt_zero _)

/-- Room for one allocation more. -/
theorem room_succ (hnext : m'.lists.next = m.lists.next + 1)
    (hroom : m'.lists.room = m.lists.room) :
    Room m (n + 1) ↔ m.lists.room m.lists.next ∧ Room m' n := by
  constructor
  · refine fun h => ⟨h 0 (Nat.succ_pos n), fun i hi => ?_⟩
    have := h (i + 1) (Nat.succ_lt_succ hi)
    rwa [hroom, hnext, Nat.add_assoc, Nat.add_comm 1 i]
  · rintro ⟨h, h'⟩ i hi
    cases i with
    | zero => exact h
    | succ i =>
      have := h' i (Nat.lt_of_succ_lt_succ hi)
      rwa [hroom, hnext, Nat.add_assoc, Nat.add_comm 1 i] at this

theorem room_skip : Room m (n + 1) ↔ m.lists.room m.lists.next ∧ Room m.skip n :=
  room_succ rfl rfl

theorem allocations_succ : allocations delete k (n + 1) ahead =
    allocations delete (k + 1) n ahead + if delete k then 1 else 0 := by
  rw [allocations, allocations, List.range'_succ, List.countP_cons]
  omega

theorem allocations_ahead :
    allocations delete k n (ahead + 1) = allocations delete k n ahead + 1 :=
  Nat.add_right_comm ..

/-- What a run leads to: it visits the slots ahead of it, or some deletion fails. -/
def Outcome (delete : ℕ → Bool) (m : Memory ν) (ht : ℕ) (f : UInt64 → Option ν) (k : ℕ)
    (rest : List (Slot ν)) (ahead : ℕ) (vs : List (Visit ν)) (m' : Memory ν) : Prop :=
  (Room m (allocations delete k rest.length ahead) ∧ vs = visits delete k rest ∧
    ∃ t c chains, Tight m' ht t c chains (leftover delete k rest f) ∧
      t.numElements.toNat = chains.flatten.length) ∨
  ¬Room m (allocations delete k rest.length ahead) ∧ ∃ v ∈ vs, ∃ r, v.deleted = some (r, none)

theorem Outcome.cons {v : Visit ν} {vs : List (Visit ν)} {m'' : Memory ν} {g : UInt64 → Option ν}
    {ahead' : ℕ} (h : Outcome delete m' ht g (k + 1) rest ahead' vs m'')
    (hroom : Room m (allocations delete k (rest.length + 1) ahead) ↔
      Room m' (allocations delete (k + 1) rest.length ahead'))
    (hv : v = ⟨(1, some s.kv),
      if delete k then some (if rest = [] then 2 else 1, some s.kv) else none⟩)
    (hg : g = if delete k then Function.update f s.kv.key none else f) :
    Outcome delete m ht f k (s :: rest) ahead (v :: vs) m'' := by
  subst hv hg
  rcases h with ⟨hm', rfl, hleft⟩ | ⟨hm', v, hv, hr⟩
  · exact .inl ⟨hroom.2 hm', rfl, hleft⟩
  · exact .inr ⟨fun hm => hm' (hroom.1 hm), v, List.mem_cons_of_mem _ hv, hr⟩

/-- A client follows a lost iterator. -/
theorem wp_iterate_lost {fuel : ℕ} {Q : List (Visit ν) → Memory ν → Prop}
    (h : m.tables iter.ht = some t) (hvalid : iter.isValid) (hne : t.numElements ≠ 0)
    (hlost : iter.bucketIt = none) (hE : ∀ e, E e m) :
    wp (iterate delete fuel k iter) Q E m := by
  cases fuel with
  | zero => exact hE _
  | succ fuel =>
    rw [iterate, wp_bind]
    refine wp_htIteratorPastEnd h hvalid hne ?_
    rw [if_neg Bool.false_ne_true, wp_bind, visit, wp_bind]
    exact wp_htIteratorGet_lost h hvalid hne hlost (hE _)

/-- What a round leads to, from the slot `s`. -/
inductive Visited (delete : ℕ → Bool) (m : Memory ν) (ht : ℕ) (f : UInt64 → Option ν) (k : ℕ)
    (s : Slot ν) (rest : List (Slot ν)) (ahead : ℕ) : Visit ν × HTIterRecord → Memory ν → Prop
  | done {m' : Memory ν} {t : HashTableRecord} {c : ℕ → Option (List (ℕ × ℕ))}
      {chains : List (List (Slot ν))} {iter : HTIterRecord} {ahead' : ℕ} :
      Tight m' ht t c chains (if delete k then Function.update f s.kv.key none else f) →
      t.numElements.toNat = chains.flatten.length → At ht t chains iter rest ahead' →
      (Room m (allocations delete k (rest.length + 1) ahead) ↔
        Room m' (allocations delete (k + 1) rest.length ahead')) →
      Visited delete m ht f k s rest ahead (⟨(1, some s.kv),
        if delete k then some (if rest = [] then 2 else 1, some s.kv) else none⟩, iter) m'
  | failed {m' : Memory ν} {iter : HTIterRecord} {got : Result ν} {r : ℤ} :
      ¬Room m (allocations delete k (rest.length + 1) ahead) →
      Visited delete m ht f k s rest ahead (⟨got, some (r, none)⟩, iter) m'
  | lost {m' : Memory ν} {t : HashTableRecord} {iter : HTIterRecord} {v : Visit ν} :
      ¬Room m (allocations delete k (rest.length + 1) ahead) → m'.tables iter.ht = some t →
      t.numElements ≠ 0 → iter.isValid → iter.bucketIt = none →
      Visited delete m ht f k s rest ahead (v, iter) m'

theorem Tight.skip (h : Tight m ht t c chains f) : Tight m.skip ht t c chains f :=
  ⟨h.stored.skip.stored, h.counts, h.wrt, h.mutex, h.readcount⟩

/-- The round of a client that goes on. -/
theorem wp_visit_next (h : Tight m ht t c chains f)
    (hcount : t.numElements.toNat = chains.flatten.length)
    (hat : At ht t chains iter (s :: rest) ahead) (hdelete : ¬delete k) :
    wp (visit (delete k) iter) (Visited delete m ht f k s rest ahead) E m := by
  obtain ⟨-, -, hne⟩ := hat.valid h hcount
  obtain ⟨i, b, l₁, l₂, hchain, hb, rfl, hrest, hahead⟩ := hat.eq_on rfl
  obtain ⟨hi, hget⟩ := List.getElem?_eq_some_iff.1 hchain
  have hadvance := wp_htIteratorNext (E := E) h.stored hchain hb
  rw [← hrest, ← hahead] at hadvance
  have hsame : chains.set i ((l₁ ++ [s]) ++ l₂) = chains := by
    rw [List.append_assoc, List.singleton_append, ← hget, List.set_getElem_self]
  have hdone : ∀ {m' : Memory ν} {iter : HTIterRecord} {ahead' : ℕ}, Tight m' ht t c chains f →
      At ht t chains iter rest ahead' → (Room m (allocations delete (k + 1) rest.length ahead) ↔
        Room m' (allocations delete (k + 1) rest.length ahead')) →
      Visited delete m ht f k s rest ahead (⟨(1, some s.kv), none⟩, iter) m' := by
    intro m' iter ahead' h' hat' hroom
    have hv : Visited delete m ht f k s rest ahead (_, iter) m' :=
      .done (by rwa [if_neg hdelete]) hcount hat' (by rwa [allocations_succ, if_neg hdelete])
    rwa [if_neg hdelete] at hv
  rw [visit, wp_bind]
  refine wp_htIteratorGet h.stored hchain hb hne ?_
  rw [if_neg hdelete, wp_bind]
  refine wp_mono hadvance ?_ fun _ _ hE => hE
  rintro ⟨res, iter⟩ m' ⟨-, hnext⟩
  have hadvanced := hnext (l₁ ++ [s])
  rw [hsame] at hadvanced
  dsimp only at hadvanced ⊢
  cases hadvanced with
  | near hat' => exact hdone h hat' Iff.rfl
  | far hn hroom hat' =>
    refine hdone h.skip hat' ?_
    rw [hn, allocations_ahead, room_skip]
    exact and_iff_right hroom
  | lost hn hroom hrest' hht hvalid hlost =>
    refine .lost ?_ (hht ▸ h.stored.table) hne hvalid hlost
    rw [allocations_succ, hn, allocations_ahead, if_neg hdelete, room_skip]
    exact fun hm => Bool.false_ne_true (hroom.symm.trans hm.1)

/-- The round of a client that deletes. -/
theorem wp_visit_delete (h : Tight m ht t c chains f)
    (hcount : t.numElements.toNat = chains.flatten.length)
    (hat : At ht t chains iter (s :: rest) ahead) (hdelete : delete k) :
    wp (visit (delete k) iter) (Visited delete m ht f k s rest ahead) E m := by
  obtain ⟨-, -, hne⟩ := hat.valid h hcount
  obtain ⟨i, b, l₁, l₂, hchain, hb, rfl, hrest, hahead⟩ := hat.eq_on rfl
  have hadvance := wp_htIteratorNext (E := E) h.stored hchain hb
  rw [← hrest, ← hahead] at hadvance
  rw [visit, wp_bind]
  refine wp_htIteratorGet h.stored hchain hb hne ?_
  rw [if_pos hdelete, wp_bind, htIteratorDelete, wp_bind]
  refine wp_htIteratorGet h.stored hchain hb hne ?_
  dsimp only
  rw [wp_bind]
  refine wp_mono hadvance ?_ fun _ _ hE => hE
  rintro ⟨res, iter⟩ m₁ ⟨hres, hnext⟩
  have hret : (if res = 0 then 2 else 1 : ℤ) = if rest = [] then 2 else 1 := by
    dsimp only at hres
    rw [hres]
    by_cases hnil : rest = [] <;> simp [hnil]
  have hcount' : ∀ {t' : HashTableRecord}, t'.numElements = t.numElements - 1 →
      t'.numElements.toNat = (chains.set i (l₁ ++ l₂)).flatten.length := by
    intro t' hn
    have hset := length_flatten_set hchain
    have hle : 1 ≤ t.numElements := by
      rw [UInt64.le_iff_toNat_le, hcount, ← hset]
      exact Nat.le_add_left 1 _
    rw [hn, UInt64.toNat_sub_of_le _ _ hle, hcount, ← hset]
    rfl
  -- What the removal does, after the iterator went on.
  have hremove : ∀ {ahead' : ℕ}, Tight m₁ ht t c chains f → iter.ht = ht →
      At ht t (chains.set i (l₁ ++ l₂)) iter rest ahead' →
      (Room m (allocations delete k (rest.length + 1) ahead) ↔
        Room m₁ (allocations delete (k + 1) rest.length ahead' + 1)) →
      wp (removeFromHashTable iter.ht s.kv.key) (fun r m' => Visited delete m ht f k s rest ahead
        (⟨(1, some s.kv), some (if res = 0 then 2 else 1, r.2)⟩, iter) m') E m₁ := by
    intro ahead' h₁ hht hat' hroom
    rw [hht]
    refine wp_mono (h₁.wp_remove hchain) ?_ fun _ _ hE => hE
    rintro r m' ⟨hnext', hroom', ⟨hfull, rfl⟩ | ⟨hfree, rfl, t', c', hbuckets, hn, h'⟩⟩
    · refine .failed ?_
      rw [hroom, room_succ hnext' hroom']
      exact fun hm => Bool.false_ne_true (hfull.symm.trans hm.1)
    · rw [hret]
      have hv : Visited delete m ht f k s rest ahead (_, iter) m' :=
        .done (by rwa [if_pos hdelete]) (hcount' hn) (hat'.congr hbuckets)
          (by rw [hroom, room_succ hnext' hroom']; exact and_iff_right hfree)
      rwa [if_pos hdelete] at hv
  dsimp only
  rw [wp_bind]
  have hadvanced := hnext l₁
  cases hadvanced with
  | near hat' =>
    exact hremove h hat'.ht_eq hat' (by rw [allocations_succ, if_pos hdelete])
  | far hn hroom hat' =>
    refine hremove h.skip hat'.ht_eq hat' ?_
    rw [allocations_succ, if_pos hdelete, hn, allocations_ahead, room_skip]
    exact and_iff_right hroom
  | lost hn hroom hrest' hht hvalid hlost =>
    have hm : ¬Room m (allocations delete k (rest.length + 1) ahead) := by
      rw [allocations_succ, hn, allocations_ahead, if_pos hdelete, room_skip]
      exact fun hm => Bool.false_ne_true (hroom.symm.trans hm.1)
    rw [hht]
    refine wp_mono (h.skip.wp_remove hchain) ?_ fun _ _ hE => hE
    rintro r m' ⟨-, -, ⟨-, rfl⟩ | ⟨-, rfl, t', c', -, hn', h'⟩⟩
    · exact .failed hm
    · refine .lost hm (hht ▸ h'.stored.table) (fun hzero => ?_) hvalid hlost
      have hle := hat.length_le
      have hset := length_flatten_set hchain
      have hpos := List.length_pos_iff.2 hrest'
      have hlength := hcount' hn'
      have htoNat : (0 : UInt64).toNat = 0 := rfl
      rw [hzero] at hlength
      rw [List.length_cons] at hle
      omega

/-- The rest of a client's run, from an iterator that is not lost. -/
theorem wp_iterate {fuel : ℕ} (delete : ℕ → Bool) (h : Tight m ht t c chains f)
    (hcount : t.numElements.toNat = chains.flatten.length) (hat : At ht t chains iter rest ahead)
    (hfuel : rest.length < fuel) :
    wp (iterate delete fuel k iter) (Outcome delete m ht f k rest ahead)
      (fun _ _ => ¬Room m (allocations delete k rest.length ahead)) m := by
  induction rest generalizing m t c chains f iter ahead k fuel with
  | nil =>
    obtain ⟨fuel, rfl⟩ := Nat.exists_eq_succ_of_ne_zero (Nat.ne_of_gt hfuel)
    obtain ⟨hvalid, rfl⟩ := hat.eq_off
    rw [iterate, htIteratorPastEnd, if_pos (by simp [hvalid]), wp_bind, wp_pure, if_pos rfl]
    exact .inl ⟨room_zero, rfl, t, c, chains, h, hcount⟩
  | cons s rest ih =>
    obtain ⟨fuel, rfl⟩ := Nat.exists_eq_succ_of_ne_zero (Nat.ne_of_gt (Nat.zero_lt_of_lt hfuel))
    obtain ⟨htable, hvalid, hne⟩ := hat.valid h hcount
    rw [iterate, wp_bind]
    refine wp_htIteratorPastEnd htable hvalid hne ?_
    rw [if_neg Bool.false_ne_true, wp_bind]
    have hvisit : wp (visit (delete k) iter) (Visited delete m ht f k s rest ahead)
        (fun _ _ => ¬Room m (allocations delete k (s :: rest).length ahead)) m := by
      by_cases hdelete : delete k
      · exact wp_visit_delete h hcount hat hdelete
      · exact wp_visit_next h hcount hat hdelete
    refine wp_mono hvisit ?_ fun _ _ hE => hE
    rintro ⟨v, iter⟩ m' hv
    dsimp only
    rw [wp_bind]
    cases hv with
    | done h' hcount' hat' hroom =>
      refine wp_mono (ih h' hcount' hat' (Nat.lt_of_succ_lt_succ hfuel)) ?_ ?_
      · exact fun vs m'' hvs => hvs.cons hroom rfl rfl
      · exact fun _ _ hm hroom' => hm (hroom.1 hroom')
    | failed hroom =>
      refine wp_mono wp_trivial ?_ fun _ _ _ => hroom
      exact fun vs m'' _ => .inr ⟨hroom, _, List.mem_cons_self, _, rfl⟩
    | lost hroom htable' hne' hvalid' hlost =>
      exact wp_iterate_lost htable' hvalid' hne' hlost fun _ => hroom

/-- A new iterator is on the first slot. It is allocated, and the list iterator of a table that is
    not empty. -/
theorem wp_hashTableMakeIterator (h : Tight m ht t c chains f)
    (hcount : t.numElements.toNat = chains.flatten.length) (uninit : UInt64) :
    wp (hashTableMakeIterator uninit ht) (fun r m' =>
      (¬Room m (if chains.flatten = [] then 1 else 2) ∧ r = none) ∨
        Room m (if chains.flatten = [] then 1 else 2) ∧ ∃ iter ahead, r = some iter ∧
          Tight m' ht t c chains f ∧ At ht t chains iter chains.flatten ahead ∧
            ∀ n, Room m (1 + chains.countP (· ≠ []) + n) ↔ Room m' (ahead + n)) E m := by
  have hzero : t.numElements = 0 ↔ chains.flatten = [] := by
    rw [← List.length_eq_zero_iff, ← hcount, ← UInt64.toNat_inj]
    rfl
  have hempty : ∀ {n}, (1 + n : ℕ) = n + 1 := Nat.add_comm 1 _
  rw [hashTableMakeIterator, wp_bind, wp_onLists]
  refine wp_malloc ?_
  cases hroom : m.lists.room m.lists.next with
  | false =>
    refine .inl ⟨fun hm => Bool.false_ne_true (hroom.symm.trans (hm 0 ?_)), rfl⟩
    by_cases hnil : chains.flatten = [] <;> simp [hnil]
  | true =>
    rw [if_pos rfl]
    change wp (tableAt ht >>= _) _ _ m.skip
    rw [wp_bind]
    refine wp_tableAt h.skip.stored.table ?_
    by_cases hnil : chains.flatten = []
    · have hcountP : chains.countP (· ≠ []) = 0 :=
        List.countP_eq_zero.2 fun q hq => by simp [List.flatten_eq_nil_iff.1 hnil q hq]
      rw [if_pos (hzero.2 hnil)]
      refine .inr ⟨?_, _, 0, rfl, h.skip, hnil ▸ .off rfl rfl, fun n => ?_⟩
      · rw [if_pos hnil, room_skip]
        exact ⟨hroom, room_zero⟩
      · rw [hcountP, Nat.add_zero, Nat.zero_add, hempty, room_skip]
        exact and_iff_right hroom
    · have hfirst := wp_firstBucket (E := E) h.skip.stored (List.nil_append chains).symm
      rw [h.stored.chained.length.2] at hfirst
      rw [if_neg fun hn => hnil (hzero.1 hn), if_neg hnil, wp_bind]
      refine wp_mono hfirst ?_ fun _ _ hE => hE
      rintro r m' ⟨rfl, ⟨hnil', -⟩ | ⟨skipped, s, l, post, hdrop, hskipped, rfl⟩⟩
      · exact absurd hnil' hnil
      · obtain ⟨b, hb, -, hlength⟩ := h.stored.bucket hdrop
        obtain ⟨hnext, hflatten, hcountP⟩ := next_chain (List.drop_zero.trans hdrop) hskipped
        have htoNat := h.stored.toNat_bucket (i := skipped.length) (by omega)
        rw [List.drop_zero] at hflatten hcountP
        rw [Nat.zero_add] at hnext hflatten hcountP
        dsimp only [List.length_nil, Option.map_some, Option.getD_some]
        rw [Nat.zero_add, htoNat, wp_bind]
        refine wp_chainAt hb ?_
        rw [wp_bind, wp_onLists]
        refine wp_mono (wp_llMakeIterator h.skip.stored.chained.lists
          (h.skip.stored.chained.cells _ _ _ hb hnext)) ?_ fun _ _ hE => hE
        rintro it lists ⟨rfl, rfl⟩
        have hroom₁ : Room m 2 ↔ m.skip.lists.room m.skip.lists.next := by
          rw [room_skip, room_skip]
          exact ⟨fun hm => hm.2.1, fun hm => ⟨hroom, hm, room_zero⟩⟩
        rw [hroom₁]
        cases hroom' : m.skip.lists.room m.skip.lists.next with
        | false => exact .inl ⟨Bool.false_ne_true, by simp⟩
        | true =>
          have hnext' : chains[skipped.length]? = some ([] ++ s :: l) := hnext
          have hat : At ht t chains _ _ _ := .slot hnext' hb
          rw [← hflatten] at hat
          rw [if_pos ⟨by simp, rfl⟩]
          refine .inr ⟨rfl, _, _, rfl, h.skip.skip, hat, fun n => ?_⟩
          have hsum : 1 + chains.countP (· ≠ []) + n =
              (chains.drop (skipped.length + 1)).countP (· ≠ []) + n + 1 + 1 := by omega
          rw [hsum, room_skip, room_skip, hroom']
          exact ⟨fun hm => hm.2.2, fun hm => ⟨hroom, rfl, hm⟩⟩

/-! ## Each entry is visited once -/

theorem length_visits (k : ℕ) (l : List (Slot ν)) : (visits delete k l).length = l.length := by
  induction l generalizing k with
  | nil => rfl
  | cons s l ih => rw [visits, List.length_cons, ih, List.length_cons]

theorem map_got_visits (k : ℕ) (l : List (Slot ν)) :
    (visits delete k l).map Visit.got = l.map fun s => (1, some s.kv) := by
  induction l generalizing k with
  | nil => rfl
  | cons s l ih => rw [visits, List.map_cons, ih, List.map_cons]

theorem deleted_of_visits {l : List (Slot ν)} {i : ℕ} {v : Visit ν}
    (hv : (visits delete k l)[i]? = some v) : v.deleted =
      if delete (k + i) then some (if i + 1 < l.length then 1 else 2, v.got.2) else none := by
  induction l generalizing k i with
  | nil => cases hv
  | cons s l ih =>
    cases i with
    | zero =>
      obtain rfl := Option.some.inj hv
      cases l with
      | nil => rfl
      | cons s' l => simp
    | succ i =>
      have hshift : k + 1 + i = k + (i + 1) := by omega
      rw [ih (k := k + 1) hv, hshift]
      simp only [List.length_cons, Nat.add_lt_add_iff_right]

/-- The entry of a key was deleted in a run. -/
def Deleted (vs : List (Visit ν)) (key : UInt64) : Prop :=
  ∃ v ∈ vs, v.deleted ≠ none ∧ ∃ value, v.got = (1, some ⟨key, value⟩)

theorem deleted_cons {v : Visit ν} {vs : List (Visit ν)} {key : UInt64} :
    Deleted (v :: vs) key ↔
      (v.deleted ≠ none ∧ ∃ value, v.got = (1, some ⟨key, value⟩)) ∨ Deleted vs key := by
  simp [Deleted]

theorem leftover_eq_none (k : ℕ) (l : List (Slot ν)) {key : UInt64} (hf : f key = none) :
    leftover delete k l f key = none := by
  induction l generalizing k f with
  | nil => exact hf
  | cons s l ih =>
    refine ih (k + 1) ?_
    split
    · rw [Function.update_apply]
      split
      · rfl
      · exact hf
    · exact hf

/-- What is left is what was not deleted. -/
theorem leftover_eq (k : ℕ) (l : List (Slot ν)) (f : UInt64 → Option ν) (key : UInt64) :
    (Deleted (visits delete k l) key → leftover delete k l f key = none) ∧
      (¬Deleted (visits delete k l) key → leftover delete k l f key = f key) := by
  induction l generalizing k f with
  | nil => exact ⟨fun ⟨v, hv, _⟩ => absurd hv List.not_mem_nil, fun _ => rfl⟩
  | cons s l ih =>
    rw [visits, leftover, deleted_cons]
    by_cases hdelete : delete k
    · rw [if_pos hdelete, if_pos hdelete]
      refine ⟨?_, fun hnot => ?_⟩
      · rintro (⟨-, value, hvalue⟩ | hl)
        · have hkv : s.kv = ⟨key, value⟩ := Option.some.inj (Prod.ext_iff.1 hvalue).2
          refine leftover_eq_none _ _ ?_
          rw [hkv]
          exact Function.update_self ..
        · exact (ih _ _).1 hl
      · rw [(ih _ _).2 fun hl => hnot (.inr hl)]
        refine Function.update_of_ne (fun hkey => hnot (.inl ⟨Option.some_ne_none _, s.kv.value, ?_⟩)) _ _
        rw [hkey]
    · rw [if_neg hdelete, if_neg hdelete]
      refine ⟨?_, fun hnot => (ih _ _).2 fun hl => hnot (.inr hl)⟩
      rintro (⟨hnone, -⟩ | hl)
      · exact absurd rfl hnone
      · exact (ih _ _).1 hl

/-- What is promised of a client's run on a table with these chains, and the map `f` in them. -/
structure VisitsOnce (delete : ℕ → Bool) (ht : ℕ) (chains : List (List (Slot ν)))
    (f : UInt64 → Option ν) (vs : List (Visit ν)) (m' : Memory ν) : Prop where
  length : vs.length = chains.flatten.length
  got : (vs.map Visit.got).Perm (chains.flatten.map fun s => (1, some s.kv))
  deleted : ∀ i v, vs[i]? = some v → v.deleted =
    if delete i then some (if i + 1 < chains.flatten.length then 1 else 2, v.got.2) else none
  left : ∃ t c chains' g, Tight m' ht t c chains' g ∧
    t.numElements.toNat = chains'.flatten.length ∧
      ∀ key, (Deleted vs key → g key = none) ∧ (¬Deleted vs key → g key = f key)

/-- In a run, no deletion fails. -/
theorem VisitsOnce.ne_none {vs : List (Visit ν)} (h : VisitsOnce delete ht chains f vs m)
    {v : Visit ν} (hv : v ∈ vs) (r : ℤ) : v.deleted ≠ some (r, none) := by
  intro hr
  obtain ⟨i, hi⟩ := List.getElem?_of_mem hv
  obtain ⟨s, -, hs⟩ := List.mem_map.1 (h.got.mem_iff.1 (List.mem_map_of_mem hv))
  have hdeleted := h.deleted i v hi
  rw [hr, ← hs] at hdeleted
  split at hdeleted
  · cases hdeleted
  · cases hdeleted

/-- The number of allocations of a client, with those of the iterator. -/
def allAllocations (delete : ℕ → Bool) (chains : List (List (Slot ν))) : ℕ :=
  1 + chains.countP (· ≠ []) + (List.range chains.flatten.length).countP delete

/-- Each entry is visited once, unless `HashTableMakeIterator` fails, which is up to the client. -/
def IteratesOnce (uninit : UInt64) (delete : ℕ → Bool) (m : Memory ν) (ht : ℕ) (t : HashTableRecord)
    (chains : List (List (Slot ν))) (f : UInt64 → Option ν) : Prop :=
  ∀ iter m₁, hashTableMakeIterator uninit ht m = .ok (some iter) m₁ →
    ∃ vs m', iterate delete (t.numElements.toNat + 1) 0 iter m₁ = .ok vs m' ∧
      VisitsOnce delete ht chains f vs m'

/-- What a client is promised, or what it gets instead. -/
theorem wp_iterate_all (delete : ℕ → Bool) (h : Tight m ht t c chains f)
    (hcount : t.numElements.toNat = chains.flatten.length) {ahead : ℕ}
    (hat : At ht t chains iter chains.flatten ahead) :
    wp (iterate delete (t.numElements.toNat + 1) 0 iter) (fun vs m' =>
      (Room m (ahead + (List.range chains.flatten.length).countP delete) ∧
        VisitsOnce delete ht chains f vs m') ∨
      ¬Room m (ahead + (List.range chains.flatten.length).countP delete) ∧
        ¬VisitsOnce delete ht chains f vs m')
      (fun _ _ => ¬Room m (ahead + (List.range chains.flatten.length).countP delete)) m := by
  have hfuel : chains.flatten.length < t.numElements.toNat + 1 := by omega
  have hneeded : allocations delete 0 chains.flatten.length ahead =
      ahead + (List.range chains.flatten.length).countP delete := by
    rw [allocations, List.range_eq_range']
  have hrun := wp_iterate (k := 0) delete h hcount hat hfuel
  unfold Outcome at hrun
  rw [hneeded] at hrun
  refine wp_mono hrun ?_ fun _ _ hE => hE
  rintro vs m' (⟨hroom, rfl, t', c', chains', h', hcount'⟩ | ⟨hroom, v, hv, r, hr⟩)
  · refine .inl ⟨hroom, length_visits .., ?_, fun i v hv => ?_, ?_⟩
    · rw [map_got_visits]
    · have hdeleted := deleted_of_visits hv
      rwa [Nat.zero_add] at hdeleted
    · exact ⟨t', c', chains', _, h', hcount', fun key => leftover_eq 0 _ f key⟩
  · exact .inr ⟨hroom, fun hvisits => hvisits.ne_none hv r hr⟩

/-- What a client gets, if there is an iterator. -/
theorem iteratesOnce_cases (h : Tight m ht t c chains f)
    (hcount : t.numElements.toNat = chains.flatten.length) (uninit : UInt64) (delete : ℕ → Bool) :
    (Room m (if chains.flatten = [] then 1 else 2) → Room m (allAllocations delete chains)) ∧
        IteratesOnce uninit delete m ht t chains f ∨
      ¬(Room m (if chains.flatten = [] then 1 else 2) → Room m (allAllocations delete chains)) ∧
        ¬IteratesOnce uninit delete m ht t chains f := by
  have hmake := wp_hashTableMakeIterator (E := fun _ _ => False) h hcount uninit
  obtain ⟨r, m₁, hr, ⟨hfull, rfl⟩ | ⟨hfree, iter, ahead, rfl, h₁, hat, hroom⟩⟩ := ok_of_wp hmake
  · refine .inl ⟨fun hfree => absurd hfree hfull, fun iter m' hiter => ?_⟩
    cases hr.symm.trans hiter
  · have hrun := wp_iterate_all delete h₁ hcount hat
    rw [allAllocations, hroom]
    by_cases henough : Room m₁ (ahead + (List.range chains.flatten.length).countP delete)
    · obtain ⟨vs, m', hvs, ⟨-, hvisits⟩ | ⟨hnot, -⟩⟩ :=
        ok_of_wp (wp_mono hrun (fun _ _ h => h) fun _ _ hnot => hnot henough)
      · refine .inl ⟨fun _ => henough, fun iter' m'' hiter => ?_⟩
        cases hr.symm.trans hiter
        exact ⟨vs, m', hvs, hvisits⟩
      · exact absurd henough hnot
    · refine .inr ⟨fun himp => henough (himp hfree), fun hp => ?_⟩
      obtain ⟨vs, m', hvs, hvisits⟩ := hp iter m₁ hr
      rw [wp_of_ok hvs] at hrun
      rcases hrun with ⟨hyes, -⟩ | ⟨-, hnot⟩
      · exact henough hyes
      · exact hnot hvisits

/-- A client's run visits each entry once, if and only if `HashTableMakeIterator` fails or none of
    the allocations does. -/
theorem iteratesOnce_iff (h : Tight m ht t c chains f)
    (hcount : t.numElements.toNat = chains.flatten.length) (uninit : UInt64) (delete : ℕ → Bool) :
    IteratesOnce uninit delete m ht t chains f ↔
      (Room m (if chains.flatten = [] then 1 else 2) → Room m (allAllocations delete chains)) := by
  rcases iteratesOnce_cases h hcount uninit delete with ⟨hroom, hp⟩ | ⟨hroom, hp⟩
  · exact iff_of_true hp hroom
  · exact iff_of_false hp hroom

/-- What is in a memory does not depend on the room that is left. -/
def Memory.withRoom (m : Memory ν) (room : ℕ → Bool) : Memory ν :=
  { m with lists := { m.lists with room := room } }

theorem Tight.withRoom (h : Tight m ht t c chains f) (room : ℕ → Bool) :
    Tight (m.withRoom room) ht t c chains f where
  stored := by
    have hchained := h.stored.chained
    exact ⟨h.stored.table, h.stored.below, hchained.congr (hchained.lists.mono le_rfl rfl rfl)
      (fun _ _ => rfl) le_rfl fun _ _ => rfl, h.stored.pos, h.stored.lt⟩
  counts := h.counts
  wrt := h.wrt
  mutex := h.mutex
  readcount := h.readcount

/-- A bucket has at most as many slots as there are keys for it. -/
theorem Tight.length_le (h : Tight m ht t c chains f) {i : ℕ} {q : List (Slot ν)}
    (hq : chains[i]? = some q) {S : Finset UInt64}
    (hS : ∀ k, f k ≠ none → (k % t.numBuckets).toNat = i → k ∈ S) : q.length ≤ S.card := by
  have hmem : q ∈ chains := List.mem_of_getElem? hq
  have hnodup : (q.map fun s => s.kv.key).Nodup :=
    h.stored.chained.keys.sublist ((List.sublist_flatten_of_mem hmem).map _)
  rw [← List.length_map (fun s : Slot ν => s.kv.key), ← List.toFinset_card_of_nodup hnodup]
  refine Finset.card_le_card fun k hk => ?_
  obtain ⟨s, hs, rfl⟩ := List.mem_map.1 (List.mem_toFinset.1 hk)
  refine hS _ ?_ (h.stored.chained.bucket i q hq s hs)
  rw [h.counts.maps.eq_some (List.mem_flatten_of_mem hmem hs)]
  exact Option.some_ne_none _

end

/-- A table of one bucket, with one entry. -/
theorem exists_tight_single : ∃ (m : Memory ℕ) (ht : ℕ) (t : HashTableRecord)
    (c : ℕ → Option (List (ℕ × ℕ))) (chains : List (List (Slot ℕ))) (f : UInt64 → Option ℕ),
    Tight m ht t c chains f ∧ t.numElements.toNat = chains.flatten.length ∧
      chains.flatten.length = 1 ∧ ∀ a, m.lists.room a := by
  have hload : Unloaded (1 : UInt32).toNat (fun _ => none) [.insert (⟨5, 10⟩ : HTKeyValue ℕ)] :=
    unloaded_of_length_le (by decide)
  obtain ⟨ht, -, m, -, -, t, c, chains, h, -, hroom⟩ :=
    exists_calls (by decide) (fun _ => throw .loaded) hload
  have hone : chains.flatten.length = 1 := by
    have hkeys : {k | (specRun (fun _ => none) [.insert (⟨5, 10⟩ : HTKeyValue ℕ)]).2 k ≠ none} =
        {5} := by
      ext k
      simp [specRun, Op.spec, Function.update_apply]
    rw [← h.size_eq, size, hkeys, Set.ncard_singleton]
  have hpos := h.stored.pos
  exact ⟨m, ht, t, c, chains, _, h, h.toNat_numElements (by omega), hone, hroom⟩

/-- Two keys for the first bucket of three, and one for the last. -/
def spread : List (Op ℕ) := [.insert ⟨0, 10⟩, .insert ⟨3, 11⟩, .insert ⟨2, 12⟩]

theorem keys_spread (k : UInt64) :
    (specRun (fun _ => none) spread).2 k ≠ none ↔ k ∈ ({0, 3, 2} : Finset UInt64) := by
  by_cases h₀ : k = 0 <;> by_cases h₃ : k = 3 <;> by_cases h₂ : k = 2 <;>
    simp [spread, specRun, Op.spec, h₀, h₃, h₂]

/-- One bucket has two of the keys, one has none, and one has one. -/
theorem exists_tight_spread : ∃ (m : Memory ℕ) (ht : ℕ) (t : HashTableRecord)
    (c : ℕ → Option (List (ℕ × ℕ))) (chains : List (List (Slot ℕ))),
    Tight m ht t c chains (specRun (fun _ => none) spread).2 ∧
      t.numElements.toNat = chains.flatten.length ∧ chains.map List.length = [2, 0, 1] ∧
      ∀ a, m.lists.room a := by
  have hload : Unloaded (3 : UInt32).toNat (fun _ => none) spread :=
    unloaded_of_length_le (by decide)
  obtain ⟨ht, -, m, -, -, t, c, chains, h, hbuckets, hroom⟩ :=
    exists_calls (by decide) (fun _ => throw .loaded) hload
  have hsize : chains.flatten.length = 3 := by
    have hkeys : {k | (specRun (fun _ => none) spread).2 k ≠ none} = ({0, 3, 2} : Finset UInt64) :=
      Set.ext keys_spread
    rw [← h.size_eq, size, hkeys, Set.ncard_coe_finset]
    rfl
  have hthree : chains.length = 3 := by
    rw [h.stored.chained.length.2, hbuckets]
    rfl
  obtain ⟨q₀, q₁, q₂, rfl⟩ := List.length_eq_three.1 hthree
  have hat : ∀ i (S : Finset UInt64),
      (∀ k ∈ ({0, 3, 2} : Finset UInt64), (k % 3).toNat = i → k ∈ S) →
      ∀ k, (specRun (fun _ => none) spread).2 k ≠ none → (k % t.numBuckets).toNat = i → k ∈ S := by
    intro i S hS k hk hki
    rw [hbuckets] at hki
    exact hS k ((keys_spread k).1 hk) hki
  -- No bucket has more slots than keys, and there are three of both.
  have h₀ : q₀.length ≤ 2 := h.length_le (i := 0) rfl (hat 0 {0, 3} (by simp))
  have h₁ : q₁.length ≤ 0 := h.length_le (i := 1) rfl (hat 1 ∅ (by simp))
  have h₂ : q₂.length ≤ 1 := h.length_le (i := 2) rfl (hat 2 {2} (by simp))
  have hpos := h.stored.pos
  have hcount := h.toNat_numElements (by omega)
  simp only [List.flatten_cons, List.length_append, List.flatten_nil, List.length_nil] at hsize
  refine ⟨m, ht, t, c, _, h, hcount, ?_, hroom⟩
  simp only [List.map_cons, List.map_nil, List.cons.injEq, and_true]
  omega

/-- The client skips an entry of the first bucket, deletes the other one and skips that of the last
    bucket. -/
theorem iteratesOnce_iff_spread : ∃ (m : Memory ℕ) (ht : ℕ) (t : HashTableRecord)
    (c : ℕ → Option (List (ℕ × ℕ))) (chains : List (List (Slot ℕ))) (f : UInt64 → Option ℕ),
    Tight m ht t c chains f ∧ chains.map List.length = [2, 0, 1] ∧
      ∃ iter m₁ vs m', hashTableMakeIterator 0 ht m = .ok (some iter) m₁ ∧
        iterate (fun i => i = 1) 4 0 iter m₁ = .ok vs m' ∧
        VisitsOnce (fun i => i = 1) ht chains f vs m' := by
  obtain ⟨m, ht, t, c, chains, h, hcount, hlengths, hroom⟩ := exists_tight_spread
  have hthree : chains.flatten.length = 3 := by
    rw [List.length_flatten, hlengths]
    rfl
  obtain ⟨r, m₁, hr, ⟨hfull, -⟩ | ⟨-, iter, -, rfl, -⟩⟩ :=
    ok_of_wp (wp_hashTableMakeIterator (E := fun _ _ => False) h hcount 0)
  · exact absurd (fun i _ => hroom _) hfull
  · have hall := (iteratesOnce_iff h hcount 0 fun i => i = 1).2 fun _ i _ => hroom _
    obtain ⟨vs, m', hvs, hvisits⟩ := hall iter m₁ hr
    rw [hcount, hthree] at hvs
    exact ⟨m, ht, t, c, chains, _, h, hlengths, iter, m₁, vs, m', hr, hvs, hvisits⟩

/-- There is no room for the iterator of the search, when the client deletes the only entry. -/
theorem not_iteratesOnce : ∃ (m : Memory ℕ) (ht : ℕ) (t : HashTableRecord)
    (c : ℕ → Option (List (ℕ × ℕ))) (chains : List (List (Slot ℕ))) (f : UInt64 → Option ℕ),
    Tight m ht t c chains f ∧ t.numElements.toNat = chains.flatten.length ∧
      ¬IteratesOnce 0 (fun _ => true) m ht t chains f := by
  obtain ⟨m, ht, t, c, chains, f, h, hcount, hone, hroom⟩ := exists_tight_single
  have hnil : chains.flatten ≠ [] := fun hnil => by simp [hnil] at hone
  have hcountP : 0 < chains.countP (· ≠ []) := by
    by_contra hzero
    have hall := List.countP_eq_zero.1 (Nat.eq_zero_of_not_pos hzero)
    exact hnil (List.flatten_eq_nil_iff.2 fun q hq => by simpa using hall q hq)
  have hthree : 2 < allAllocations (fun _ => true) chains := by
    rw [allAllocations, hone, List.countP_true, List.length_range]
    omega
  set room : ℕ → Bool := fun a => a < m.lists.next + 2 with hroom'
  refine ⟨m.withRoom room, ht, t, c, chains, f, h.withRoom room, hcount, ?_⟩
  rcases iteratesOnce_cases (h.withRoom room) hcount 0 fun _ => true with ⟨hall, -⟩ | ⟨-, hp⟩
  · rw [if_neg hnil] at hall
    have htwo : Room (m.withRoom room) 2 := fun i hi => by
      simp [Memory.withRoom, hroom', hi]
    have hfalse := hall htwo 2 hthree
    simp [Memory.withRoom, hroom'] at hfalse
  · exact hp

end Cse461.Table.HashTable
