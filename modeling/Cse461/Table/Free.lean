import Cse461.Table.Calls

/-!
# Freeing a hash table

`FreeHashTable` pops one node of each chain before its inner loop, which then calls
`value_free_function` and frees the entry of that node over and over as long as the chain
is not empty. What it released is returned: the entries that it freed, with the values that
it called `value_free_function` on.

So nothing is released of a chain of one entry, and a chain of more is not freed at all: the
second round of the inner loop follows the entry that the first one freed
(`wp_freeHashTable`).
-/

namespace Cse461.Table.HashTable

open Library LinkedList

variable {ν : Type}

/-! ## The functions -/

/-- The inner loop of `FreeHashTable`. -/
def releaseEntries (bl : ℕ) (nextKV : Option ℕ) :
    ℕ → List (ℕ × ν) → TableM ν (List (ℕ × ν))
  | 0, _ => throw .unbounded
  | fuel + 1, released => do
    if 0 < (← onLists (numElementsInLinkedList bl)) then
      match nextKV with
      | none => throw .dangling
      | some nextKV =>
        let kv ← entryAt nextKV
        freeEntry nextKV
        releaseEntries bl (some nextKV) fuel (released ++ [(nextKV, kv.value)])
    else
      return released

/-- The loop of `FreeHashTable` over the buckets. Its inner loop would take a round for each
    element, and a last one. -/
def freeBuckets : List ℕ → List (ℕ × ν) → TableM ν (List (ℕ × ν))
  | [], released => return released
  | bl :: buckets, released => do
    let nextKV ← onLists (popLinkedList bl)
    let rounds ← onLists (numElementsInLinkedList bl)
    let released ← releaseEntries bl nextKV (rounds + 1) released
    onLists (freeLinkedList bl)
    freeBuckets buckets released

/-- Free the record of a table, with its array of buckets. -/
def freeTable (table : ℕ) : TableM ν Unit := do
  let _ ← tableAt table
  modify fun m => { m with tables := Function.update m.tables table none }

/-- `FreeHashTable`, which returns what it released. -/
def freeHashTable (table : ℕ) : TableM ν (List (ℕ × ν)) := do
  let t ← tableAt table
  let released ← freeBuckets t.buckets []
  freeTable table
  return released

/-! ## What they do -/

section

variable {m m' : Memory ν} {ht : ℕ} {t : HashTableRecord} {c : ℕ → Option (List (ℕ × ℕ))}
  {chains : List (List (Slot ν))} {released : List (ℕ × ν)}

/-- The chains are freed up to one of more than one entry. -/
theorem wp_freeBuckets {buckets : List ℕ} (h : Represents m.lists c)
    (hcells : buckets.map c = chains.map fun chain => some (chain.map Slot.cell))
    (hnodup : buckets.Nodup) (hentries : ∀ s ∈ chains.flatten, m.entries s.entry = some s.kv) :
    wp (freeBuckets buckets released) (fun r m' => r = released ∧
      (∀ chain ∈ chains, chain.length ≤ 1) ∧ m'.tables = m.tables ∧ m'.entries = m.entries ∧
        m'.lists.room = m.lists.room ∧ m'.lists.next = m.lists.next ∧
          ∃ c', Represents m'.lists c' ∧ ∀ b ∉ buckets, c' b = c b)
      (fun e _ => e = .dangling ∧ ∃ chain ∈ chains, 1 < chain.length) m := by
  induction buckets generalizing m c chains with
  | nil =>
    obtain rfl := List.map_eq_nil_iff.1 hcells.symm
    exact ⟨rfl, fun _ hc => absurd hc List.not_mem_nil, rfl, rfl, rfl, rfl, c, h, fun _ _ => rfl⟩
  | cons b buckets ih =>
    obtain ⟨chain, chains, rfl, hb, hcells⟩ := List.map_eq_cons_iff.1 hcells.symm
    replace hb := hb.symm
    obtain ⟨hnotmem, hnodup⟩ := List.nodup_cons.1 hnodup
    -- A chain that is popped empty is freed, and the others after it.
    have hrest : ∀ lists : LinkedList.Memory ℕ, chain.length ≤ 1 → lists.room = m.lists.room →
        lists.next = m.lists.next → Represents lists (Function.update c b (some [])) →
        wp (onLists (freeLinkedList b) >>= fun _ => freeBuckets buckets released)
          (fun r m' => r = released ∧ (∀ q ∈ chain :: chains, q.length ≤ 1) ∧
            m'.tables = m.tables ∧ m'.entries = m.entries ∧ m'.lists.room = m.lists.room ∧
              m'.lists.next = m.lists.next ∧ ∃ c', Represents m'.lists c' ∧
                ∀ b' ∉ b :: buckets, c' b' = c b')
          (fun e _ => e = .dangling ∧ ∃ q ∈ chain :: chains, 1 < q.length)
          ⟨lists, m.entries, m.tables⟩ := by
      intro lists hone hroom hnext hlists
      rw [wp_bind, wp_onLists]
      refine wp_freeLinkedList_nil hlists (Function.update_self ..) fun lists' hroom' hnext' h' => ?_
      rw [Function.update_idem] at h'
      have hcells' : buckets.map (Function.update c b none) =
          chains.map fun q => some (q.map Slot.cell) := by
        rw [hcells]
        refine List.map_congr_left fun b' hb' => Function.update_of_ne ?_ _ _
        rintro rfl
        exact hnotmem hb'
      refine wp_mono (ih (m := ⟨lists', m.entries, m.tables⟩) h' hcells' hnodup
        fun s hs => hentries s (List.mem_append_right _ hs)) ?_ ?_
      · rintro r m' ⟨rfl, hle, htables, hentries', hroom'', hnext'', c', hc', hout⟩
        refine ⟨rfl, ?_, htables, hentries', hroom''.trans (hroom'.trans hroom),
          hnext''.trans (hnext'.trans hnext), c', hc', fun b' hb' => ?_⟩
        · exact List.forall_mem_cons.2 ⟨hone, hle⟩
        · rw [List.mem_cons, not_or] at hb'
          rw [hout b' hb'.2, Function.update_of_ne hb'.1]
      · rintro e m' ⟨rfl, q, hq, hlong⟩
        exact ⟨rfl, q, List.mem_cons_of_mem _ hq, hlong⟩
    rw [freeBuckets, wp_bind, wp_onLists]
    cases chain with
    | nil =>
      have hsame : Function.update c b (some []) = c := by
        rw [← List.map_nil (f := Slot.cell), ← hb, Function.update_eq_self]
      refine wp_popLinkedList_nil h hb ?_
      rw [wp_bind, wp_onLists]
      refine wp_numElementsInLinkedList h hb ?_
      rw [wp_bind, List.map_nil, List.length_nil, releaseEntries, wp_bind, wp_onLists]
      refine wp_numElementsInLinkedList h hb ?_
      rw [List.map_nil, List.length_nil, if_neg (lt_irrefl 0), wp_pure]
      exact hrest m.lists (Nat.zero_le 1) rfl rfl (hsame.symm ▸ h)
    | cons s l =>
      have hentry := hentries s (by simp)
      refine wp_mono (wp_popLinkedList h hb) ?_ fun _ _ hE => hE
      rintro r lists ⟨rfl, hroom, hnext, hlists⟩
      rw [wp_bind, wp_onLists]
      refine wp_numElementsInLinkedList hlists (Function.update_self ..) ?_
      rw [wp_bind, List.length_map]
      cases l with
      | nil =>
        rw [List.length_nil, releaseEntries, wp_bind, wp_onLists]
        refine wp_numElementsInLinkedList hlists (Function.update_self ..) ?_
        rw [List.map_nil, List.length_nil, if_neg (lt_irrefl 0), wp_pure]
        exact hrest lists le_rfl hroom hnext hlists
      | cons s' l =>
        -- The entry is freed in the first round, and followed in the second.
        have hpos : 0 < ((s' :: l).map Slot.cell).length := by simp
        have hlong : 1 < (s :: s' :: l).length := by simp
        rw [List.length_cons, releaseEntries, wp_bind, wp_onLists]
        refine wp_numElementsInLinkedList hlists (Function.update_self ..) ?_
        rw [if_pos hpos]
        dsimp only [Slot.cell]
        rw [wp_bind]
        refine wp_entryAt hentry ?_
        rw [wp_bind]
        refine wp_freeEntry hentry ?_
        rw [releaseEntries, wp_bind, wp_onLists]
        refine wp_numElementsInLinkedList hlists (Function.update_self ..) ?_
        rw [if_pos hpos]
        dsimp only
        rw [wp_bind]
        refine wp_entryAt_none (Function.update_self ..) ⟨rfl, _, List.mem_cons_self, hlong⟩

/-- A table is freed if no chain has more than one entry, and nothing is released then. -/
theorem wp_freeHashTable (h : Stored m ht t c chains) :
    wp (freeHashTable ht) (fun r m' => r = [] ∧ (∀ chain ∈ chains, chain.length ≤ 1) ∧
      ∃ c', Represents m'.lists c' ∧ Stays ht t.buckets (entriesOf chains) m m' c c' [] [])
      (fun e _ => e = .dangling ∧ ∃ chain ∈ chains, 1 < chain.length) m := by
  have hcells : t.buckets.map c = chains.map fun chain => some (chain.map Slot.cell) := by
    have hlength := h.chained.length
    refine List.ext_getElem (by simp [hlength]) fun i hi hi' => ?_
    rw [List.length_map] at hi hi'
    rw [List.getElem_map, List.getElem_map]
    exact h.chained.cells i _ _ (List.getElem?_eq_getElem hi) (List.getElem?_eq_getElem hi')
  rw [freeHashTable, wp_bind]
  refine wp_tableAt h.table ?_
  rw [wp_bind]
  refine wp_mono (wp_freeBuckets h.chained.lists hcells h.chained.nodup
    fun s hs => (h.chained.entries s hs).1) ?_ fun _ _ hE => hE
  rintro r m' ⟨rfl, hle, htables, hentries, hroom, hnext, c', hc', hother⟩
  rw [wp_bind, freeTable, wp_bind]
  refine wp_tableAt ((congrFun htables ht).trans h.table) ((wp_modify _).2 ?_)
  refine ⟨rfl, hle, c', hc', fun b _ hb => hother b hb, fun p _ _ => congrFun hentries p,
    fun k _ hk => (Function.update_of_ne hk _ _).trans (congrFun htables k),
    fun b hb => absurd hb List.not_mem_nil, fun p hp => absurd hp List.not_mem_nil, hroom, hnext.ge⟩

end

end Cse461.Table.HashTable
