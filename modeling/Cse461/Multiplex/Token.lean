import Cse461.Library.Relay
import Cse461.Multiplex.HandOff

/-!
# Who delivers which buffer

In a run without the steps that go wrong, each buffer is a job of a relay
(`Library.Relay`): the thread that completes it prepares it, and the one that holds it
is the one to deliver it. A `Ledger` has what no thread knows as a whole: where the
buffer of each tag is, which dummy of `insert_dummy_buffer` is in its place, and its
phase.

* `Kept` says how the table, the heap and the log follow from the ledger.
* `Stands` says how the place of a thread follows from it, and what the thread may rely
  on there (`Place`).

What a thread relies on is not changed by the moves of others (`Stands.other`).
-/

namespace Cse461.Multiplex.HandOff

open Library Reader Relay

/-! ## The chain -/

/-- The buffer with the tag `t` comes after the one with the tag `s`. -/
def Next (inits : List InitBlock) (s t : Int32) : Prop :=
  ∃ i ∈ inits, i.tag = t ∧ i.prevTag = s ∧ s ≠ noTag

section

variable {inits : List InitBlock} {s t u : Int32}

theorem Next.exists_index (h : IsChain inits) (hnext : Next inits s t) :
    ∃ (k : ℕ) (i i' : InitBlock), inits[k]? = some i ∧ inits[k + 1]? = some i' ∧
      i.tag = s ∧ i'.tag = t := by
  obtain ⟨i', hi', rfl, rfl, hne⟩ := hnext
  obtain ⟨k, hk⟩ := List.mem_iff_getElem?.1 hi'
  have hlt := (List.getElem?_eq_some_iff.1 hk).1
  have hprev : (inits.map InitBlock.prevTag)[k]? = some i'.prevTag := by
    rw [List.getElem?_map, hk, Option.map_some]
  rw [h.prevTag, List.getElem?_dropLast, List.length_cons, List.length_map,
    if_pos (by omega)] at hprev
  cases k with
  | zero => exact absurd (Option.some.inj hprev).symm hne
  | succ k =>
    rw [List.getElem?_cons_succ, List.getElem?_map] at hprev
    obtain ⟨i, hi, htag⟩ := Option.map_eq_some_iff.1 hprev
    exact ⟨k, i, i', hi, hk, htag, rfl⟩

/-- A tag is at one place of the chain. -/
theorem IsChain.index_inj (h : IsChain inits) {k l : ℕ} {i j : InitBlock}
    (hi : inits[k]? = some i) (hj : inits[l]? = some j) (htag : i.tag = j.tag) : k = l := by
  have hlt := (List.getElem?_eq_some_iff.1 hi).1
  refine (List.getElem?_inj (by rwa [List.length_map]) h.nodup).1 ?_
  rw [List.getElem?_map, List.getElem?_map, hi, hj, Option.map_some, Option.map_some, htag]

theorem IsChain.line (h : IsChain inits) : Line (Next inits) where
  left hs hs' := by
    obtain ⟨k, i, j, hi, hj, rfl, rfl⟩ := hs.exists_index h
    obtain ⟨l, i', j', hi', hj', rfl, htag⟩ := hs'.exists_index h
    have hkl := h.index_inj hj hj' htag.symm
    obtain rfl : k = l := Nat.succ.inj hkl
    rw [Option.some.inj (hi.symm.trans hi')]
  right ht ht' := by
    obtain ⟨k, i, j, hi, hj, rfl, rfl⟩ := ht.exists_index h
    obtain ⟨l, i', j', hi', hj', htag, rfl⟩ := ht'.exists_index h
    obtain rfl := h.index_inj hi hi' htag.symm
    rw [Option.some.inj (hj.symm.trans hj')]
  irrefl t ht := by
    obtain ⟨k, i, j, hi, hj, hs, hu⟩ := ht.exists_index h
    exact absurd (h.index_inj hi hj (hs.trans hu.symm)) (Nat.ne_of_lt (Nat.lt_succ_self k))

theorem Next.nonneg (h : IsChain inits) (hnext : Next inits s t) : 0 ≤ s := by
  obtain ⟨k, i, -, hi, -, rfl, -⟩ := hnext.exists_index h
  exact h.tag_nonneg i (List.mem_of_getElem? hi)

theorem IsChain.eq_of_tag (h : IsChain inits) {i j : InitBlock} (hi : i ∈ inits) (hj : j ∈ inits)
    (htag : i.tag = j.tag) : i = j :=
  List.inj_on_of_nodup_map h.nodup hi hj htag

/-- A buffer with one after it is not the last block. -/
theorem Next.lastBlock (h : IsChain inits) (hnext : Next inits s t) {i : InitBlock}
    (hi : i ∈ inits) (htag : i.tag = s) : i.lastBlock = false := by
  obtain ⟨k, i', j, hi', hj, htag', -⟩ := hnext.exists_index h
  obtain rfl := h.eq_of_tag hi (List.mem_of_getElem? hi') (htag.trans htag'.symm)
  have hlt := (List.getElem?_eq_some_iff.1 hj).1
  refine h.lastBlock i (List.mem_of_getElem? (i := k) ?_)
  rw [List.getElem?_dropLast, if_pos (by omega), hi']

end

/-! ## The ledger -/

/-- What the threads do not know: where the buffers are, the dummies that are for a moment in the
    place of one, and how far each of them is. -/
structure Ledger (ι : Type) where
  home : Int32 → Option Ptr
  swap : Int32 → Option Ptr
  phase : Int32 → Phase ι

variable {ι : Type}

/-- How far the buffer is. -/
def Ledger.rank (g : Ledger ι) (t : Int32) : ℕ := (g.phase t).rank

/-- The tag of a buffer of the chain. -/
def IsTag (inits : List InitBlock) (t : Int32) : Prop := ∃ i ∈ inits, i.tag = t

/-- The buffer of the tag `t`, as far as it is. -/
structure Fits (inits pending : List InitBlock) (g : Ledger ι) (t : Int32) (b : BufferInfo) :
    Prop where
  tag : b.tag = t
  completed : b.completed = true ↔ 1 ≤ g.rank t
  sent : b.sent = true ↔ g.rank t = 7
  valid : b.valid = true ↔ ¬IsTag pending t
  init : b.valid = true →
    ∃ i ∈ inits, i.tag = t ∧ i.prevTag = b.prevTag ∧ i.lastBlock = b.lastBlock
  told : ∀ u, Next inits t u → 2 ≤ g.rank u → b.nextTag = u
  untold : (∀ u, Next inits t u → g.rank u ≤ 1) → b.nextTag = noTag

/-- What the table and the heap have of the tag `t`. -/
structure Filed (inits : List InitBlock) (g : Ledger ι) (m : Shared) (t : Int32) : Prop where
  fresh : g.home t = none → g.rank t = 0 ∧ g.swap t = none ∧ m.reader.table (intKey t) = none ∧
    IsTag m.pending t ∧ ∀ u, Next inits t u → g.rank u ≤ 1
  live : ∀ q, g.home t = some q → g.rank t ≠ 8 →
    ∃ b, m.reader.heap q = some b ∧ Fits inits m.pending g t b
  freed : ∀ q, g.home t = some q → g.rank t = 8 → m.reader.heap q = none
  filed : ∀ q, g.home t = some q → g.swap t = none → (∀ u, Next inits t u → g.rank u ≤ 3) →
    m.reader.table (intKey t) = some q
  swapped : ∀ d, g.swap t = some d → m.reader.table (intKey t) = some d ∧
    (∃ b, m.reader.heap d = some b ∧ b.valid = false) ∧ ∃ u, Next inits t u ∧ g.rank u = 1
  waits : IsTag m.pending t → g.rank t = 0 ∧
    ∀ q, g.home t = some q → ∃ u, Next inits t u ∧ 2 ≤ g.rank u

/-- What the ledger says about the heap as a whole. -/
structure Kept (inits : List InitBlock) (g : Ledger ι) (m : Shared) : Prop where
  below : ∀ {p b}, m.reader.heap p = some b → p < m.reader.next
  home_below : ∀ {t q}, g.home t = some q → q < m.reader.next
  inj : ∀ {s t q}, g.home s = some q → g.home t = some q → s = t
  isTag : ∀ {t q}, g.home t = some q → IsTag inits t
  swap_tag : ∀ {t d}, g.swap t = some d → IsTag inits t
  swap_home : ∀ {s t d}, g.swap s = some d → g.home t ≠ some d
  swap_inj : ∀ {s t d}, g.swap s = some d → g.swap t = some d → s = t
  valid_home : ∀ {p b}, m.reader.heap p = some b → b.valid = true → g.home b.tag = some p
  valid : ∀ {p b}, m.reader.heap p = some b → b.completed = true → b.valid = true
  keys : ∀ {key p}, m.reader.table key = some p → ∃ t, IsTag inits t ∧ key = intKey t
  pending : m.pending.Sublist inits
  filed : ∀ {t}, IsTag inits t → Filed inits g m t
  delivered : ∀ {t}, IsTag inits t →
    deliveries m.reader t = if 5 ≤ g.rank t then 1 else 0

/-! ### Threads -/

/-- The addresses of the buffers that a thread holds. -/
def Pc.ptrs : Pc → Kind → List Ptr
  | p, .finishing => p.past
  | .lookupPrev done, .early | .insertDummy done, .early | .putBack done _ _, .early
  | .testSent done _ false, .early | .writeNext done _ false, .early | .dispose done _, .early =>
    [done.value]
  | .handler kv _, .calling => [kv.value]
  | .readNext kv _, .reading => [kv.value]
  | .testCompleted _ next _, .passing => [next.value]
  | _, _ => []

/-- The dummy that a thread has put in the place of a buffer. -/
def Pc.swapped : Pc → Option Ptr
  | .putBack _ _ dummy => some dummy
  | _ => none

/-- The buffer that a thread is about to look up. -/
def Pc.looks : Pc → Option Int32
  | .lookupNext _ nextTag _ => some nextTag
  | _ => none

/-- Each of `callers` called for the buffer after its own, up to the tag `t`. -/
def Stack (inits : List InitBlock) (g : Ledger ι) : Int32 → List HTKeyValue → Prop
  | _, [] => True
  | t, kv :: callers => ∃ s, Next inits s t ∧ g.home s = some kv.value ∧ Stack inits g s callers

/-- What a thread may rely on. -/
def Place (inits : List InitBlock) (g : Ledger ι) : Pc → Prop
  | .reading | .lookupPrev _ => True
  | .insertDummy done => ∃ s t, Next inits s t ∧ g.home t = some done.value
  | .putBack done prev dummy => ∃ s t, Next inits s t ∧ g.home t = some done.value ∧
      g.home s = some prev ∧ g.swap s = some dummy
  | .testSent done prev made | .writeNext done prev made => ∃ s t, Next inits s t ∧
      g.home t = some done.value ∧ g.home s = some prev ∧
        (made = true → 2 ≤ g.rank t ∧ g.rank s ≠ 8)
  | .dispose done prev => ∃ s t, Next inits s t ∧ g.home t = some done.value ∧
      g.home s = some prev ∧ g.rank s = 7
  | .handler kv callers | .readNext kv callers => ∃ t, g.home t = some kv.value ∧
      Stack inits g t callers
  | .lookupNext kv nextTag callers => ∃ t, g.home t = some kv.value ∧ Stack inits g t callers ∧
      (nextTag = noTag ∧ Cleared (Next inits) g.phase t ∨ Next inits t nextTag)
  | .testCompleted kv next callers => ∃ t u, Next inits t u ∧ g.home t = some kv.value ∧
      g.home u = some next.value ∧ Stack inits g t callers
  | .removeSelf kv callers => ∃ t u, Next inits t u ∧ g.home t = some kv.value ∧
      7 ≤ g.rank u ∧ Stack inits g t callers
  | .writeSent kv callers => ∃ t, g.home t = some kv.value ∧ Cleared (Next inits) g.phase t ∧
      Stack inits g t callers

/-- The thread `j` is at `p`, and holds the buffers that the ledger says. -/
structure Stands (inits : List InitBlock) (g : Ledger ι) (j : ι) (p : Pc) : Prop where
  homes : ∀ k, ∀ q ∈ p.ptrs k, ∃ t, g.home t = some q
  held : ∀ t, IsTag inits t → ∀ k, g.phase t = .held k j ↔
    (∃ q ∈ p.ptrs k, g.home t = some q) ∨ k = .passing ∧ p.looks = some t
  nodup : p.past.Nodup
  swapped : ∀ s t, Next inits s t → g.phase t = .held .early j → ∀ d, g.swap s = some d →
    p.swapped = some d
  place : Place inits g p

/-- What the ledger says about the threads and what they share. -/
structure Inv (inits : List InitBlock) (g : Ledger ι) (s : Threads ι Shared Pc) : Prop where
  kept : Kept inits g s.shared
  stands : ∀ j, Stands inits g j (s.pc j)
  inStep : InStep (Next inits) g.phase
  linked : ∀ t, g.phase t = .linked → ∃ s, Next inits s t

section

variable {inits : List InitBlock} {g g' : Ledger ι} {j j' : ι} {p : Pc} {s t u : Int32}
  {m m' : Shared}

/-! ### Other threads -/

/-- The buffers stay where they are. -/
def Ledger.Keeps (g g' : Ledger ι) : Prop :=
  ∀ q, (∃ u, g.home u = some q) → ∀ t, g'.home t = some q ↔ g.home t = some q

theorem Ledger.Keeps.home (h : g.Keeps g') {q : Ptr} (hq : g.home t = some q) :
    g'.home t = some q :=
  (h q ⟨t, hq⟩ t).2 hq

theorem Stack.mono (h : g.Keeps g') {callers : List HTKeyValue} (hstack : Stack inits g t callers) :
    Stack inits g' t callers := by
  induction callers generalizing t with
  | nil => trivial
  | cons kv callers ih =>
    obtain ⟨s, hnext, hs, hrest⟩ := hstack
    exact ⟨s, hnext, h.home hs, ih hrest⟩

theorem Stands.phase_eq (h : Stands inits g j p) (htag : IsTag inits t) {k : Kind} {q : Ptr}
    (hq : q ∈ p.ptrs k) (ht : g.home t = some q) : g.phase t = .held k j :=
  (h.held t htag k).2 (.inl ⟨q, hq, ht⟩)

/-- What a thread relies on is not changed by the moves of others. -/
theorem Stands.other (h : Stands inits g j' p) (hchain : IsChain inits) (hkept : Kept inits g m)
    (hj : j' ≠ j) (hmove : Move (Next inits) j g.phase g'.phase) (hhome : g.Keeps g')
    (hswap : ∀ s, g'.swap s = g.swap s ∨ ∃ t, Next inits s t ∧ g.phase t = .held .early j) :
    Stands inits g' j' p := by
  have hline := hchain.line
  refine ⟨fun k q hq => ?_, fun t ht k => ?_, h.nodup, fun s t hs ht d hd => ?_, ?_⟩
  · obtain ⟨t, ht⟩ := h.homes k q hq
    exact ⟨t, hhome.home ht⟩
  · rw [hmove.held_iff hj, h.held t ht k]
    refine or_congr (exists_congr fun q => and_congr_right fun hq => ?_) Iff.rfl
    exact (hhome q (h.homes k q hq) t).symm
  · rw [hmove.held_iff hj] at ht
    rcases hswap s with heq | ⟨t', hs', ht'⟩
    · exact h.swapped s t hs ht d (heq ▸ hd)
    · rw [← hline.right hs hs', ht] at ht'
      cases ht'
      exact absurd rfl hj
  · -- The thread `j` does not hold a buffer that `j'` holds.
    have hown : ∀ {s t t'}, Next inits s t → Next inits s t' → g.phase t = .held .early j' →
        g.phase t' ≠ .held .early j := by
      intro s t t' hs hs' ht ht'
      rw [← hline.right hs hs', ht] at ht'
      cases ht'
      exact hj rfl
    have hearly : ∀ {t q}, q ∈ p.ptrs .early → g.home t = some q → g.phase t = .held .early j' :=
      fun hq ht => h.phase_eq (hkept.isTag ht) hq ht
    have hcleared : ∀ {t q}, q ∈ p.ptrs .finishing → g.home t = some q →
        Cleared (Next inits) g.phase t → Cleared (Next inits) g'.phase t := by
      intro t q hq ht hcleared
      exact hmove.cleared hline (by rw [h.phase_eq (hkept.isTag ht) hq ht]; rfl) hcleared
    have hplace := h.place
    cases p with
    | reading => trivial
    | lookupPrev done => trivial
    | insertDummy done =>
      obtain ⟨s, t, hnext, ht⟩ := hplace
      exact ⟨s, t, hnext, hhome.home ht⟩
    | putBack done prev dummy =>
      obtain ⟨s, t, hnext, ht, hs, hd⟩ := hplace
      refine ⟨s, t, hnext, hhome.home ht, hhome.home hs, ?_⟩
      rcases hswap s with heq | ⟨t', hnext', ht'⟩
      · rw [heq, hd]
      · exact absurd ht' (hown hnext hnext' (hearly (List.mem_singleton_self _) ht))
    | testSent done prev made | writeNext done prev made =>
      obtain ⟨s, t, hnext, ht, hs, hmade⟩ := hplace
      refine ⟨s, t, hnext, hhome.home ht, hhome.home hs, fun h => ?_⟩
      obtain ⟨hlinked, hlive⟩ := hmade h
      refine ⟨hlinked.trans (hmove.rank_le t), fun hfreed => ?_⟩
      rcases hmove.freed (Phase.rank_eq_eight.1 hfreed) with hs' | ⟨t', hnext', ht'⟩
      · exact hlive (Phase.rank_eq_eight.2 hs')
      · rw [Ledger.rank, hline.right hnext hnext', ht'] at hlinked
        exact absurd hlinked (by simp [Phase.rank])
    | dispose done prev =>
      obtain ⟨s, t, hnext, ht, hs, hsent⟩ := hplace
      refine ⟨s, t, hnext, hhome.home ht, hhome.home hs, ?_⟩
      rcases hmove.sent (Phase.rank_eq_seven.1 hsent) with hs' | ⟨t', hnext', ht'⟩
      · exact Phase.rank_eq_seven.2 hs'
      · exact absurd ht' (hown hnext hnext' (hearly (List.mem_singleton_self _) ht))
    | handler kv callers | readNext kv callers =>
      obtain ⟨t, ht, hstack⟩ := hplace
      exact ⟨t, hhome.home ht, hstack.mono hhome⟩
    | lookupNext kv nextTag callers =>
      obtain ⟨t, ht, hstack, hlook⟩ := hplace
      refine ⟨t, hhome.home ht, hstack.mono hhome, hlook.imp_left ?_⟩
      rintro ⟨rfl, hset⟩
      exact ⟨rfl, hcleared List.mem_cons_self ht hset⟩
    | testCompleted kv next callers =>
      obtain ⟨t, u, hnext, ht, hu, hstack⟩ := hplace
      exact ⟨t, u, hnext, hhome.home ht, hhome.home hu, hstack.mono hhome⟩
    | removeSelf kv callers =>
      obtain ⟨t, u, hnext, ht, hu, hstack⟩ := hplace
      exact ⟨t, u, hnext, hhome.home ht, hu.trans (hmove.rank_le u), hstack.mono hhome⟩
    | writeSent kv callers =>
      obtain ⟨t, ht, hset, hstack⟩ := hplace
      exact ⟨t, hhome.home ht, hcleared List.mem_cons_self ht hset, hstack.mono hhome⟩

end

end Cse461.Multiplex.HandOff
