import Cse461.Multiplex.Entries

/-!
# Sending a buffer, and those that wait for it

`handle_finished_buffer_next` passes a buffer to the handler, then the buffer
its `next_tag` leads to if that is complete, then the next one, and so on: a
*cascade* (`Cascade`). On the way back it removes every buffer but the last
from the table and marks all of them as sent. `Reader.sendAll` is the state it
leaves (`wp_handleFinishedBufferNext`).

A cascade that comes back to none of its buffers is no longer than the heap, so
the recursion ends (`wp_sendBuffer`).
-/

namespace Cse461.Multiplex

open Library

namespace Reader

variable (r : Reader)

/-- The address the `next_tag` of the buffer `b` leads to. -/
def follow (b : BufferInfo) : Option Ptr :=
  if b.lastBlock then none else r.table (intKey b.nextTag)

/-- The key the buffer at `p` is removed by. -/
def ownKey (p : Ptr) : Option UInt64 := (r.heap p).map fun b => intKey b.tag

/-- The call of the handler with the buffer at `p`. -/
def handing (p : Ptr) : Option Event :=
  (r.heap p).map (.handled p)

/-- The state after the buffers `l` were sent, one by the other. -/
def sendAll (l : List Ptr) : Reader where
  heap p := if p ∈ l then (r.heap p).map fun b => { b with sent := true } else r.heap p
  next := r.next
  table key := if some key ∈ l.dropLast.map r.ownKey then none else r.table key
  log := r.log ++ l.filterMap r.handing

/-- The buffers sent when the one at `p` is. -/
inductive Cascade : Ptr → List Ptr → Prop
  | stop {p : Ptr} {b : BufferInfo} : r.heap p = some b →
      (∀ q, r.follow b = some q → ∃ c, r.heap q = some c ∧ c.completed = false) → Cascade p [p]
  | step {p q : Ptr} {b c : BufferInfo} {l : List Ptr} : r.heap p = some b →
      r.follow b = some q → r.heap q = some c → c.completed = true → Cascade q l →
      Cascade p (p :: l)

variable {r}

theorem Cascade.ne_nil {p : Ptr} {l : List Ptr} (h : r.Cascade p l) : l ≠ [] := by
  cases h <;> simp

theorem Cascade.heap {p : Ptr} {l : List Ptr} (h : r.Cascade p l) :
    ∀ q ∈ l, ∃ b, r.heap q = some b := by
  induction h with
  | stop hb _ => simpa using ⟨_, hb⟩
  | step hb _ _ _ _ ih =>
    intro q hq
    rcases List.mem_cons.1 hq with rfl | hq
    · exact ⟨_, hb⟩
    · exact ih q hq

/-! ### The state after a cascade -/

section SendAll

variable {p : Ptr} {l : List Ptr} {b : BufferInfo} {key : UInt64}

/-- Sending touches no field of a buffer but `sent`. -/
theorem heap_sendAll (hb : r.heap p = some b) :
    (r.sendAll l).heap p = some { b with sent := if p ∈ l then true else b.sent } := by
  by_cases hp : p ∈ l <;> simp [sendAll, hp, hb]

theorem table_sendAll : (r.sendAll l).table key =
    if some key ∈ l.dropLast.map r.ownKey then none else r.table key := rfl

/-- Sending files nothing. -/
theorem table_of_table_sendAll (h : (r.sendAll l).table key = some p) : r.table key = some p := by
  rw [table_sendAll] at h
  split at h
  · exact absurd h (by simp)
  · exact h

theorem WellFormed.sendAll (hr : r.WellFormed) : (r.sendAll l).WellFormed where
  live h := by
    obtain ⟨b, hb⟩ := hr.live (table_of_table_sendAll h)
    exact ⟨_, heap_sendAll hb⟩
  below {p b} h := by
    cases hp : r.heap p with
    | none => simp [Reader.sendAll, hp] at h
    | some c => exact hr.below hp
  inj h h' := hr.inj (table_of_table_sendAll h) (table_of_table_sendAll h')

theorem entry_sendAll_of_removed (h : some key ∈ l.dropLast.map r.ownKey) :
    (r.sendAll l).entry key = none := by
  rw [entry, table_sendAll, if_pos h]
  rfl

theorem entry_sendAll_of_none (h : r.table key = none) : (r.sendAll l).entry key = none := by
  rw [entry, table_sendAll, h, ite_self]
  rfl

theorem entry_sendAll (h : some key ∉ l.dropLast.map r.ownKey) (hp : r.table key = some p)
    (hb : r.heap p = some b) :
    (r.sendAll l).entry key = some { b with sent := if p ∈ l then true else b.sent } := by
  rw [entry, table_sendAll, if_neg h, hp]
  exact heap_sendAll hb

theorem handled_sendAll : (r.sendAll l).handled =
    r.handled ++ l.filterMap fun p => (r.heap p).map BufferInfo.bytes := by
  simp only [handled, sendAll, List.filterMap_append, List.filterMap_filterMap]
  congr 2
  funext p
  simp only [handing]
  cases r.heap p <;> rfl

end SendAll

end Reader

open Reader

variable {r : Reader} {p : Ptr} {l : List Ptr} {E : Stop → Reader → Prop}
  {Q : PUnit → Reader → Prop}

@[simp] theorem wp_lookupNext {Q : Option Ptr → Reader → Prop} (b : BufferInfo) :
    wp (lookupNext b) Q E r ↔ Q (r.follow b) r := by
  by_cases h : b.lastBlock = true <;> simp [lookupNext, follow, h]

theorem wp_markSent {b : BufferInfo} (hb : r.heap p = some b) :
    wp (markSent p) Q E r ↔ Q ⟨⟩ (r.set p { b with sent := true }) := wp_update _ hb

/-- The state after a buffer that has no successor to send is sent. -/
theorem sendAll_singleton {b : BufferInfo} {e : Event} (hb : r.heap p = some b)
    (he : r.handing p = some e) : r.sendAll [p] = (r.record e).set p { b with sent := true } := by
  have hheap : (r.sendAll [p]).heap = Function.update r.heap p (some { b with sent := true }) := by
    funext q
    by_cases hq : q = p
    · subst hq
      simp [sendAll, hb]
    · simp [sendAll, hq]
  calc r.sendAll [p] = { r.sendAll [p] with
          heap := Function.update r.heap p (some { b with sent := true }) } := by rw [← hheap]
    _ = (r.record e).set p { b with sent := true } := by simp [sendAll, he, record, Reader.set]

/-- The state after a buffer is sent, and its successors `l` in between. -/
theorem sendAll_cons {b b' : BufferInfo} {e : Event} (hb : r.heap p = some b)
    (he : r.handing p = some e) (hl : l ≠ [])
    (hb' : ((r.record e).sendAll l).heap p = some b') : r.sendAll (p :: l) =
      (((r.record e).sendAll l).remove (intKey b'.tag)).set p { b' with sent := true } := by
  have hsent : { b' with sent := true } = { b with sent := true } := by
    by_cases hp : p ∈ l
    · have : some { b with sent := true } = some b' := by simpa [sendAll, hp, hb] using hb'
      rw [← Option.some.inj this]
    · have : some b = some b' := by simpa [sendAll, hp, hb] using hb'
      rw [Option.some.inj this]
  have htag : b'.tag = b.tag := by simpa using congrArg BufferInfo.tag hsent
  have hkey : r.ownKey p = some (intKey b.tag) := by simp [ownKey, hb]
  have hheap : (r.sendAll (p :: l)).heap =
      Function.update ((r.record e).sendAll l).heap p (some { b with sent := true }) := by
    funext q
    by_cases hq : q = p
    · subst hq
      simp [sendAll, hb]
    · simp [sendAll, hq]
  have htable : (r.sendAll (p :: l)).table =
      Function.update ((r.record e).sendAll l).table (intKey b.tag) none := by
    funext key
    change (if some key ∈ (p :: l).dropLast.map r.ownKey then none else r.table key) =
      Function.update (fun key => if some key ∈ l.dropLast.map r.ownKey then none else r.table key)
        (intKey b.tag) none key
    rw [List.dropLast_cons_of_ne_nil hl, List.map_cons, hkey, Function.update_apply]
    by_cases hk : key = intKey b.tag <;> simp [hk]
  have hlog : (r.sendAll (p :: l)).log = ((r.record e).sendAll l).log := by
    change r.log ++ (p :: l).filterMap r.handing = r.log ++ [e] ++ l.filterMap r.handing
    rw [List.filterMap_cons_some he, List.append_assoc]
    rfl
  rw [hsent, htag]
  calc r.sendAll (p :: l) = ⟨(r.sendAll (p :: l)).heap, r.next, (r.sendAll (p :: l)).table,
          (r.sendAll (p :: l)).log⟩ := rfl
    _ = _ := by rw [hheap, htable, hlog]; rfl

/-- `handle_finished_buffer_next` sends a cascade, given enough depth. -/
theorem wp_handleFinishedBufferNext (h : r.Cascade p l) {depth : ℕ} (hd : l.length ≤ depth) :
    wp (handleFinishedBufferNext depth p) Q E r ↔ Q ⟨⟩ (r.sendAll l) := by
  -- The recursive call runs in a state with a longer log only.
  suffices hrun : ∀ r' : Reader, r'.heap = r.heap → r'.table = r.table → ∀ Q : PUnit → _ → Prop,
      wp (handleFinishedBufferNext depth p) Q E r' ↔ Q ⟨⟩ (r'.sendAll l) from hrun r rfl rfl Q
  induction h generalizing depth with
  | @stop p b hb hstop =>
    intro r' hheap htable Q
    obtain ⟨depth, rfl⟩ : ∃ n, depth = n + 1 := ⟨depth - 1, by simp at hd; omega⟩
    have hb' : r'.heap p = some b := by rw [hheap, hb]
    have he : r'.handing p = some (.handled p b) := by
      simp [handing, hb']
    have hrec : ∀ e : Event, (r'.record e).heap p = some b := fun _ => hb'
    rw [handleFinishedBufferNext, wp_bind, wp_callHandler hb', wp_bind, wp_load (hrec _), wp_bind,
      wp_lookupNext, sendAll_singleton hb' he]
    cases hf : (r'.record _).follow b with
    | none => exact wp_markSent (hrec _)
    | some q =>
      have hq : r.follow b = some q := by rw [← hf]; simp only [follow, table_record, htable]
      obtain ⟨c, hc, hcompleted⟩ := hstop q hq
      simp only [wp_bind]
      rw [wp_load (show (r'.record _).heap q = some c from by rw [heap_record, hheap, hc]),
        if_neg (by simp [hcompleted])]
      exact wp_markSent (hrec _)
  | @step p q b c l hb hfollow hc hcompleted hcascade ih =>
    intro r' hheap htable Q
    obtain ⟨depth, rfl⟩ : ∃ n, depth = n + 1 := ⟨depth - 1, by simp at hd; omega⟩
    have hb' : r'.heap p = some b := by rw [hheap, hb]
    have he : r'.handing p = some (.handled p b) := by
      simp [handing, hb']
    have hrec : ∀ e : Event, (r'.record e).heap p = some b := fun _ => hb'
    obtain ⟨b', hb''⟩ : ∃ b',
        ((r'.record (.handled p b)).sendAll l).heap p = some b' := by
      by_cases hp : p ∈ l <;> simp [sendAll, hp, hb']
    rw [handleFinishedBufferNext, wp_bind, wp_callHandler hb', wp_bind, wp_load (hrec _), wp_bind,
      wp_lookupNext, show (r'.record _).follow b = some q by
        rw [← hfollow]; simp only [follow, table_record, htable]]
    simp only [wp_bind]
    rw [wp_load (show (r'.record _).heap q = some c from by rw [heap_record, hheap, hc]),
      if_pos hcompleted, wp_bind, ih (by simpa using hd) (r'.record _) hheap htable, wp_bind, wp_load hb'',
      wp_bind, wp_removeFromHashTable, sendAll_cons hb' he hcascade.ne_nil hb'']
    exact wp_markSent hb''

/-- A cascade that visits no buffer twice is sent. -/
theorem wp_sendBuffer (hr : r.WellFormed) (h : r.Cascade p l) (hl : l.Nodup) :
    wp (sendBuffer p) Q E r ↔ Q ⟨⟩ (r.sendAll l) := by
  have hlen : l.length ≤ r.next + 1 := by
    have hsub : l ⊆ List.range r.next := fun q hq => by
      obtain ⟨b, hb⟩ := h.heap q hq
      exact List.mem_range.2 (hr.below hb)
    have := (hl.subperm hsub).length_le
    rw [List.length_range] at this
    omega
  exact wp_handleFinishedBufferNext h hlen

end Cse461.Multiplex
