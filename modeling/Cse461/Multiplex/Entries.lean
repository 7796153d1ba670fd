import Cse461.Multiplex.Reader

/-!
# The table of buffers

Seen from outside, the table maps keys to buffers (`Reader.entry`); the
addresses in between are a matter of the heap. This holds as long as the table
files no freed address, and no address twice (`Reader.WellFormed`).

The operations of the reader are given their preconditions here, so that a
proof about a call never unfolds them: each is one step on the state (`wp_load`,
`wp_update`, `wp_insertDummyBuffer`, ...), and each step on the state is one
step on the entries (`entry_set`, `entry_fileNew`, `entry_remove`, ...).
-/

namespace Cse461.Multiplex

open Library

/-! ## The state -/

namespace Reader

variable (r : Reader)

/-- The buffer filed under `key`. -/
def entry (key : UInt64) : Option BufferInfo := r.table key >>= r.heap

/-- Allocate a buffer and file it under `key`. -/
def fileNew (key : UInt64) (b : BufferInfo) : Reader := (r.alloc b).insert key r.next

/-- Remove the entry of `key` and free its buffer, which is at `p`. -/
def dispose (key : UInt64) (p : Ptr) : Reader := (r.remove key).free p

/-- The table files allocated buffers, and none under two keys. -/
structure WellFormed : Prop where
  live : ∀ {key p}, r.table key = some p → ∃ b, r.heap p = some b
  below : ∀ {p b}, r.heap p = some b → p < r.next
  inj : ∀ {key key' p}, r.table key = some p → r.table key' = some p → key = key'

section Fields

variable (p q : Ptr) (b : BufferInfo) (key : UInt64) (e : Event)

@[simp] theorem heap_set : (r.set p b).heap = Function.update r.heap p (some b) := rfl
theorem heap_set_self : (r.set p b).heap p = some b := by simp [set]
@[simp] theorem table_set : (r.set p b).table = r.table := rfl
@[simp] theorem next_set : (r.set p b).next = r.next := rfl
@[simp] theorem log_set : (r.set p b).log = r.log := rfl

@[simp] theorem heap_fileNew :
    (r.fileNew key b).heap = Function.update r.heap r.next (some b) := rfl
@[simp] theorem table_fileNew :
    (r.fileNew key b).table = Function.update r.table key (some r.next) := rfl
@[simp] theorem next_fileNew : (r.fileNew key b).next = r.next + 1 := rfl
@[simp] theorem log_fileNew : (r.fileNew key b).log = r.log := rfl

@[simp] theorem heap_remove : (r.remove key).heap = r.heap := rfl
@[simp] theorem table_remove : (r.remove key).table = Function.update r.table key none := rfl
@[simp] theorem next_remove : (r.remove key).next = r.next := rfl
@[simp] theorem log_remove : (r.remove key).log = r.log := rfl

@[simp] theorem heap_dispose : (r.dispose key p).heap = Function.update r.heap p none := rfl
@[simp] theorem table_dispose : (r.dispose key p).table = Function.update r.table key none := rfl
@[simp] theorem next_dispose : (r.dispose key p).next = r.next := rfl
@[simp] theorem log_dispose : (r.dispose key p).log = r.log := rfl

@[simp] theorem heap_record : (r.record e).heap = r.heap := rfl
@[simp] theorem table_record : (r.record e).table = r.table := rfl
@[simp] theorem next_record : (r.record e).next = r.next := rfl
@[simp] theorem log_record : (r.record e).log = r.log ++ [e] := rfl

@[simp] theorem set_set (b' : BufferInfo) : (r.set p b).set p b' = r.set p b' := by
  simp [set]

end Fields

variable {r} {p q : Ptr} {b b' : BufferInfo} {key : UInt64}

theorem wellFormed_empty : empty.WellFormed where
  live h := by simp [empty] at h
  below h := by simp [empty] at h
  inj h := by simp [empty] at h

theorem entry_eq_some : r.entry key = some b ↔ ∃ p, r.table key = some p ∧ r.heap p = some b := by
  simp only [entry, Option.bind_eq_bind, Option.bind_eq_some_iff]

theorem entry_of_table (hp : r.table key = some p) (hb : r.heap p = some b) :
    r.entry key = some b := entry_eq_some.2 ⟨p, hp, hb⟩

theorem WellFormed.entry_eq_none (hr : r.WellFormed) : r.entry key = none ↔ r.table key = none := by
  refine ⟨fun h => ?_, fun h => by simp [entry, h]⟩
  by_contra hne
  obtain ⟨p, hp⟩ := Option.ne_none_iff_exists'.1 hne
  obtain ⟨b, hb⟩ := hr.live hp
  rw [entry_of_table hp hb] at h
  exact absurd h (Option.some_ne_none b)

theorem WellFormed.heap_next (hr : r.WellFormed) : r.heap r.next = none := by
  by_contra h
  obtain ⟨b, hb⟩ := Option.ne_none_iff_exists'.1 h
  exact lt_irrefl _ (hr.below hb)

theorem WellFormed.table_ne_next (hr : r.WellFormed) (hp : r.table key = some p) : p ≠ r.next := by
  obtain ⟨b, hb⟩ := hr.live hp
  exact (hr.below hb).ne

/-! ### Overwriting a buffer -/

theorem WellFormed.set (hr : r.WellFormed) (hp : r.heap p = some b') : (r.set p b).WellFormed where
  live {key q} h := by
    by_cases hq : q = p
    · exact ⟨b, by simp [hq]⟩
    · simpa [hq] using hr.live h
  below {q c} h := by
    by_cases hq : q = p
    · subst hq
      exact hr.below hp
    · exact hr.below (by simpa [hq] using h)
  inj h h' := hr.inj h h'

theorem WellFormed.entry_set (hr : r.WellFormed) (hp : r.table key = some p) :
    (r.set p b).entry = Function.update r.entry key (some b) := by
  funext key'
  by_cases hk : key' = key
  · subst hk
    simp [entry, hp]
  · rw [Function.update_of_ne hk]
    simp only [entry, table_set, heap_set]
    cases hq : r.table key' with
    | none => rfl
    | some q =>
      have hne : q ≠ p := fun h => hk (hr.inj (h ▸ hq) hp)
      simp [hne]

/-- A buffer that is not in the table is no entry. -/
theorem entry_set_of_not_filed (hp : ∀ key, r.table key ≠ some p) :
    (r.set p b).entry = r.entry := by
  funext key
  simp only [entry, table_set, heap_set]
  cases hq : r.table key with
  | none => rfl
  | some q =>
    have hne : q ≠ p := fun h => hp key (h ▸ hq)
    simp [hne]

/-! ### Filing a new buffer -/

theorem WellFormed.fileNew (hr : r.WellFormed) : (r.fileNew key b).WellFormed where
  live {key' q} h := by
    by_cases hk : key' = key
    · have hq : r.next = q := by simpa [hk] using h
      exact ⟨b, by simp [← hq]⟩
    · have hq : r.table key' = some q := by simpa [hk] using h
      obtain ⟨c, hc⟩ := hr.live hq
      exact ⟨c, by simp [hr.table_ne_next hq, hc]⟩
  below {q c} h := by
    by_cases hq : q = r.next
    · simp [hq]
    · exact Nat.lt_succ_of_lt (hr.below (by simpa [hq] using h))
  inj {k k' q} h h' := by
    by_cases hk : k = key <;> by_cases hk' : k' = key
    · rw [hk, hk']
    · have hq : r.next = q := by simpa [hk] using h
      exact absurd hq.symm (hr.table_ne_next (by simpa [hk'] using h'))
    · have hq : r.next = q := by simpa [hk'] using h'
      exact absurd hq.symm (hr.table_ne_next (by simpa [hk] using h))
    · exact hr.inj (by simpa [hk] using h) (by simpa [hk'] using h')

theorem WellFormed.entry_fileNew (hr : r.WellFormed) :
    (r.fileNew key b).entry = Function.update r.entry key (some b) := by
  funext key'
  by_cases hk : key' = key
  · subst hk
    simp [entry]
  · rw [Function.update_of_ne hk]
    simp only [entry, table_fileNew, heap_fileNew, Function.update_of_ne hk]
    cases hq : r.table key' with
    | none => rfl
    | some q => simp [hr.table_ne_next hq]

/-! ### Removing an entry -/

theorem WellFormed.remove (hr : r.WellFormed) : (r.remove key).WellFormed where
  live {key' q} h := by
    by_cases hk : key' = key
    · simp [hk] at h
    · exact hr.live (by simpa [hk] using h)
  below h := hr.below h
  inj {k k' q} h h' := by
    by_cases hk : k = key
    · simp [hk] at h
    · by_cases hk' : k' = key
      · simp [hk'] at h'
      · exact hr.inj (by simpa [hk] using h) (by simpa [hk'] using h')

@[simp] theorem entry_remove :
    (r.remove key).entry = Function.update r.entry key none := by
  funext key'
  by_cases hk : key' = key
  · subst hk
    simp [entry]
  · simp [entry, hk]

theorem WellFormed.dispose (hr : r.WellFormed) (hp : r.table key = some p) :
    (r.dispose key p).WellFormed where
  live {key' q} h := by
    by_cases hk : key' = key
    · simp [hk] at h
    · have hq : r.table key' = some q := by simpa [hk] using h
      have hne : q ≠ p := fun h => hk (hr.inj (h ▸ hq) hp)
      simpa [hne] using hr.live hq
  below {q c} h := by
    by_cases hq : q = p
    · simp [hq] at h
    · exact hr.below (by simpa [hq] using h)
  inj := (hr.remove : (r.remove key).WellFormed).inj

theorem WellFormed.entry_dispose (hr : r.WellFormed) (hp : r.table key = some p) :
    (r.dispose key p).entry = Function.update r.entry key none := by
  funext key'
  by_cases hk : key' = key
  · subst hk
    simp [entry]
  · rw [Function.update_of_ne hk]
    simp only [entry, table_dispose, heap_dispose, Function.update_of_ne hk]
    cases hq : r.table key' with
    | none => rfl
    | some q =>
      have hne : q ≠ p := fun h => hk (hr.inj (h ▸ hq) hp)
      simp [hne]

/-! ### The log -/

theorem WellFormed.record (hr : r.WellFormed) (e : Event) : (r.record e).WellFormed where
  live := hr.live
  below := hr.below
  inj := hr.inj

@[simp] theorem entry_record (e : Event) : (r.record e).entry = r.entry := rfl

@[simp] theorem handled_set : (r.set p b).handled = r.handled := rfl

@[simp] theorem handled_record_copied (d : DataBlock) :
    (r.record (.copied p b d)).handled = r.handled := by
  simp [handled]

end Reader

/-! ## The operations -/

section Operations

variable {r : Reader} {E : Stop → Reader → Prop} {p : Ptr} {b : BufferInfo}

theorem wp_load {Q : BufferInfo → Reader → Prop} (hb : r.heap p = some b) :
    wp (load p) Q E r ↔ Q b r := by
  simp [load, hb]

theorem wp_update {Q : PUnit → Reader → Prop} (f : BufferInfo → BufferInfo)
    (hb : r.heap p = some b) : wp (update p f) Q E r ↔ Q ⟨⟩ (r.set p (f b)) := by
  rw [update, wp_bind, wp_load hb, wp_modify]

@[simp] theorem wp_lookupHashTable {Q : Option Ptr → Reader → Prop} (key : UInt64) :
    wp (lookupHashTable key) Q E r ↔ Q (r.table key) r := Iff.rfl

@[simp] theorem wp_removeFromHashTable {Q : PUnit → Reader → Prop} (key : UInt64) :
    wp (removeFromHashTable key) Q E r ↔ Q ⟨⟩ (r.remove key) := Iff.rfl

theorem wp_free {Q : PUnit → Reader → Prop} (hb : r.heap p = some b) :
    wp (free p) Q E r ↔ Q ⟨⟩ (r.free p) := by
  rw [free, wp_bind, wp_load hb, wp_modify]

theorem wp_callHandler {Q : PUnit → Reader → Prop} (hb : r.heap p = some b) :
    wp (callHandler p) Q E r ↔ Q ⟨⟩ (r.record (.handled p b)) := by
  rw [callHandler, wp_bind, wp_load hb, wp_modify]

/-- The dummy `insert_dummy_buffer` makes. -/
def dummy (tag nextTag : UInt32) (waitingQueue : Option (List DataBlock)) : BufferInfo :=
  { tag := tag.toInt32, nextTag := nextTag.toInt32, waitingQueue }

/-- Where the key is free, `insert_dummy_buffer` files a dummy under it. -/
theorem wp_insertDummyBuffer {Q : Bool × Ptr → Reader → Prop} {tag nextTag : UInt32}
    {waitingQueue : Option (List DataBlock)} (h : r.table (wordKey tag) = none) :
    wp (insertDummyBuffer tag nextTag waitingQueue) Q E r ↔
      Q (true, r.next) (r.fileNew (wordKey tag) (dummy tag nextTag waitingQueue)) := by
  simp only [insertDummyBuffer, calloc, insertHashTable, wp_bind, wp_get, wp_set, wp_pure]
  rw [show (r.alloc _).table (wordKey tag) = none from h]
  exact Iff.rfl

/-- Where there is an entry, `insert_dummy_buffer` leaves it there. -/
theorem wp_insertDummyBuffer_of_some {Q : Bool × Ptr → Reader → Prop} {tag nextTag : UInt32}
    {waitingQueue : Option (List DataBlock)} (hr : r.WellFormed)
    (h : r.table (wordKey tag) = some p) :
    wp (insertDummyBuffer tag nextTag waitingQueue) Q E r ↔
      Q (false, p) { r with next := r.next + 1 } := by
  let d := dummy tag nextTag waitingQueue
  have hheap : ((((r.alloc d).insert (wordKey tag) r.next).insert (wordKey tag) p).heap r.next) =
      some d := by simp [Reader.alloc, Reader.insert]
  have hstate : (((r.alloc d).insert (wordKey tag) r.next).insert (wordKey tag) p).free r.next =
      { r with next := r.next + 1 } := by
    simp only [Reader.alloc, Reader.insert, Reader.free, Function.update_idem]
    rw [← h, Function.update_eq_self, ← hr.heap_next, Function.update_eq_self]
  simp only [insertDummyBuffer, calloc, insertHashTable, wp_bind, wp_get, wp_set, wp_pure]
  rw [show (r.alloc _).table (wordKey tag) = some p from h]
  simp only [wp_bind, wp_get, wp_set, wp_pure]
  rw [show ({ tag := tag.toInt32, nextTag := nextTag.toInt32, waitingQueue } : BufferInfo) = d from rfl,
    wp_free hheap, hstate]

theorem wp_lookupPrev {Q : Ptr → Reader → Prop} (h : r.table (intKey b.prevTag) = some p) :
    wp (lookupPrev b) Q E r ↔ Q p r := by
  rw [lookupPrev, wp_bind, wp_lookupHashTable, h, wp_pure]

/-- A dummy is made for a buffer that is not there, if its tag has one key only. -/
theorem wp_lookupPrev_of_none {Q : Ptr → Reader → Prop} (h : r.table (intKey b.prevTag) = none)
    (htag : 0 ≤ b.prevTag) : wp (lookupPrev b) Q E r ↔ Q r.next
      (r.fileNew (intKey b.prevTag) (dummy b.prevTag.toUInt32 b.tag.toUInt32 none)) := by
  have hkey : wordKey b.prevTag.toUInt32 = intKey b.prevTag := wordKey_eq_intKey_iff.2 ⟨rfl, htag⟩
  rw [lookupPrev, wp_bind, wp_lookupHashTable, h, wp_bind, wp_insertDummyBuffer (hkey ▸ h), hkey,
    wp_pure]

/-! ### Copies -/

/-- The buffer `b` after the payload of `d` was copied to it. -/
def BufferInfo.copy (b : BufferInfo) (d : DataBlock) : BufferInfo :=
  { b with
    buffer := write b.buffer d.seqNumber.toNat (d.payload.take d.dataSize.toNat)
    nWritten := b.nWritten + d.dataSize }

/-- The payload of `d` is as long as the header says, and has its place in `b`. -/
def BufferInfo.Fits (b : BufferInfo) (d : DataBlock) : Prop :=
  d.dataSize.toNat ≤ d.payload.length ∧ d.seqNumber.toNat + d.dataSize.toNat ≤ b.buffer.length

/-- A block that fits is copied, and the buffer is finished if that makes
    `n_written` its size. -/
theorem wp_copyData {Q : PUnit → Reader → Prop} {kv : Option Ptr} {d : DataBlock}
    (hb : r.heap p = some b) (hd : b.Fits d) :
    wp (copyData p kv d) Q E r ↔
      (((b.copy d).nWritten = b.bufferSize → wp (handleFinished kv) Q E
          ((r.record (.copied p b d)).set p { b.copy d with completed := true })) ∧
        ((b.copy d).nWritten ≠ b.bufferSize →
          Q ⟨⟩ ((r.record (.copied p b d)).set p (b.copy d)))) := by
  have h₀ : (r.record (.copied p b d)).heap p = some b := hb
  have h₁ : ((r.record (.copied p b d)).set p { b with
      buffer := write b.buffer d.seqNumber.toNat (d.payload.take d.dataSize.toNat) }).heap p =
        some { b with
          buffer := write b.buffer d.seqNumber.toNat (d.payload.take d.dataSize.toNat) } := by
    simp
  have h₂ : ((r.record (.copied p b d)).set p (b.copy d)).heap p = some (b.copy d) := by simp
  unfold copyData
  rw [wp_bind, wp_load hb, if_neg (not_lt.2 hd.1), if_neg (not_lt.2 hd.2), wp_bind,
    wp_modify, wp_bind, wp_update _ h₀, wp_bind, wp_update _ h₁, Reader.set_set]
  change wp (do
    let b ← load p
    if b.nWritten = b.bufferSize then _ else _) Q E
      ((r.record (.copied p b d)).set p (b.copy d)) ↔ _
  rw [wp_bind, wp_load h₂, wp_ite]
  refine and_congr (imp_congr_right fun _ => ?_) (imp_congr_right fun _ => wp_pure _)
  rw [wp_bind, wp_update _ h₂, Reader.set_set]

/-- A block that does not fit stops the call. -/
theorem wp_copyData_of_not_fits {Q : PUnit → Reader → Prop} {kv : Option Ptr} {d : DataBlock}
    (hb : r.heap p = some b) (hd : ¬b.Fits d) (hE : ∀ e, E e r) : wp (copyData p kv d) Q E r := by
  unfold copyData
  rw [wp_bind, wp_load hb]
  by_cases hlen : d.payload.length < d.dataSize.toNat
  · rw [if_pos hlen]
    exact hE _
  · rw [if_neg hlen, if_pos]
    · exact hE _
    · by_contra hle
      exact hd ⟨not_lt.1 hlen, not_lt.1 hle⟩

end Operations

end Cse461.Multiplex
