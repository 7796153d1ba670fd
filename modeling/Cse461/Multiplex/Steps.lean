import Cse461.Multiplex.Cascade

/-!
# Steps of the reader

Whatever blocks arrive, a call of `handle_block` changes the state of the reader
in steps of a few kinds only (`Reader.Step`), whether it returns or stops
(`wp_handleBlocks_steps`). An invariant of the reader is then one of its steps
(`Reader.Steps.invariant`), whatever the control flow in between.

* The steps keep the table in order (`Filed`): an entry is filed under the key of
  its tag, or is a dummy filed under the key that its tag has as a `uint32_t`.
* A buffer that is completed stays so, until it is freed (`Done`).
-/

namespace Cse461.Multiplex

open Library Relation

namespace Reader

variable (r : Reader)

/-- What a call can do to the state of the reader. -/
inductive Step : Reader → Prop
  /-- A dummy is filed, under a key that is free. -/
  | fileDummy {tag nextTag : UInt32} {queue : Option (List DataBlock)} :
      r.table (wordKey tag) = none → Step (r.fileNew (wordKey tag) (dummy tag nextTag queue))
  /-- A buffer is filed by its init block. -/
  | fileInit {i : InitBlock} : r.table (intKey i.tag) = none →
      Step (r.fileNew (intKey i.tag) (.init { nextTag := noTag } i))
  /-- A dummy is made, and freed as there is one already. -/
  | reserve : Step { r with next := r.next + 1 }
  /-- A dummy is made a buffer by its init block. -/
  | init {p : Ptr} {b : BufferInfo} {i : InitBlock} : r.table (intKey i.tag) = some p →
      r.heap p = some b → b.valid = false → Step (r.set p (b.init i))
  /-- The waiting queue of a buffer changes. -/
  | queue {p : Ptr} {b : BufferInfo} {queue : Option (List DataBlock)} : r.heap p = some b →
      Step (r.set p { b with waitingQueue := queue })
  /-- A buffer gets to know the one after it. -/
  | link {p : Ptr} {b : BufferInfo} {tag : Int32} : r.heap p = some b → b.sent = false →
      Step (r.set p { b with nextTag := tag })
  /-- A data block is copied to the buffer of its tag. -/
  | copied {p : Ptr} {b : BufferInfo} {d : DataBlock} : r.table (intKey d.tag) = some p →
      r.heap p = some b → b.valid = true → b.Fits d →
      Step ((r.record (.copied p b d)).set p { b.copy d with
        completed := b.completed || (b.copy d).nWritten = b.bufferSize })
  /-- A buffer is passed to the handler. -/
  | handled {p : Ptr} {b : BufferInfo} : r.heap p = some b → b.completed = true →
      Step (r.record (.handled p b))
  /-- A buffer that was passed to the handler is marked as sent. -/
  | sent {p : Ptr} {b b' : BufferInfo} : r.heap p = some b → b.completed = true →
      .handled p b' ∈ r.log → Step (r.set p { b with sent := true })
  /-- An entry is removed. -/
  | remove {key : UInt64} : Step (r.remove key)
  /-- A buffer without an entry is freed. -/
  | free {p : Ptr} : (∀ key, r.table key ≠ some p) → Step (r.free p)

/-- Steps one after the other. -/
abbrev Steps : Reader → Reader → Prop := ReflTransGen Step

/-- A property that every step keeps is kept. -/
theorem Steps.invariant {I : Reader → Prop} (hstep : ∀ {r r'}, Step r r' → I r → I r')
    {r r' : Reader} (h : Steps r r') (hr : I r) : I r' := by
  induction h with
  | refl => exact hr
  | tail _ hlast ih => exact hstep hlast ih

/-! ## What the steps keep -/

/-- Every entry is filed under the key of its tag, or under the key of its tag as a
    `uint32_t`, if it is a dummy; a dummy is neither completed nor sent. -/
structure Filed (r : Reader) : Prop extends r.WellFormed where
  key : ∀ {key p b}, r.table key = some p → r.heap p = some b →
    key = intKey b.tag ∨ key = wordKey b.tag.toUInt32 ∧ b.valid = false
  blank : ∀ {p b}, r.heap p = some b → b.valid = false → b.completed = false ∧ b.sent = false

variable {r : Reader} {r' : Reader} {p : Ptr} {b b' : BufferInfo}

theorem filed_empty : empty.Filed where
  toWellFormed := wellFormed_empty
  key h := by simp [empty] at h
  blank h := by simp [empty] at h

/-- A buffer is overwritten by one of the same tag. -/
theorem Filed.set (hr : r.Filed) (hb : r.heap p = some b) (htag : b'.tag = b.tag)
    (hvalid : b'.valid = b.valid) (hblank : b'.valid = false → b'.completed = false ∧ b'.sent = false) :
    (r.set p b').Filed where
  toWellFormed := hr.toWellFormed.set hb
  key {key q c} hq hc := by
    by_cases hqp : q = p
    · subst hqp
      obtain rfl : b' = c := by simpa using hc
      rw [htag, hvalid]
      exact hr.key hq hb
    · exact hr.key hq (by simpa [hqp] using hc)
  blank {q c} hc := by
    by_cases hqp : q = p
    · subst hqp
      obtain rfl : b' = c := by simpa using hc
      exact hblank
    · exact hr.blank (by simpa [hqp] using hc)

theorem Filed.fileNew (hr : r.Filed) {key : UInt64}
    (hkey : key = intKey b.tag ∨ key = wordKey b.tag.toUInt32 ∧ b.valid = false)
    (hblank : b.completed = false ∧ b.sent = false) : (r.fileNew key b).Filed where
  toWellFormed := hr.toWellFormed.fileNew
  key {key' q c} hq hc := by
    by_cases hk : key' = key
    · obtain rfl : r.next = q := by simpa [hk] using hq
      obtain rfl : b = c := by simpa using hc
      exact hk ▸ hkey
    · have hq' : r.table key' = some q := by simpa [hk] using hq
      exact hr.key hq' (by simpa [hr.table_ne_next hq'] using hc)
  blank {q c} hc := by
    by_cases hqn : q = r.next
    · subst hqn
      obtain rfl : b = c := by simpa using hc
      exact fun _ => hblank
    · exact hr.blank (by simpa [hqn] using hc)

/-- What is filed under the key of a tag has that tag. -/
theorem Filed.tag_eq (hr : r.Filed) {tag : Int32} (hp : r.table (intKey tag) = some p)
    (hb : r.heap p = some b) : b.tag = tag := by
  rcases hr.key hp hb with h | ⟨h, _⟩
  · exact (intKey_injective h).symm
  · exact (wordKey_eq_intKey_iff.1 h.symm).1

/-- What is filed under the key of a tag as a `uint32_t`, but not under that of
    the tag, is a dummy. -/
theorem Filed.valid_eq_false (hr : r.Filed) {tag : Int32} (hnone : r.table (intKey tag) = none)
    (hp : r.table (wordKey tag.toUInt32) = some p) (hb : r.heap p = some b) : b.valid = false := by
  rcases hr.key hp hb with h | ⟨_, h⟩
  · obtain ⟨rfl, _⟩ := wordKey_eq_intKey_iff.1 h
    rw [h, hnone] at hp
    exact absurd hp (by simp)
  · exact h

theorem Step.filed (h : r.Step r') (hr : r.Filed) : r'.Filed := by
  cases h with
  | fileDummy _ => exact hr.fileNew (.inr ⟨by simp [dummy], rfl⟩) ⟨rfl, rfl⟩
  | fileInit _ => exact hr.fileNew (.inl rfl) ⟨rfl, rfl⟩
  | reserve =>
    exact ⟨⟨hr.live, fun h => Nat.lt_succ_of_lt (hr.below h), hr.inj⟩, hr.key, hr.blank⟩
  | @init p b i hp hb hvalid =>
    refine ⟨hr.toWellFormed.set hb, fun {key q c} hq hc => ?_, fun {q c} hc hc' => ?_⟩
    · by_cases hqp : q = p
      · subst hqp
        obtain rfl : b.init i = c := by simpa using hc
        exact .inl (hr.inj hq hp)
      · exact hr.key hq (by simpa [hqp] using hc)
    · by_cases hqp : q = p
      · subst hqp
        obtain rfl : b.init i = c := by simpa using hc
        exact absurd hc' (by simp [BufferInfo.init])
      · exact hr.blank (by simpa [hqp] using hc) hc'
  | queue hb => exact hr.set hb rfl rfl (by simpa using hr.blank hb)
  | link hb _ => exact hr.set hb rfl rfl (by simpa using hr.blank hb)
  | copied _ hb hvalid _ =>
    refine Filed.set (r := r.record _) ⟨hr.record _, hr.key, hr.blank⟩ hb rfl rfl fun h => ?_
    exact absurd (hvalid.symm.trans h) (by simp)
  | handled _ _ => exact ⟨hr.record _, hr.key, hr.blank⟩
  | sent hb hcompleted _ =>
    refine hr.set hb rfl rfl fun h => ?_
    exact absurd (hcompleted.symm.trans (hr.blank hb h).1) (by simp)
  | remove =>
    refine ⟨hr.toWellFormed.remove, fun {key q c} hq hc => ?_, hr.blank⟩
    rw [table_remove, Function.update_apply] at hq
    split at hq
    · exact absurd hq (by simp)
    · exact hr.key hq hc
  | @free p hp =>
    have hne : ∀ {q c}, (r.free p).heap q = some c → q ≠ p ∧ r.heap q = some c := by
      intro q c hc
      by_cases hqp : q = p
      · simp [Reader.free, hqp] at hc
      · exact ⟨hqp, by simpa [Reader.free, hqp] using hc⟩
    refine ⟨⟨fun {key q} hq => ?_, fun hc => hr.below (hne hc).2, hr.inj⟩,
      fun hq hc => hr.key hq (hne hc).2, fun hc => hr.blank (hne hc).2⟩
    have hqp : q ≠ p := fun h => hp key (h ▸ hq)
    simpa [Reader.free, hqp] using hr.live hq

theorem Steps.filed (h : r.Steps r') (hr : r.Filed) : r'.Filed := h.invariant Step.filed hr

/-- A buffer that is completed, or freed since. -/
def Done (r : Reader) (p : Ptr) : Prop :=
  p < r.next ∧ ∀ b, r.heap p = some b → b.completed = true

theorem Step.done (h : r.Step r') (hp : r.Done p) : r'.Done p := by
  obtain ⟨hlt, hp⟩ := hp
  -- Overwriting a buffer that is completed leaves it completed.
  have hset : ∀ {q c c'}, r.heap q = some c → (c.completed = true → c'.completed = true) →
      ∀ b, (r.set q c').heap p = some b → b.completed = true := by
    intro q c c' hc hcc' b hb
    by_cases hpq : p = q
    · subst hpq
      obtain rfl : c' = b := by simpa using hb
      exact hcc' (hp _ hc)
    · exact hp _ (by simpa [hpq] using hb)
  cases h with
  | fileDummy _ => exact ⟨Nat.lt_succ_of_lt hlt, fun b hb => hp b (by simpa [hlt.ne] using hb)⟩
  | fileInit _ => exact ⟨Nat.lt_succ_of_lt hlt, fun b hb => hp b (by simpa [hlt.ne] using hb)⟩
  | reserve => exact ⟨Nat.lt_succ_of_lt hlt, hp⟩
  | init _ hb _ => exact ⟨hlt, hset hb fun h => h⟩
  | queue hb => exact ⟨hlt, hset hb fun h => h⟩
  | link hb _ => exact ⟨hlt, hset hb fun h => h⟩
  | copied _ hb _ _ => exact ⟨hlt, hset hb fun h => by simp [h]⟩
  | handled _ _ => exact ⟨hlt, hp⟩
  | sent hb _ _ => exact ⟨hlt, hset hb fun h => h⟩
  | remove => exact ⟨hlt, hp⟩
  | @free q _ =>
    refine ⟨hlt, fun b hb => ?_⟩
    by_cases hpq : p = q
    · simp [Reader.free, hpq] at hb
    · exact hp b (by simpa [Reader.free, hpq] using hb)

theorem Steps.done (h : r.Steps r') (hp : r.Done p) : r'.Done p := h.invariant Step.done hp

/-- An event of a log that got longer by one is the last, or one of the log before. -/
theorem append_singleton_eq_append_cons {l l₁ l₂ : List Event} {e e' : Event}
    (h : l ++ [e] = l₁ ++ e' :: l₂) :
    (l = l₁ ∧ e = e' ∧ l₂ = []) ∨ ∃ l₃, l₂ = l₃ ++ [e] ∧ l = l₁ ++ e' :: l₃ := by
  rcases List.eq_nil_or_concat l₂ with rfl | ⟨l₃, x, rfl⟩
  · obtain ⟨hl, he⟩ := List.append_inj' h rfl
    exact .inl ⟨hl, by simpa using he, rfl⟩
  · rw [List.concat_eq_append, ← List.cons_append, ← List.append_assoc] at h
    obtain ⟨hl, he⟩ := List.append_inj' h rfl
    obtain rfl : e = x := by simpa using he
    exact .inr ⟨l₃, by simp, hl⟩

/-- The log only gets longer. -/
theorem Step.log (h : r.Step r') : r.log <+: r'.log := by
  cases h
  case copied => exact List.prefix_append _ _
  case handled => exact List.prefix_append _ _
  all_goals exact List.prefix_refl _

theorem Steps.log (h : r.Steps r') : r.log <+: r'.log := by
  induction h with
  | refl => exact List.prefix_refl _
  | tail _ hlast ih => exact ih.trans hlast.log

end Reader

open Reader

variable {r r₁ : Reader} {p : Ptr}

/-! ## The calls take steps -/

/-- Whether it returns or stops, the call takes steps. -/
abbrev StepsFrom {α : Type} (r : Reader) (x : ReaderM α) (s : Reader) : Prop :=
  wp x (fun _ => r.Steps) (fun _ => r.Steps) s

/-- A call, from where steps led to. -/
theorem StepsFrom.trans {α : Type} {x : ReaderM α} (h : r.Steps r₁) (hx : StepsFrom r₁ x r₁) :
    StepsFrom r x r₁ :=
  wp_mono hx (fun _ _ => h.trans) fun _ _ => h.trans

/-- Reading a buffer stops the call if there is none. -/
theorem wp_load_iff {Q : BufferInfo → Reader → Prop} {E : Stop → Reader → Prop} :
    wp (load p) Q E r ↔
      (∀ b, r.heap p = some b → Q b r) ∧ (r.heap p = none → E .dangling r) := by
  cases hb : r.heap p with
  | none => simp [load, hb]
  | some b => simp [load, hb]

/-- After a buffer is read, it is there. -/
theorem StepsFrom.load {α : Type} {f : BufferInfo → ReaderM α} (h : r.Steps r₁)
    (hf : ∀ b, r₁.heap p = some b → StepsFrom r (f b) r₁) :
    StepsFrom r (Multiplex.load p >>= f) r₁ := by
  rw [StepsFrom, wp_bind, wp_load_iff]
  exact ⟨hf, fun _ => h⟩

theorem StepsFrom.update {f : BufferInfo → BufferInfo} (h : r.Steps r₁)
    (hf : ∀ b, r₁.heap p = some b → r₁.Step (r₁.set p (f b))) :
    StepsFrom r (Multiplex.update p f) r₁ :=
  .load h fun b hb => h.tail (hf b hb)

theorem stepsFrom_markSent {b : BufferInfo} (h : r.Steps r₁) (hp : r₁.Done p)
    (hlog : .handled p b ∈ r₁.log) : StepsFrom r (markSent p) r₁ :=
  .update h fun _ hb => .sent hb (hp.2 _ hb) hlog

/-- Sending a buffer that is completed. -/
theorem stepsFrom_handleFinishedBufferNext (depth : ℕ) (hr : r.Filed) (hp : r.Done p) :
    StepsFrom r (handleFinishedBufferNext depth p) r := by
  induction depth generalizing p r with
  | zero => exact .refl
  | succ depth ih =>
    rw [handleFinishedBufferNext, callHandler]
    simp only [bind_assoc]
    refine .load .refl fun b hb => ?_
    have h₁ : r.Steps (r.record (.handled p b)) := .single (.handled hb (hp.2 _ hb))
    have hlog : .handled p b ∈ (r.record (.handled p b)).log := by simp
    rw [StepsFrom, wp_bind, wp_modify]
    refine StepsFrom.load h₁ fun b' _ => ?_
    rw [StepsFrom, wp_bind, wp_lookupNext]
    cases hf : (r.record (.handled p b)).follow b' with
    | none => exact stepsFrom_markSent h₁ (h₁.done hp) hlog
    | some q =>
      refine StepsFrom.load h₁ fun c hc => ?_
      by_cases hcompleted : c.completed = true
      · rw [if_pos hcompleted]
        have hq : (r.record (.handled p b)).Done q := by
          refine ⟨hr.below hc, fun c' hc' => ?_⟩
          obtain rfl : c = c' := Option.some.inj (hc.symm.trans hc')
          exact hcompleted
        rw [StepsFrom, wp_bind]
        refine wp_mono (ih (h₁.filed hr) hq) (fun _ r₂ h₂ => ?_) fun _ _ h => h₁.trans h
        refine StepsFrom.load (h₁.trans h₂) fun b'' _ => ?_
        rw [StepsFrom, wp_bind, wp_removeFromHashTable]
        have h₃ : r.Steps (r₂.remove (intKey b''.tag)) := (h₁.trans h₂).tail .remove
        exact stepsFrom_markSent h₃ (h₃.done hp) (h₂.log.subset hlog)
      · rw [if_neg hcompleted]
        exact stepsFrom_markSent h₁ (h₁.done hp) hlog

theorem stepsFrom_sendBuffer (h : r.Steps r₁) (hr : r.Filed) (hp : r₁.Done p) :
    StepsFrom r (sendBuffer p) r₁ :=
  .trans h (stepsFrom_handleFinishedBufferNext _ (h.filed hr) hp)

/-- What `insert_dummy_buffer` finds or makes is not sent if its tag has no entry. -/
theorem wp_insertDummyBuffer_steps {tag : Int32} {nextTag : UInt32}
    {queue : Option (List DataBlock)} (hr : r.Filed) (hnone : r.table (intKey tag) = none) :
    wp (insertDummyBuffer tag.toUInt32 nextTag queue) (fun x r' => r.Steps r' ∧
      ∀ b, r'.heap x.2 = some b → b.valid = false ∧ b.sent = false) (fun _ r' => r.Steps r') r := by
  cases hq : r.table (wordKey tag.toUInt32) with
  | none =>
    rw [wp_insertDummyBuffer hq]
    refine ⟨.single (.fileDummy hq), fun b hb => ?_⟩
    obtain rfl : dummy _ _ _ = b := by simpa using hb
    exact ⟨rfl, rfl⟩
  | some q =>
    rw [wp_insertDummyBuffer_of_some hr.toWellFormed hq]
    refine ⟨.single .reserve, fun b hb => ?_⟩
    have hvalid := hr.valid_eq_false hnone hq hb
    exact ⟨hvalid, (hr.blank hb hvalid).2⟩

/-- The dependency of a buffer is filed under the key of its tag only, if it is sent. -/
theorem wp_lookupPrev_steps {done : BufferInfo} (hr : r.Filed) :
    wp (lookupPrev done) (fun q r' => r.Steps r' ∧ ∀ b, r'.heap q = some b → b.sent = true →
      ∀ key, r'.table key = some q → key = intKey done.prevTag) (fun _ r' => r.Steps r') r := by
  cases hq : r.table (intKey done.prevTag) with
  | none =>
    rw [lookupPrev, wp_bind, wp_lookupHashTable, hq, wp_bind]
    refine wp_mono (wp_insertDummyBuffer_steps hr hq)
      (fun x r' h => ⟨h.1, fun b hb hsent => ?_⟩) fun _ _ h => h
    exact absurd hsent (by simp [(h.2 b hb).2])
  | some q =>
    rw [wp_lookupPrev hq]
    exact ⟨.refl, fun b _ _ key hkey => hr.inj hkey hq⟩

theorem stepsFrom_handleFinishedBufferPrev (h : r.Steps r₁) (hr : r.Filed) (hp : r₁.Done p) :
    StepsFrom r (handleFinishedBufferPrev p) r₁ := by
  rw [handleFinishedBufferPrev]
  refine .load h fun done hdone => ?_
  by_cases hprev : done.prevTag ≠ noTag
  · rw [if_pos hprev, StepsFrom, wp_bind]
    refine wp_mono (wp_lookupPrev_steps (h.filed hr)) (fun q r₂ ⟨h₂, hq⟩ => ?_)
      fun _ _ h' => h.trans h'
    have h₂' := h.trans h₂
    refine StepsFrom.load h₂' fun b hb => ?_
    by_cases hsent : b.sent = true
    · rw [if_pos hsent, StepsFrom, wp_bind, wp_removeFromHashTable, wp_bind]
      rw [wp_free (r := r₂.remove _) hb]
      have hfree : ∀ key, (r₂.remove (intKey done.prevTag)).table key ≠ some q := by
        intro key hkey
        rw [table_remove, Function.update_apply] at hkey
        split at hkey
        · exact absurd hkey (by simp)
        · exact absurd (hq b hb hsent key hkey) ‹_›
      have h₄ : r₁.Steps ((r₂.remove (intKey done.prevTag)).free q) :=
        (h₂.tail .remove).tail (.free hfree)
      exact stepsFrom_sendBuffer (h.trans h₄) hr (h₄.done hp)
    · rw [if_neg hsent]
      exact StepsFrom.update h₂' fun b' hb' => by
        obtain rfl : b = b' := Option.some.inj (hb.symm.trans hb')
        exact .link hb (by simpa using hsent)
  · rw [if_neg hprev]
    exact stepsFrom_sendBuffer h hr hp

/-- Copying a data block to the buffer of its tag. -/
theorem stepsFrom_copyData {d : DataBlock} {b : BufferInfo} (h : r.Steps r₁) (hr : r.Filed)
    (hp : r₁.table (intKey d.tag) = some p) (hb : r₁.heap p = some b) (hvalid : b.valid = true) :
    StepsFrom r (copyData p (some p) d) r₁ := by
  by_cases hfits : b.Fits d
  · have hcopied := Step.copied hp hb hvalid hfits
    rw [StepsFrom, wp_copyData hb hfits]
    refine ⟨fun hw => ?_, fun hw => ?_⟩
    · rw [decide_eq_true hw, Bool.or_true] at hcopied
      refine stepsFrom_handleFinishedBufferPrev (h.tail hcopied) hr ⟨?_, fun c hc => ?_⟩
      · exact (h.filed hr).below hb
      · obtain rfl : { b.copy d with completed := true } = c := by simpa using hc
        rfl
    · rw [decide_eq_false hw, Bool.or_false] at hcopied
      exact h.tail hcopied
  · exact wp_copyData_of_not_fits hb hfits fun _ => h

theorem stepsFrom_handleDataBlock (d : DataBlock) (h : r.Steps r₁) (hr : r.Filed) :
    StepsFrom r (handleDataBlock d) r₁ := by
  rw [handleDataBlock, StepsFrom, wp_bind, wp_lookupHashTable]
  cases hp : r₁.table (intKey d.tag) with
  | none =>
    simp only [wp_bind]
    refine wp_mono (wp_insertDummyBuffer_steps (h.filed hr) hp) ?_ fun _ _ h' => h.trans h'
    rintro ⟨inserted, q⟩ r₂ ⟨h₂, hx⟩
    have h₂' := h.trans h₂
    cases inserted with
    | true => exact h₂'
    | false =>
      refine StepsFrom.load h₂' fun b hb => ?_
      rw [if_neg (by simp [(hx b hb).1])]
      exact .update h₂' fun b' hb' => .queue hb'
  | some p =>
    refine StepsFrom.load h fun b hb => ?_
    by_cases hvalid : b.valid = true
    · rw [if_pos hvalid]
      exact stepsFrom_copyData h hr hp hb hvalid
    · rw [if_neg hvalid]
      exact .update h fun b' hb' => .queue hb'

theorem stepsFrom_drainQueue (rounds : ℕ) (p : Ptr) (h : r.Steps r₁) (hr : r.Filed) :
    StepsFrom r (drainQueue rounds p) r₁ := by
  induction rounds generalizing r₁ with
  | zero => exact h
  | succ rounds ih =>
    rw [drainQueue]
    refine .load h fun b hb => ?_
    match b.waitingQueue with
    | none => exact h
    | some [] => exact h
    | some (d :: queue) =>
      simp only [StepsFrom, wp_bind]
      rw [wp_update _ hb]
      refine wp_mono (stepsFrom_handleDataBlock d (h.tail (.queue hb)) hr) (fun _ r₂ h₂ => ?_)
        fun _ _ h' => h'
      exact ih h₂

theorem stepsFrom_handleWaiting (p : Ptr) (h : r.Steps r₁) (hr : r.Filed) :
    StepsFrom r (handleWaiting p) r₁ := by
  rw [handleWaiting]
  refine .load h fun b hb => ?_
  match b.waitingQueue with
  | none => exact h
  | some queue =>
    simp only [StepsFrom, wp_bind]
    refine wp_mono (stepsFrom_drainQueue _ p h hr) (fun _ r₂ h₂ => ?_) fun _ _ h' => h'
    exact StepsFrom.update h₂ fun b' hb' => .queue hb'

theorem stepsFrom_handleInitBlock (i : InitBlock) (hr : r.Filed) :
    StepsFrom r (handleInitBlock i) r := by
  rw [handleInitBlock, StepsFrom, wp_bind, wp_lookupHashTable]
  cases hp : r.table (intKey i.tag) with
  | none =>
    simp only [calloc, insertHashTable, wp_bind, wp_get, wp_set, wp_pure]
    rw [show (r.alloc _).table (intKey i.tag) = none from hp, wp_pure]
    exact .single (.fileInit hp)
  | some p =>
    refine StepsFrom.load .refl fun b hb => ?_
    by_cases hvalid : b.valid = true
    · rw [if_pos hvalid]
      exact .refl
    · rw [if_neg hvalid, StepsFrom, wp_bind, wp_update _ hb]
      exact stepsFrom_handleWaiting p (.single (.init hp hb (by simpa using hvalid))) hr

/-- A call of `handle_block` takes steps. -/
theorem stepsFrom_handleBlock (o : ByteOrder) (block : List UInt8) (hr : r.Filed) :
    StepsFrom r (handleBlock o block) r := by
  unfold handleBlock
  match parseBlock o block with
  | some (.init i) => exact stepsFrom_handleInitBlock i hr
  | some (.data d) => exact stepsFrom_handleDataBlock d .refl hr
  | none => exact .refl

/-- Whatever blocks arrive, the reader takes steps. -/
theorem stepsFrom_handleBlocks (o : ByteOrder) (blocks : List (List UInt8)) (hr : r.Filed) :
    StepsFrom r (handleBlocks o blocks) r := by
  refine wp_forM (fun _ => r.Steps) ?_ .refl
  intro _ block _ _ r₁ h
  exact StepsFrom.trans h (stepsFrom_handleBlock o block (h.filed hr))

end Cse461.Multiplex
