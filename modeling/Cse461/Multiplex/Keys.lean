import Cse461.Multiplex.Replay

/-!
# Keys

A tag is an `int`. Where the table is asked for it, the tag is extended with its
sign (`intKey`); `insert_dummy_buffer` takes it as a `uint32_t`, so that a dummy is
filed under the tag extended with zeros (`wordKey`). These are the same key of a
tag that is not negative only: a dummy of a negative tag is never found again, and
the init block makes a second entry of the tag (`not_runUniform_negativeTag`).

Every entry has the key of its tag as long as no dummy is made for a negative tag
(`runUniform_of_keyed`).
-/

namespace Cse461.Multiplex

open Library Reader

/-- Looking up the tag of an entry finds that entry, and no other has that tag. -/
structure Reader.Uniform (r : Reader) : Prop where
  lookup : ∀ {key p b}, r.table key = some p → r.heap p = some b →
    r.table (intKey b.tag) = some p
  distinct : ∀ {key key' p p' b b'}, r.table key = some p → r.heap p = some b →
    r.table key' = some p' → r.heap p' = some b' → b.tag = b'.tag → key = key' ∧ p = p'

/-- Whether the calls return or stop, the table has one entry per tag. -/
def RunUniform (o : ByteOrder) (blocks : List (List UInt8)) : Prop :=
  wp (handleBlocks o blocks) (fun _ => Uniform) (fun _ => Uniform) .empty

/-- No dummy is made for a negative tag: neither for the block, nor, if that completes
    its buffer, for the buffer before. -/
def DataBlock.Keyed (d : DataBlock) (r : Reader) : Prop :=
  (r.table (intKey d.tag) = none → 0 ≤ d.tag) ∧
    ∀ b, r.entry (intKey d.tag) = some b → b.valid = true → b.Fits d →
      b.nWritten + d.dataSize = b.bufferSize → b.prevTag ≠ noTag →
        r.table (intKey b.prevTag) = none → 0 ≤ b.prevTag

/-- Every entry is filed under the key of its tag. -/
structure Reader.Keyed (r : Reader) : Prop extends r.Filed where
  key_eq : ∀ {key p b}, r.table key = some p → r.heap p = some b → key = intKey b.tag

variable {r r' : Reader} {p : Ptr} {b b' : BufferInfo} {d : DataBlock}

theorem Reader.Keyed.uniform (hr : r.Keyed) : r.Uniform where
  lookup hp hb := hr.key_eq hp hb ▸ hp
  distinct {key key' p p' b b'} hp hb hp' hb' htag := by
    have hkey : key = key' := by rw [hr.key_eq hp hb, hr.key_eq hp' hb', htag]
    subst hkey
    exact ⟨rfl, Option.some.inj (hp.symm.trans hp')⟩

theorem keyed_empty : Reader.empty.Keyed where
  toFiled := filed_empty
  key_eq h := by simp [empty] at h

namespace Reader.Keyed

/-- A buffer is overwritten by one that has the tag of its key. -/
theorem set (hr : r.Keyed) (hb' : ∀ key, r.table key = some p → key = intKey b'.tag)
    (hset : (r.set p b').Filed) : (r.set p b').Keyed where
  toFiled := hset
  key_eq {key q c} hq hc := by
    by_cases hqp : q = p
    · subst hqp
      obtain rfl : b' = c := by simpa using hc
      exact hb' key hq
    · exact hr.key_eq hq (by simpa [hqp] using hc)

/-- A buffer is overwritten by one of the same tag. -/
theorem set_of_tag_eq (hr : r.Keyed) (hb : r.heap p = some b) (htag : b'.tag = b.tag)
    (hset : (r.set p b').Filed) : (r.set p b').Keyed :=
  hr.set (fun _ hkey => htag ▸ hr.key_eq hkey hb) hset

theorem record (hr : r.Keyed) (e : Event) : (r.record e).Keyed where
  toFiled := ⟨hr.toWellFormed.record e, hr.key, hr.blank⟩
  key_eq := hr.key_eq

theorem fileNew {key : UInt64} (hr : r.Keyed) (hkey : key = intKey b.tag)
    (hfiled : (r.fileNew key b).Filed) : (r.fileNew key b).Keyed where
  toFiled := hfiled
  key_eq {key' q c} hq hc := by
    by_cases hk : key' = key
    · obtain rfl : r.next = q := by simpa [hk] using hq
      obtain rfl : b = c := by simpa using hc
      rw [hk, hkey]
    · have hq' : r.table key' = some q := by simpa [hk] using hq
      exact hr.key_eq hq' (by simpa [hr.table_ne_next hq'] using hc)

/-- A dummy for a tag that is not negative has the key of its tag. -/
theorem fileDummy {tag : Int32} {nextTag : UInt32} {queue : Option (List DataBlock)} (hr : r.Keyed)
    (htag : 0 ≤ tag) (hfiled : (r.fileNew (wordKey tag.toUInt32)
      (dummy tag.toUInt32 nextTag queue)).Filed) :
    (r.fileNew (wordKey tag.toUInt32) (dummy tag.toUInt32 nextTag queue)).Keyed := by
  refine hr.fileNew ?_ hfiled
  rw [wordKey_eq_intKey_iff]
  simpa [dummy] using htag

theorem finishes (hr : r.Keyed) (h : r.Finishes b r') (hr' : r'.Filed)
    (hb : b.prevTag ≠ noTag → r.table (intKey b.prevTag) = none → 0 ≤ b.prevTag) : r'.Keyed := by
  cases h with
  | frame h =>
    refine ⟨hr', fun hp hc => ?_⟩
    obtain ⟨c, hc', he⟩ := h.heap hc
    have hkey := hr.key_eq (h.table hp) hc'
    rw [he]
    exact hkey
  | file hno hnone _ => exact hr.fileDummy (hb hno hnone) hr'

theorem takes (hr : r.Keyed) (h : r.Takes d r') (hr' : r'.Filed) (hd : d.Keyed r) : r'.Keyed := by
  obtain ⟨hfile, hcomplete⟩ := hd
  cases h with
  | file hnone _ => exact hr.fileDummy (hfile hnone) hr'
  | @wait q c r' hc _ _ hheap htable _ =>
    refine ⟨hr', fun {key q' c'} hq' hc' => ?_⟩
    rw [htable] at hq'
    by_cases hq : q' = q
    · subst hq
      obtain rfl : c.enqueue d = c' := by simpa [hheap] using hc'
      exact (hr.key_eq hq' hc : key = intKey c.tag)
    · exact hr.key_eq hq' (by simpa [hheap, hq] using hc')
  | copy hp hb _ _ _ => exact (hr.record _).set_of_tag_eq hb rfl hr'
  | @complete p b r' hp hb hvalid hfits hw h =>
    have hcopied := Step.copied hp hb hvalid hfits
    rw [decide_eq_true hw, Bool.or_true] at hcopied
    have hr₁ : ((r.record (.copied p b d)).set p { b.copy d with completed := true }).Keyed :=
      (hr.record (.copied p b d)).set_of_tag_eq hb rfl (hcopied.filed hr.toFiled)
    exact hr₁.finishes h hr' (hcomplete b (entry_of_table hp hb) hvalid hfits hw)

end Reader.Keyed

/-- A data block for which no dummy of a negative tag is made. -/
theorem wp_handleDataBlock_keyed (hr : r.Keyed) (hd : d.Keyed r) :
    wp (handleDataBlock d) (fun _ r' => r'.Keyed ∧ r.Takes d r') (fun _ => Reader.Keyed) r := by
  by_cases hfits : ∀ {p b}, r.table (intKey d.tag) = some p → r.heap p = some b →
      b.valid = true → b.Fits d
  · exact wp_mono (wp_and (wp_handleDataBlock hr.toFiled hfits)
      (filedFrom hr.toFiled (stepsFrom_handleDataBlock d .refl hr.toFiled)))
      (fun _ _ ⟨h, hr'⟩ => ⟨hr.takes h hr' hd, h⟩) fun _ _ ⟨⟨_, h⟩, hr'⟩ => hr.takes h hr' hd
  · push Not at hfits
    obtain ⟨p, b, hp, hb, hvalid, hfits⟩ := hfits
    rw [wp_handleDataBlock_copy hp hb hvalid]
    exact wp_copyData_of_not_fits hb hfits fun _ => hr

/-- The calls keep the entries under the keys of their tags. -/
theorem kept_keyed : Kept (fun _ r => r.Keyed) (fun _ => True) DataBlock.Keyed
    fun _ r => r.Keyed where
  filed hr := hr.toFiled
  stop hr _ := hr
  fileInit hr _ hp := hr.fileNew rfl (Step.filed (.fileInit hp) hr.toFiled)
  init hr _ hp hb hvalid :=
    hr.set (fun _ hkey => hr.inj hkey hp) (Step.filed (.init hp hb hvalid) hr.toFiled)
  queue hr hb _ _ _ := hr.set_of_tag_eq hb rfl (Step.filed (.queue hb) hr.toFiled)
  data hr hd := wp_handleDataBlock_keyed hr hd

/-- The table has one entry per tag if no dummy is made for a negative tag. -/
theorem runUniform_of_keyed {o : ByteOrder} {blocks : List (List UInt8)}
    (h : Meets DataBlock.Keyed o blocks .empty) : RunUniform o blocks :=
  wp_mono (kept_keyed.wp_handleBlocks keyed_empty (fun _ _ _ _ _ hr => hr)
    (fun _ _ _ _ => trivial) h) (fun _ _ hr => hr.uniform) fun _ _ hr => hr.uniform

/-- The init block of a buffer of a negative tag, after one that is not known yet. -/
def negativeTagInit : List UInt8 :=
  [24, 0, 0, 0, 255, 255, 255, 255, 1, 0, 0, 0, 254, 255, 255, 255, 3, 0, 0, 0, 1, 0, 0, 0]

/-- The data block of that buffer. -/
def negativeTagData : List UInt8 := [13, 0, 0, 0, 0, 0, 0, 0, 254, 255, 255, 255, 7]

/-- The init block first. -/
theorem runUniform_negativeTag : RunUniform .little [negativeTagInit, negativeTagData] := by
  have hok : ∃ r b, handleBlock .little negativeTagInit .empty = .ok ⟨⟩ r ∧
      r.table (intKey (-2)) = some 0 ∧ r.heap 0 = some b ∧ b.prevTag = 3 :=
    ⟨_, _, rfl, rfl, rfl, rfl⟩
  obtain ⟨r, b, hr, htable, hb, hprev⟩ := hok
  refine runUniform_of_keyed ⟨fun x hx => ?_, (wp_of_ok hr).2 ⟨fun x hx => ?_, wp_trivial⟩⟩
  · obtain rfl : Block.init ⟨24, -1, 1, -2, 3, true⟩ = x := Option.some.inj hx
    intro p b ds hp
    simp [empty] at hp
  · obtain rfl : Block.data ⟨13, 0, -2, [7]⟩ = x := Option.some.inj hx
    refine ⟨fun hnone => ?_, fun c hc _ _ _ _ _ => ?_⟩
    · exact absurd (htable.symm.trans hnone) (by simp)
    · obtain rfl := Option.some.inj ((entry_of_table htable hb).symm.trans hc)
      rw [hprev]
      decide

/-- The data block first: both blocks make an entry of the tag. -/
theorem not_runUniform_negativeTag :
    (∀ block ∈ [negativeTagData, negativeTagInit], ∀ x,
      parseBlock .little block = some x → x.tag ≠ noTag) ∧
      ¬RunUniform .little [negativeTagData, negativeTagInit] := by
  refine ⟨fun block hblock x hx => ?_, fun h => ?_⟩
  · simp only [List.mem_cons, List.not_mem_nil, or_false] at hblock
    rcases hblock with rfl | rfl <;>
      · obtain rfl := Option.some.inj (show some _ = some x from hx)
        decide
  · have hok : ∃ r b, handleBlocks .little [negativeTagData, negativeTagInit] .empty = .ok ⟨⟩ r ∧
        r.table (wordKey 4294967294) = some 0 ∧ r.heap 0 = some b ∧ b.tag = -2 ∧
        r.table (intKey (-2)) = some 1 := ⟨_, _, rfl, rfl, rfl, rfl, rfl⟩
    obtain ⟨r, b, hr, hp, hb, htag, hp'⟩ := hok
    have hlookup := ((wp_of_ok hr).1 h).lookup hp hb
    rw [htag, hp'] at hlookup
    exact absurd hlookup (by decide)

end Cse461.Multiplex
