import Cse461.Multiplex.Steps

/-!
# At most once

`handle_block` copies the payload of a data block to the buffer of its tag
without a look at `sent`, and then compares `n_written` with `buffer_size`: a
data block for a buffer that was passed to the handler is written to memory that
the handler was given, and one without a payload passes the buffer to the handler
again (`handled_twice`).

As long as no block is copied to a buffer that is marked as sent (`CopiesUnsent`)
the flags and links of the buffers keep in step, whatever the blocks are
(`Sound`): a buffer is marked as sent just if it was passed to the handler, and
one that waits for its turn is complete, and has the tag of the one before as its
`prev_tag`. No buffer is then touched after it was passed to the handler; and
only then (`atMostOnce_iff_copiesUnsent`).
-/

namespace Cse461.Multiplex

open Library Reader

/-- The buffer that the event is about. -/
def Event.ptr : Event → Ptr
  | .copied p _ _ => p
  | .handled p _ => p

/-- After a buffer was passed to the handler, it is not passed to it again, and
    nothing is copied to it. -/
def AtMostOnce (log : List Event) : Prop :=
  log.Pairwise fun e e' => ∀ b, e ≠ .handled e'.ptr b

/-- No data block was copied to a buffer that was marked as sent. -/
def CopiesUnsent (log : List Event) : Prop :=
  ∀ p before d, .copied p before d ∈ log → before.sent = false

theorem CopiesUnsent.mono {log log' : List Event} (h : CopiesUnsent log') (hlog : log <+: log') :
    CopiesUnsent log :=
  fun p before d hd => h p before d (hlog.subset hd)

namespace Reader

/-- The buffer of tag `t` is complete, and waits for that of tag `prev`. -/
def Awaits (r : Reader) (t prev : Int32) : Prop :=
  ∃ q c, r.table (intKey t) = some q ∧ r.heap q = some c ∧ c.completed = true ∧
    c.sent = false ∧ c.prevTag = prev

/-- The buffer at `u` will send the one at `q`. -/
def Linked (r : Reader) (u q : Ptr) : Prop :=
  ∃ b, r.table (intKey b.tag) = some u ∧ r.heap u = some b ∧ b.sent = false ∧
    r.table (intKey b.nextTag) = some q

/-- The buffer at `p` is complete and not sent. -/
def Ready (r : Reader) (p : Ptr) (b : BufferInfo) : Prop :=
  r.table (intKey b.tag) = some p ∧ r.heap p = some b ∧ b.completed = true ∧ b.sent = false

/-- The flags, the links and the log agree. -/
structure Sound (r : Reader) : Prop extends r.Filed where
  noTag : r.table (intKey noTag) = none
  known : ∀ {p b}, .handled p b ∈ r.log → p < r.next
  sent_iff : ∀ {p b}, r.heap p = some b → (b.sent = true ↔ ∃ b', .handled p b' ∈ r.log)
  link : ∀ {p b}, r.table (intKey b.tag) = some p → r.heap p = some b → b.sent = false →
    b.nextTag ≠ Multiplex.noTag → r.Awaits b.nextTag b.tag
  waiting : ∀ {p b queue}, r.heap p = some b → b.waitingQueue = some queue →
    ∀ d ∈ queue, d.tag ≠ Multiplex.noTag
  once : AtMostOnce r.log

variable {r : Reader} {p q u : Ptr} {b b' c : BufferInfo}

theorem sound_empty : empty.Sound where
  toFiled := filed_empty
  noTag := rfl
  known h := by simp [empty] at h
  sent_iff h := by simp [empty] at h
  link _ h := by simp [empty] at h
  waiting h := by simp [empty] at h
  once := List.Pairwise.nil

/-! ## Single steps -/

/-- A buffer of the tag that is overwritten is still complete and waits. -/
theorem Awaits.set {t prev : Int32} (h : r.Awaits t prev) (hb : r.heap p = some b)
    (hsent : b'.sent = b.sent)
    (hdone : b.completed = true → b'.completed = true ∧ b'.prevTag = b.prevTag) :
    (r.set p b').Awaits t prev := by
  obtain ⟨q, c, hq, hc, hcompleted, hunsent, hprev⟩ := h
  by_cases hqp : q = p
  · subst hqp
    obtain rfl : b = c := Option.some.inj (hb.symm.trans hc)
    obtain ⟨hcompleted', hprev'⟩ := hdone hcompleted
    exact ⟨q, b', hq, by simp, hcompleted', hsent.trans hunsent, hprev'.trans hprev⟩
  · exact ⟨q, c, hq, by simpa [hqp] using hc, hcompleted, hunsent, hprev⟩

/-- A buffer is overwritten, which keeps its flags, and has a link to a buffer that
    waits for it, or to none. -/
theorem Sound.set (hr : r.Sound) (hfiled : (r.set p b').Filed) (hb : r.heap p = some b)
    (hsent : b'.sent = b.sent)
    (hdone : b.completed = true → b'.completed = true ∧ b'.prevTag = b.prevTag)
    (hlink : r.table (intKey b'.tag) = some p → b'.sent = false → b'.nextTag ≠ Multiplex.noTag →
      r.Awaits b'.nextTag b'.tag)
    (hwaiting : ∀ queue, b'.waitingQueue = some queue → ∀ d ∈ queue, d.tag ≠ Multiplex.noTag) :
    (r.set p b').Sound where
  toFiled := hfiled
  noTag := hr.noTag
  known := hr.known
  sent_iff {q c} hc := by
    by_cases hqp : q = p
    · subst hqp
      obtain rfl : b' = c := by simpa using hc
      rw [hsent]
      exact hr.sent_iff hb
    · exact hr.sent_iff (by simpa [hqp] using hc)
  link {q c} hq hc hunsent hnext := by
    by_cases hqp : q = p
    · subst hqp
      obtain rfl : b' = c := by simpa using hc
      exact (hlink hq hunsent hnext).set hb hsent hdone
    · exact (hr.link hq (by simpa [hqp] using hc) hunsent hnext).set hb hsent hdone
  waiting {q c queue} hc hqueue := by
    by_cases hqp : q = p
    · subst hqp
      obtain rfl : b' = c := by simpa using hc
      exact hwaiting _ hqueue
    · exact hr.waiting (by simpa [hqp] using hc) hqueue
  once := hr.once

/-- A buffer changes in what nothing depends on. -/
theorem Sound.set_of_link_eq (hr : r.Sound) (hfiled : (r.set p b').Filed) (hb : r.heap p = some b)
    (htag : b'.tag = b.tag) (hsent : b'.sent = b.sent) (hnext : b'.nextTag = b.nextTag)
    (hdone : b.completed = true → b'.completed = true ∧ b'.prevTag = b.prevTag)
    (hwaiting : ∀ queue, b'.waitingQueue = some queue → ∀ d ∈ queue, d.tag ≠ Multiplex.noTag) :
    (r.set p b').Sound := by
  refine hr.set hfiled hb hsent hdone (fun hp hunsent hne => ?_) hwaiting
  rw [htag] at hp ⊢
  rw [hnext] at hne ⊢
  exact hr.link hp hb (hsent.symm.trans hunsent) hne

theorem Sound.fileNew {key : UInt64} (hr : r.Sound) (hfiled : (r.fileNew key b).Filed)
    (hnone : r.table key = none) (hkey : key ≠ intKey Multiplex.noTag) (hunsent : b.sent = false)
    (hlink : b.nextTag ≠ Multiplex.noTag → r.Awaits b.nextTag b.tag)
    (hwaiting : ∀ queue, b.waitingQueue = some queue → ∀ d ∈ queue, d.tag ≠ Multiplex.noTag) :
    (r.fileNew key b).Sound where
  toFiled := hfiled
  noTag := by
    rw [table_fileNew, Function.update_of_ne hkey.symm]
    exact hr.noTag
  known h := Nat.lt_succ_of_lt (hr.known h)
  sent_iff {q c} hc := by
    by_cases hqn : q = r.next
    · subst hqn
      obtain rfl : b = c := by simpa using hc
      refine ⟨fun h => absurd h (by simp [hunsent]), fun ⟨b', h⟩ => ?_⟩
      exact absurd (hr.known h) (lt_irrefl _)
    · exact hr.sent_iff (by simpa [hqn] using hc)
  link {q c} hq hc hcunsent hnext := by
    have hawaits : r.Awaits c.nextTag c.tag := by
      by_cases hqn : q = r.next
      · subst hqn
        obtain rfl : b = c := by simpa using hc
        exact hlink hnext
      · have hc' : r.heap q = some c := by simpa [hqn] using hc
        rw [table_fileNew, Function.update_apply] at hq
        split at hq
        · exact absurd (Option.some.inj hq).symm hqn
        · exact hr.link hq hc' hcunsent hnext
    obtain ⟨u, a, hu, ha, h⟩ := hawaits
    have hk : intKey c.nextTag ≠ key := fun hk => by
      rw [hk, hnone] at hu
      exact absurd hu (by simp)
    exact ⟨u, a, by simpa [hk] using hu, by simpa [hr.table_ne_next hu] using ha, h⟩
  waiting {q c queue} hc hqueue := by
    by_cases hqn : q = r.next
    · subst hqn
      obtain rfl : b = c := by simpa using hc
      exact hwaiting _ hqueue
    · exact hr.waiting (by simpa [hqn] using hc) hqueue
  once := hr.once

theorem Sound.reserve (hr : r.Sound) : Sound { r with next := r.next + 1 } where
  toFiled := Step.reserve.filed hr.toFiled
  noTag := hr.noTag
  known h := Nat.lt_succ_of_lt (hr.known h)
  sent_iff := hr.sent_iff
  link := hr.link
  waiting := hr.waiting
  once := hr.once

/-- A buffer that was sent is removed and freed. -/
theorem Sound.dispose {key : UInt64} (hr : r.Sound) (hp : r.table key = some p)
    (hb : r.heap p = some b) (hsent : b.sent = true) : (r.dispose key p).Sound := by
  have hheap : ∀ {q c}, (r.dispose key p).heap q = some c → q ≠ p ∧ r.heap q = some c := by
    intro q c hc
    by_cases hqp : q = p
    · simp [hqp] at hc
    · exact ⟨hqp, by simpa [hqp] using hc⟩
  have htable : ∀ {k q}, (r.dispose key p).table k = some q → k ≠ key ∧ r.table k = some q := by
    intro k q hq
    by_cases hk : k = key
    · simp [hk] at hq
    · exact ⟨hk, by simpa [hk] using hq⟩
  refine ⟨⟨hr.toWellFormed.dispose hp, fun hq hc => hr.key (htable hq).2 (hheap hc).2,
    fun hc => hr.blank (hheap hc).2⟩, ?_, hr.known, fun hc => hr.sent_iff (hheap hc).2,
    fun {q c} hq hc hunsent hnext => ?_, fun hc => hr.waiting (hheap hc).2, hr.once⟩
  · by_contra hne
    obtain ⟨q, hq⟩ := Option.ne_none_iff_exists'.1 hne
    exact absurd ((htable hq).2.symm.trans hr.noTag) (by simp)
  · obtain ⟨u, a, hu, ha, hcompleted, haunsent, hprev⟩ :=
      hr.link (htable hq).2 (hheap hc).2 hunsent hnext
    have hup : u ≠ p := by
      rintro rfl
      obtain rfl : b = a := Option.some.inj (hb.symm.trans ha)
      exact absurd (hsent.symm.trans haunsent) (by simp)
    have hk : intKey c.nextTag ≠ key := fun hk => hup (Option.some.inj ((hk ▸ hu).symm.trans hp))
    exact ⟨u, a, by simpa [hk] using hu, by simpa [hup] using ha, hcompleted, haunsent, hprev⟩

/-- A data block is copied to a buffer that is not sent. -/
theorem Sound.record_copied {d : DataBlock} (hr : r.Sound) (hb : r.heap p = some b)
    (hunsent : b.sent = false) : (r.record (.copied p b d)).Sound where
  toFiled := ⟨hr.record _, hr.key, hr.blank⟩
  noTag := hr.noTag
  known h := hr.known (by simpa using h)
  sent_iff hc := by simpa using hr.sent_iff hc
  link := hr.link
  waiting := hr.waiting
  once := by
    refine List.pairwise_append.2 ⟨hr.once, List.pairwise_singleton _ _, ?_⟩
    rintro e he e' he' b' rfl
    obtain rfl : e' = .copied p b d := by simpa using he'
    exact absurd ((hr.sent_iff hb).2 ⟨b', he⟩) (by simp [hunsent])

/-! ## Sending -/

/-- The buffers that are sent with the one at `p`: they were ready, none is sent
    twice, and what would send one of them is one of them. -/
structure Sendable (r : Reader) (p : Ptr) (l : List Ptr) : Prop where
  cascade : r.Cascade p l
  nodup : l.Nodup
  ready : ∀ q ∈ l, ∃ b, r.Ready q b
  closed : ∀ {u q}, r.Linked u q → q ∈ l → u ∈ l

/-- A buffer that is linked to is complete, and waits for the one that links to it. -/
theorem Sound.table_prevTag (hr : r.Sound) (h : r.Linked u q) : ∃ c, r.heap q = some c ∧
    c.completed = true ∧ c.sent = false ∧ r.table (intKey c.prevTag) = some u := by
  obtain ⟨b, hu, hb, hunsent, hq⟩ := h
  have hne : b.nextTag ≠ Multiplex.noTag := fun h => by
    rw [h, hr.noTag] at hq
    exact absurd hq (by simp)
  obtain ⟨q', c, hq', hc, hcompleted, hcunsent, hprev⟩ := hr.link hu hb hunsent hne
  obtain rfl : q = q' := Option.some.inj (hq.symm.trans hq')
  exact ⟨c, hc, hcompleted, hcunsent, hprev ▸ hu⟩

theorem Sound.linked_unique (hr : r.Sound) {u' : Ptr} (h : r.Linked u q) (h' : r.Linked u' q) :
    u = u' := by
  obtain ⟨c, hc, _, _, hu⟩ := hr.table_prevTag h
  obtain ⟨c', hc', _, _, hu'⟩ := hr.table_prevTag h'
  obtain rfl : c = c' := Option.some.inj (hc.symm.trans hc')
  exact Option.some.inj (hu.symm.trans hu')

/-- What the `next_tag` of a ready buffer leads to is ready, and linked to by it. -/
theorem Sound.ready_of_follow (hr : r.Sound) (hp : r.Ready p b) (hq : r.follow b = some q) :
    r.Linked p q ∧ ∃ c, r.Ready q c := by
  obtain ⟨hp, hb, _, hunsent⟩ := hp
  have hq' : r.table (intKey b.nextTag) = some q := by
    unfold follow at hq
    split at hq
    · exact absurd hq (by simp)
    · exact hq
  have hlinked : r.Linked p q := ⟨b, hp, hb, hunsent, hq'⟩
  obtain ⟨c, hc, hcompleted, hcunsent, _⟩ := hr.table_prevTag hlinked
  refine ⟨hlinked, c, ?_, hc, hcompleted, hcunsent⟩
  rw [hr.tag_eq hq' hc]
  exact hq'

/-- From a ready buffer, and `vis` that were visited before it, every link into
    them starts from one of `vis`: the cascade goes on to buffers not visited yet,
    of which there are fewer and fewer. -/
theorem Sound.exists_cascade (hr : r.Sound) (n : ℕ) (vis : List Ptr) (p : Ptr) (b : BufferInfo)
    (hn : r.next ≤ vis.length + n) (hnodup : (p :: vis).Nodup) (hvis : ∀ q ∈ vis, q < r.next)
    (hp : r.Ready p b) (hclosed : ∀ u q, r.Linked u q → q ∈ p :: vis → u ∈ vis) :
    ∃ l, r.Cascade p l ∧ l.Nodup ∧ (∀ q ∈ l, q ∉ vis) ∧ (∀ q ∈ l, ∃ b, r.Ready q b) ∧
      ∀ u q, r.Linked u q → q ∈ l → u ∈ vis ∨ u ∈ l := by
  induction n generalizing vis p b with
  | zero =>
    have hsub : p :: vis ⊆ List.range r.next := by
      intro q hq
      rcases List.mem_cons.1 hq with rfl | hq
      · exact List.mem_range.2 (hr.below hp.2.1)
      · exact List.mem_range.2 (hvis q hq)
    have hlen := (hnodup.subperm hsub).length_le
    rw [List.length_cons, List.length_range] at hlen
    exact absurd (hlen.trans hn) (Nat.not_succ_le_self _)
  | succ n ih =>
    cases hq : r.follow b with
    | none =>
      refine ⟨[p], .stop hp.2.1 (by simp [hq]), List.nodup_singleton p, ?_, ?_, ?_⟩
      · simpa using (List.nodup_cons.1 hnodup).1
      · simpa using ⟨b, hp⟩
      · intro u q hu hq
        obtain rfl : q = p := by simpa using hq
        exact .inl (hclosed u q hu (by simp))
    | some q =>
      obtain ⟨hlinked, c, hc⟩ := hr.ready_of_follow hp hq
      -- The buffer at `q` is new, as only that at `p` links to it.
      have hqnew : q ∉ p :: vis := fun hmem =>
        (List.nodup_cons.1 hnodup).1 (hclosed p q hlinked hmem)
      have hclosed' : ∀ u q', r.Linked u q' → q' ∈ q :: p :: vis → u ∈ p :: vis := by
        intro u q' hu hq'
        rcases List.mem_cons.1 hq' with rfl | hq'
        · rw [hr.linked_unique hu hlinked]
          exact List.mem_cons_self
        · exact List.mem_cons_of_mem _ (hclosed u q' hu hq')
      have hvis' : ∀ q' ∈ p :: vis, q' < r.next := by
        intro q' hq'
        rcases List.mem_cons.1 hq' with rfl | hq'
        · exact hr.below hp.2.1
        · exact hvis q' hq'
      obtain ⟨l, hcascade, hl, hfresh, hready, hlclosed⟩ := ih (p :: vis) q c
        (hn.trans_eq (Nat.succ_add_eq_add_succ _ _).symm) (List.nodup_cons.2 ⟨hqnew, hnodup⟩) hvis' hc hclosed'
      refine ⟨p :: l, .step hp.2.1 hq hc.2.1 hc.2.2.1 hcascade, ?_, ?_, ?_, ?_⟩
      · exact List.nodup_cons.2 ⟨fun h => hfresh p h List.mem_cons_self, hl⟩
      · intro q' hq'
        rcases List.mem_cons.1 hq' with rfl | hq'
        · exact (List.nodup_cons.1 hnodup).1
        · exact fun h => hfresh q' hq' (List.mem_cons_of_mem _ h)
      · intro q' hq'
        rcases List.mem_cons.1 hq' with rfl | hq'
        · exact ⟨b, hp⟩
        · exact hready q' hq'
      · intro u q' hu hq'
        rcases List.mem_cons.1 hq' with rfl | hq'
        · exact .inl (hclosed u q' hu List.mem_cons_self)
        · rcases hlclosed u q' hu hq' with h | h
          · rcases List.mem_cons.1 h with rfl | h
            · exact .inr List.mem_cons_self
            · exact .inl h
          · exact .inr (List.mem_cons_of_mem _ h)

/-- A ready buffer that none is linked to can be sent. -/
theorem Sound.exists_sendable (hr : r.Sound) (hp : r.Ready p b) (hunlinked : ∀ u, ¬r.Linked u p) :
    ∃ l, r.Sendable p l := by
  obtain ⟨l, hcascade, hl, _, hready, hclosed⟩ := hr.exists_cascade r.next [] p b (by simp)
    (List.nodup_singleton p) (by simp) hp fun u q hu hq => by
      obtain rfl : q = p := by simpa using hq
      exact absurd hu (hunlinked u)
  exact ⟨l, hcascade, hl, hready, fun {u q} hu hq => by simpa using hclosed u q hu hq⟩

/-- The buffers of a cascade are passed to the handler once each. -/
theorem Sendable.once {l : List Ptr} (h : r.Sendable p l) (hr : r.Sound) :
    AtMostOnce (r.sendAll l).log := by
  have hhanding : ∀ {q e}, r.handing q = some e → ∃ b, r.heap q = some b ∧ e = .handled q b := by
    intro q e he
    obtain ⟨b, hb, rfl⟩ := Option.map_eq_some_iff.1 he
    exact ⟨b, hb, rfl⟩
  refine List.pairwise_append.2 ⟨hr.once, List.pairwise_filterMap.2 ?_, ?_⟩
  · refine h.nodup.imp fun hne e he e' he' b => ?_
    obtain ⟨c, _, rfl⟩ := hhanding he
    obtain ⟨c', _, rfl⟩ := hhanding he'
    exact fun h => hne (by simpa [Event.ptr] using (Event.handled.inj h).1)
  · intro e he e' he' b
    obtain ⟨q, hq, hq'⟩ := List.mem_filterMap.1 he'
    obtain ⟨c, hc, rfl⟩ := hhanding hq'
    rintro rfl
    obtain ⟨c', _, hc', _, hunsent⟩ := h.ready q hq
    exact absurd ((hr.sent_iff hc').2 ⟨b, he⟩) (by simp [hunsent])

/-- Sending the buffers of a cascade. -/
theorem Sound.sendAll {l : List Ptr} (hr : r.Sound) (h : r.Sendable p l) : (r.sendAll l).Sound := by
  have hheap : ∀ {q c}, (r.sendAll l).heap q = some c →
      ∃ b, r.heap q = some b ∧ c = { b with sent := if q ∈ l then true else b.sent } := by
    intro q c hc
    cases hb : r.heap q with
    | none => simp [Reader.sendAll, hb] at hc
    | some b => exact ⟨b, rfl, Option.some.inj (hc.symm.trans (heap_sendAll hb))⟩
  have hlog : ∀ {q b'}, .handled q b' ∈ (r.sendAll l).log ↔
      .handled q b' ∈ r.log ∨ q ∈ l ∧ r.heap q = some b' := by
    intro q b'
    rw [Reader.sendAll, List.mem_append, List.mem_filterMap]
    refine or_congr_right ⟨?_, ?_⟩
    · rintro ⟨q', hq', he⟩
      obtain ⟨c, hc, he⟩ := Option.map_eq_some_iff.1 he
      obtain ⟨rfl, rfl⟩ := Event.handled.inj he
      exact ⟨hq', hc⟩
    · rintro ⟨hq, hb'⟩
      exact ⟨q, hq, by simp [handing, hb']⟩
  refine ⟨⟨hr.toWellFormed.sendAll, fun hq hc => ?_, fun hc hvalid => ?_⟩, ?_, fun {q c} hc => ?_,
    fun {q c} hc => ?_, fun {q c} hq hc hunsent hnext => ?_, fun hc => ?_, h.once hr⟩
  · obtain ⟨b, hb, rfl⟩ := hheap hc
    have hkey := hr.key (table_of_table_sendAll hq) hb
    exact hkey
  · obtain ⟨b, hb, rfl⟩ := hheap hc
    obtain ⟨hcompleted, hsent⟩ := hr.blank hb hvalid
    refine ⟨hcompleted, ?_⟩
    split
    · next hmem =>
      obtain ⟨b', _, hb', hcompleted', _⟩ := h.ready _ hmem
      obtain rfl : b = b' := Option.some.inj (hb.symm.trans hb')
      exact absurd (hcompleted.symm.trans hcompleted') (by simp)
    · exact hsent
  · rw [table_sendAll, hr.noTag, ite_self]
  · rcases hlog.1 hc with hc | ⟨_, hc⟩
    · exact hr.known hc
    · exact hr.below hc
  · obtain ⟨b, hb, rfl⟩ := hheap hc
    simp only [hlog]
    by_cases hmem : q ∈ l
    · simp [hmem, hb]
    · simpa [hmem] using hr.sent_iff hb
  · obtain ⟨b, hb, rfl⟩ := hheap hc
    have hmem : q ∉ l := fun hmem => by simp [hmem] at hunsent
    have hunsent' : b.sent = false := by simpa [hmem] using hunsent
    have hq' : r.table (intKey b.tag) = some q := table_of_table_sendAll hq
    obtain ⟨u, a, hu, ha, hcompleted, haunsent, hprev⟩ := hr.link hq' hb hunsent' hnext
    -- The one linked to is not sent, as the one that links to it is not.
    have humem : u ∉ l := fun humem => hmem (h.closed ⟨b, hq', hb, hunsent', hu⟩ humem)
    refine ⟨u, a, ?_, ?_, hcompleted, haunsent, hprev⟩
    · rw [table_sendAll, if_neg]
      · exact hu
      · intro hkey
        obtain ⟨v, hv, hvkey⟩ := List.mem_map.1 hkey
        have hvmem := List.mem_of_mem_dropLast hv
        obtain ⟨bv, hvtable, hbv, _⟩ := h.ready v hvmem
        have hk : intKey bv.tag = intKey b.nextTag := by simpa [ownKey, hbv] using hvkey
        rw [hk, hu] at hvtable
        exact humem (Option.some.inj hvtable ▸ hvmem)
    · rw [heap_sendAll ha, if_neg humem]
  · obtain ⟨b, hb, rfl⟩ := hheap hc
    exact fun hqueue => hr.waiting hb hqueue

/-- The reader is sound, unless a block was copied to a buffer that was sent. -/
def Guarded (r : Reader) : Prop := r.Filed ∧ (CopiesUnsent r.log → r.Sound)

theorem Sound.guarded (hr : r.Sound) : r.Guarded := ⟨hr.toFiled, fun _ => hr⟩

end Reader

/-! ## The calls -/

/-- Whether it returns or stops, the call leaves a sound reader. -/
abbrev LeavesSound {α : Type} (x : ReaderM α) (r : Reader) : Prop :=
  wp x (fun _ => Sound) (fun _ => Sound) r

/-- Whether it returns or stops, the call leaves a guarded reader. -/
abbrev LeavesGuarded {α : Type} (x : ReaderM α) (r : Reader) : Prop :=
  wp x (fun _ => Guarded) (fun _ => Guarded) r

variable {r : Reader} {p q : Ptr} {b : BufferInfo} {α : Type} {x : ReaderM α}

theorem LeavesSound.guarded (h : LeavesSound x r) : LeavesGuarded x r :=
  wp_mono h (fun _ _ => Sound.guarded) fun _ _ => Sound.guarded

/-- Once a block was copied to a buffer that was sent, nothing is left to show. -/
theorem StepsFrom.guarded (h : StepsFrom r x r) (hr : r.Filed) (hlog : ¬CopiesUnsent r.log) :
    LeavesGuarded x r :=
  wp_mono h (fun _ _ hs => ⟨hs.filed hr, fun hc => absurd (hc.mono hs.log) hlog⟩)
    fun _ _ hs => ⟨hs.filed hr, fun hc => absurd (hc.mono hs.log) hlog⟩

/-- Reading a buffer stops the call if there is none. -/
theorem LeavesSound.load {f : BufferInfo → ReaderM α} (hr : r.Sound)
    (hf : ∀ b, r.heap p = some b → LeavesSound (f b) r) :
    LeavesSound (Multiplex.load p >>= f) r := by
  rw [LeavesSound, wp_bind, wp_load_iff]
  exact ⟨hf, fun _ => hr⟩

theorem LeavesSound.update {f : BufferInfo → BufferInfo} (hr : r.Sound)
    (hf : ∀ b, r.heap p = some b → (r.set p (f b)).Sound) :
    LeavesSound (Multiplex.update p f) r :=
  .load hr hf

/-- The waiting queue of a buffer changes. -/
theorem Reader.Sound.set_waitingQueue (hr : r.Sound) (hb : r.heap p = some b)
    (queue : Option (List DataBlock))
    (hqueue : ∀ q, queue = some q → ∀ d ∈ q, d.tag ≠ Multiplex.noTag) :
    (r.set p { b with waitingQueue := queue }).Sound :=
  hr.set_of_link_eq (Step.filed (.queue hb) hr.toFiled) hb rfl rfl rfl (fun h => ⟨h, rfl⟩) hqueue

/-- A block is added to the queue of a buffer. -/
theorem Reader.Sound.enqueue {d : DataBlock} (hr : r.Sound) (hb : r.heap p = some b)
    (hd : d.tag ≠ Multiplex.noTag) :
    (r.set p { b with waitingQueue := some (b.waitingQueue.getD [] ++ [d]) }).Sound := by
  refine hr.set_waitingQueue hb _ fun q hq d' hd' => ?_
  obtain rfl := Option.some.inj hq
  rcases List.mem_append.1 hd' with hd' | hd'
  · cases hqueue : b.waitingQueue with
    | none => simp [hqueue] at hd'
    | some queue => exact hr.waiting hb hqueue d' (by simpa [hqueue] using hd')
  · obtain rfl : d' = d := by simpa using hd'
    exact hd

theorem Reader.Sound.sendBuffer (hr : r.Sound) (hp : r.Ready p b) (hunlinked : ∀ u, ¬r.Linked u p) :
    LeavesSound (sendBuffer p) r := by
  obtain ⟨l, hl⟩ := hr.exists_sendable hp hunlinked
  rw [LeavesSound, wp_sendBuffer hr.toWellFormed hl.cascade hl.nodup]
  exact hr.sendAll hl

/-- A link to a ready buffer, from the one that it waits for. -/
theorem Reader.Sound.setNextTag {done : BufferInfo} (hr : r.Sound) (hp : r.Ready p done)
    (hb : r.heap q = some b) (hunsent : b.sent = false)
    (htag : r.table (intKey b.tag) = some q → b.tag = done.prevTag) :
    (r.set q { b with nextTag := done.tag }).Sound := by
  obtain ⟨hp, hdone, hcompleted, hdunsent⟩ := hp
  refine hr.set (Step.filed (.link hb hunsent) hr.toFiled) hb rfl (fun h => ⟨h, rfl⟩)
    (fun hq _ _ => ?_) fun queue hqueue => hr.waiting hb hqueue
  exact ⟨p, done, hp, hdone, hcompleted, hdunsent, (htag hq).symm⟩

/-- A dummy is filed. -/
theorem Reader.Sound.fileDummy {tag nextTag : Int32} (queue : Option (List DataBlock))
    (hr : r.Sound) (hnone : r.table (wordKey tag.toUInt32) = none)
    (hlink : nextTag ≠ Multiplex.noTag → r.Awaits nextTag tag)
    (hqueue : ∀ q, queue = some q → ∀ d ∈ q, d.tag ≠ Multiplex.noTag) :
    (r.fileNew (wordKey tag.toUInt32) (dummy tag.toUInt32 nextTag.toUInt32 queue)).Sound := by
  refine hr.fileNew (Step.filed (.fileDummy hnone) hr.toFiled) hnone (fun h => ?_) rfl
    (by simpa [dummy] using hlink) hqueue
  exact absurd (wordKey_eq_intKey_iff.1 h).2 (by decide)

theorem Reader.Sound.handleFinishedBufferPrev {done : BufferInfo} (hr : r.Sound)
    (hp : r.Ready p done) : LeavesSound (handleFinishedBufferPrev p) r := by
  rw [Multiplex.handleFinishedBufferPrev]
  refine .load hr fun done' hdone' => ?_
  obtain rfl : done' = done := Option.some.inj (hdone'.symm.trans hp.2.1)
  by_cases hprev : done'.prevTag ≠ Multiplex.noTag
  · rw [if_pos hprev]
    cases hq : r.table (intKey done'.prevTag) with
    | some q =>
      rw [LeavesSound, wp_bind, wp_lookupPrev hq]
      refine LeavesSound.load hr fun b hb => ?_
      have htag := hr.tag_eq hq hb
      by_cases hsent : b.sent = true
      · rw [if_pos hsent, LeavesSound, wp_bind, wp_removeFromHashTable, wp_bind]
        rw [wp_free (r := r.remove _) hb]
        have hr' := hr.dispose hq hb hsent
        have hqp : p ≠ q := by
          rintro rfl
          obtain rfl : done' = b := Option.some.inj (hdone'.symm.trans hb)
          exact absurd (hsent.symm.trans hp.2.2.2) (by simp)
        have hkey : intKey done'.tag ≠ intKey done'.prevTag := fun hk =>
          hqp (Option.some.inj (hp.1.symm.trans (hk ▸ hq)))
        have hdone₂ : (r.dispose (intKey done'.prevTag) q).heap p = some done' := by
          simpa [hqp] using hdone'
        change wp (Multiplex.sendBuffer p) _ _ (r.dispose (intKey done'.prevTag) q)
        refine hr'.sendBuffer (b := done') ⟨by simpa [hkey] using hp.1, hdone₂, hp.2.2⟩ fun u hu => ?_
        -- What links to it would be filed under the key that is removed.
        obtain ⟨c, hc, _, _, hu⟩ := hr'.table_prevTag hu
        obtain rfl : done' = c := Option.some.inj (hdone₂.symm.trans hc)
        simp at hu
      · rw [if_neg hsent]
        refine .update hr fun b' hb' => ?_
        obtain rfl : b = b' := Option.some.inj (hb.symm.trans hb')
        exact hr.setNextTag hp hb (by simpa using hsent) fun _ => htag
    | none =>
      rw [LeavesSound, wp_bind, lookupPrev, wp_bind, wp_lookupHashTable, hq, wp_bind]
      cases hw : r.table (wordKey done'.prevTag.toUInt32) with
      | none =>
        rw [wp_insertDummyBuffer hw, wp_pure]
        have hr' := Sound.fileDummy none hr hw
          (fun _ => ⟨p, done', hp.1, hp.2.1, hp.2.2.1, hp.2.2.2, rfl⟩) (by simp)
        refine LeavesSound.load hr' fun b hb => ?_
        obtain rfl : dummy done'.prevTag.toUInt32 done'.tag.toUInt32 none = b := by simpa using hb
        rw [if_neg (by simp [dummy])]
        refine .update hr' fun b' hb' => ?_
        obtain rfl : dummy done'.prevTag.toUInt32 done'.tag.toUInt32 none = b' := by
          simpa using hb'
        exact hr'.set_of_link_eq (Step.filed (.link hb rfl) hr'.toFiled) hb rfl rfl
          (by simp [dummy]) (fun h => ⟨h, rfl⟩) (by simp [dummy])
      | some q =>
        rw [wp_insertDummyBuffer_of_some hr.toWellFormed hw, wp_pure]
        refine LeavesSound.load hr.reserve fun b hb => ?_
        have hunsent := (hr.blank hb (hr.valid_eq_false hq hw hb)).2
        rw [if_neg (by simp [hunsent])]
        refine .update hr.reserve fun b' hb' => ?_
        obtain rfl : b = b' := Option.some.inj (hb.symm.trans hb')
        refine hr.reserve.setNextTag hp hb hunsent fun hkey => ?_
        exact (wordKey_eq_intKey_iff.1 (hr.inj hw hkey)).1.symm
  · rw [if_neg hprev]
    refine hr.sendBuffer hp fun u hu => ?_
    obtain ⟨c, hc, _, _, hu⟩ := hr.table_prevTag hu
    obtain rfl : done' = c := Option.some.inj (hdone'.symm.trans hc)
    rw [not_not.1 hprev, hr.noTag] at hu
    exact absurd hu (by simp)

/-- Copying a data block to the buffer of its tag. -/
theorem leavesGuarded_copyData {d : DataBlock} (hr : r.Sound)
    (hp : r.table (intKey d.tag) = some p) (hb : r.heap p = some b) (hvalid : b.valid = true) :
    LeavesGuarded (copyData p (some p) d) r := by
  by_cases hfits : b.Fits d
  · have hfiled := Step.filed (.copied hp hb hvalid hfits) hr.toFiled
    have htag := hr.tag_eq hp hb
    -- The state after the copy is sound, if the buffer was not sent.
    have hsound : ∀ completed : Bool, (b.completed = true → completed = true) →
        ((r.record (.copied p b d)).set p { b.copy d with completed }).Filed → b.sent = false →
        ((r.record (.copied p b d)).set p { b.copy d with completed }).Sound := by
      intro completed hcompleted hfiled hunsent
      exact (hr.record_copied hb hunsent).set_of_link_eq hfiled hb rfl rfl rfl
        (fun h => ⟨hcompleted h, rfl⟩) fun queue hqueue => hr.waiting hb hqueue
    have hunsent : CopiesUnsent (r.record (.copied p b d)).log → b.sent = false := fun hc =>
      hc p b d (by simp)
    rw [LeavesGuarded, wp_copyData hb hfits]
    refine ⟨fun hw => ?_, fun hw => ?_⟩
    · rw [decide_eq_true hw, Bool.or_true] at hfiled
      by_cases hc : CopiesUnsent (r.record (.copied p b d)).log
      · have hsound' := hsound true (fun _ => rfl) hfiled (hunsent hc)
        have hready : ((r.record (.copied p b d)).set p { b.copy d with completed := true }).Ready p
            { b.copy d with completed := true } := ⟨htag ▸ hp, by simp, rfl, hunsent hc⟩
        exact (hsound'.handleFinishedBufferPrev hready).guarded
      · refine StepsFrom.guarded ?_ hfiled hc
        refine stepsFrom_handleFinishedBufferPrev .refl hfiled ⟨hr.below hb, fun c hc => ?_⟩
        obtain rfl : { b.copy d with completed := true } = c := by simpa using hc
        rfl
    · rw [decide_eq_false hw, Bool.or_false] at hfiled
      exact ⟨hfiled, fun hc => hsound b.completed (fun h => h) hfiled (hunsent hc)⟩
  · exact wp_copyData_of_not_fits hb hfits fun _ => hr.guarded

theorem leavesGuarded_handleDataBlock {d : DataBlock} (hr : r.Sound)
    (hd : d.tag ≠ Multiplex.noTag) : LeavesGuarded (handleDataBlock d) r := by
  rw [handleDataBlock, LeavesGuarded, wp_bind, wp_lookupHashTable]
  cases hp : r.table (intKey d.tag) with
  | none =>
    simp only [wp_bind]
    cases hw : r.table (wordKey d.tag.toUInt32) with
    | none =>
      rw [wp_insertDummyBuffer hw]
      refine (Sound.fileDummy (some [d]) hr hw (by simp) fun q hq d' hd' => ?_).guarded
      obtain rfl : [d] = q := Option.some.inj hq
      obtain rfl : d' = d := by simpa using hd'
      exact hd
    | some q =>
      rw [wp_insertDummyBuffer_of_some hr.toWellFormed hw]
      refine LeavesSound.guarded (.load hr.reserve fun b hb => ?_)
      rw [if_neg (by simp [hr.valid_eq_false hp hw hb])]
      refine .update hr.reserve fun b' hb' => ?_
      exact hr.reserve.enqueue hb' hd
  | some p =>
    simp only [wp_bind]
    obtain ⟨b, hb⟩ := hr.live hp
    rw [wp_load hb]
    by_cases hvalid : b.valid = true
    · rw [if_pos hvalid]
      exact leavesGuarded_copyData hr hp hb hvalid
    · rw [if_neg hvalid]
      refine LeavesSound.guarded (.update hr fun b' hb' => ?_)
      exact hr.enqueue hb' hd

theorem leavesGuarded_drainQueue (rounds : ℕ) (p : Ptr) (hr : r.Guarded) :
    LeavesGuarded (drainQueue rounds p) r := by
  induction rounds generalizing r with
  | zero => exact hr
  | succ rounds ih =>
    by_cases hc : CopiesUnsent r.log
    · have hsound := hr.2 hc
      rw [drainQueue, LeavesGuarded, wp_bind, wp_load_iff]
      refine ⟨fun b hb => ?_, fun _ => hr⟩
      cases hqueue : b.waitingQueue with
      | none => exact hr
      | some queue =>
        cases queue with
        | nil => exact hr
        | cons d queue =>
          have hwaiting := hsound.waiting hb hqueue
          have hsound' := hsound.set_waitingQueue hb (some queue) fun q hq d' hd' => by
            obtain rfl := Option.some.inj hq
            exact hwaiting d' (List.mem_cons_of_mem _ hd')
          simp only [wp_bind]
          rw [wp_update _ hb]
          exact wp_mono (leavesGuarded_handleDataBlock hsound' (hwaiting d List.mem_cons_self))
            (fun _ _ => ih) fun _ _ h => h
    · exact (stepsFrom_drainQueue _ p .refl hr.1).guarded hr.1 hc

theorem leavesGuarded_handleWaiting (p : Ptr) (hr : r.Sound) :
    LeavesGuarded (handleWaiting p) r := by
  rw [handleWaiting, LeavesGuarded, wp_bind, wp_load_iff]
  refine ⟨fun b hb => ?_, fun _ => hr.guarded⟩
  cases b.waitingQueue with
  | none => exact hr.guarded
  | some queue =>
    simp only [wp_bind]
    refine wp_mono (leavesGuarded_drainQueue _ p hr.guarded) (fun _ r' hr' => ?_) fun _ _ h => h
    by_cases hc : CopiesUnsent r'.log
    · refine LeavesSound.guarded (.update (hr'.2 hc) fun b' hb' => ?_)
      exact (hr'.2 hc).set_waitingQueue hb' none (by simp)
    · exact StepsFrom.guarded (.update .refl fun b' hb' => .queue hb') hr'.1 hc

theorem leavesGuarded_handleInitBlock {i : InitBlock} (hr : r.Sound)
    (hi : i.tag ≠ Multiplex.noTag) : LeavesGuarded (handleInitBlock i) r := by
  rw [handleInitBlock, LeavesGuarded, wp_bind, wp_lookupHashTable]
  cases hp : r.table (intKey i.tag) with
  | none =>
    simp only [calloc, insertHashTable, wp_bind, wp_get, wp_set, wp_pure]
    rw [show (r.alloc _).table (intKey i.tag) = none from hp, wp_pure]
    refine Sound.guarded (hr.fileNew (Step.filed (.fileInit hp) hr.toFiled) hp
      (fun h => hi (intKey_injective h)) rfl (fun h => absurd rfl h) fun _ h => ?_)
    exact absurd h (by simp [BufferInfo.init])
  | some p =>
    obtain ⟨b, hb⟩ := hr.live hp
    simp only [wp_bind]
    rw [wp_load hb]
    by_cases hvalid : b.valid = true
    · rw [if_pos hvalid]
      exact hr.guarded
    · rw [if_neg hvalid, wp_bind, wp_update _ hb]
      have hvalid' : b.valid = false := by simpa using hvalid
      have hcompleted := (hr.blank hb hvalid').1
      refine leavesGuarded_handleWaiting p (hr.set_of_link_eq
        (Step.filed (.init hp hb hvalid') hr.toFiled) hb (hr.tag_eq hp hb).symm rfl rfl (fun h => ?_)
        fun queue hqueue => hr.waiting hb hqueue)
      exact absurd (h.symm.trans hcompleted) (by simp)

/-- A call of `handle_block` on a block with a tag. -/
theorem leavesGuarded_handleBlock (o : ByteOrder) {block : List UInt8} (hr : r.Guarded)
    (htag : ∀ x, parseBlock o block = some x → x.tag ≠ Multiplex.noTag) :
    LeavesGuarded (handleBlock o block) r := by
  by_cases hc : CopiesUnsent r.log
  · have hsound := hr.2 hc
    unfold handleBlock
    match hblock : parseBlock o block with
    | some (.init i) => exact leavesGuarded_handleInitBlock hsound (htag _ hblock)
    | some (.data d) => exact leavesGuarded_handleDataBlock hsound (htag _ hblock)
    | none => exact hr
  · exact (stepsFrom_handleBlock o block hr.1).guarded hr.1 hc

theorem leavesGuarded_handleBlocks (o : ByteOrder) (blocks : List (List UInt8)) (hr : r.Guarded)
    (htag : ∀ block ∈ blocks, ∀ x, parseBlock o block = some x → x.tag ≠ Multiplex.noTag) :
    LeavesGuarded (handleBlocks o blocks) r := by
  refine wp_forM (fun _ => Guarded) ?_ hr
  intro pre block post hblocks r hr
  exact leavesGuarded_handleBlock o hr (htag block (by simp [hblocks]))

/-! ## Runs -/

/-- What is marked as sent was passed to the handler, and so was what a block was
    copied to when it was marked as sent. -/
structure Handed (r : Reader) : Prop where
  sent : ∀ {p b}, r.heap p = some b → b.sent = true → ∃ b', .handled p b' ∈ r.log
  copied : ∀ {l₁ p before d l₂}, r.log = l₁ ++ .copied p before d :: l₂ → before.sent = true →
    ∃ b', .handled p b' ∈ l₁

theorem handed_empty : Handed Reader.empty where
  sent h := by simp [Reader.empty] at h
  copied h := by simp [Reader.empty] at h

/-- A buffer is overwritten by one that is not sent if that was not. -/
theorem Handed.set {b' : BufferInfo} (hr : Handed r) (hb : r.heap p = some b)
    (hsent : b'.sent = true → b.sent = true) : Handed (r.set p b') where
  sent {q c} hc hcsent := by
    by_cases hqp : q = p
    · subst hqp
      obtain rfl : b' = c := by simpa using hc
      exact hr.sent hb (hsent hcsent)
    · exact hr.sent (by simpa [hqp] using hc) hcsent
  copied := hr.copied

theorem Handed.fileNew {key : UInt64} (hr : Handed r) (hunsent : b.sent = false) :
    Handed (r.fileNew key b) where
  sent {q c} hc hcsent := by
    by_cases hqn : q = r.next
    · subst hqn
      obtain rfl : b = c := by simpa using hc
      exact absurd (hcsent.symm.trans hunsent) (by simp)
    · exact hr.sent (by simpa [hqn] using hc) hcsent
  copied := hr.copied

theorem Reader.Step.handed {r' : Reader} (h : r.Step r') (hr : Handed r) : Handed r' := by
  cases h with
  | fileDummy _ => exact hr.fileNew rfl
  | fileInit _ => exact hr.fileNew rfl
  | reserve => exact ⟨hr.sent, hr.copied⟩
  | init _ hb _ => exact hr.set hb fun h => h
  | queue hb => exact hr.set hb fun h => h
  | link hb _ => exact hr.set hb fun h => h
  | remove => exact ⟨hr.sent, hr.copied⟩
  | @copied p b d hp hb hvalid hfits =>
    have hrecord : Handed (r.record (.copied p b d)) := by
      refine ⟨fun hc hsent => ?_, fun {l₁ q c d' l₂} hlog hsent => ?_⟩
      · obtain ⟨b', hb'⟩ := hr.sent hc hsent
        exact ⟨b', List.mem_append_left _ hb'⟩
      · rcases append_singleton_eq_append_cons hlog with ⟨rfl, he, _⟩ | ⟨l₃, _, hlog'⟩
        · obtain ⟨rfl, rfl, _⟩ := Event.copied.inj he
          exact hr.sent hb hsent
        · exact hr.copied hlog' hsent
    exact hrecord.set hb fun h => h
  | @handled p b hb _ =>
    refine ⟨fun hc hsent => ?_, fun hlog hsent => ?_⟩
    · obtain ⟨b', hb'⟩ := hr.sent hc hsent
      exact ⟨b', List.mem_append_left _ hb'⟩
    · rcases append_singleton_eq_append_cons hlog with ⟨_, he, _⟩ | ⟨l₃, _, hlog'⟩
      · exact absurd he (by simp)
      · exact hr.copied hlog' hsent
  | @sent p b b' hb _ hlog =>
    refine ⟨fun {q c} hc hsent => ?_, hr.copied⟩
    by_cases hqp : q = p
    · exact ⟨b', hqp ▸ hlog⟩
    · exact hr.sent (by simpa [hqp] using hc) hsent
  | @free p _ =>
    refine ⟨fun {q c} hc hsent => ?_, hr.copied⟩
    by_cases hqp : q = p
    · simp [Reader.free, hqp] at hc
    · exact hr.sent (by simpa [Reader.free, hqp] using hc) hsent

/-- Whatever blocks with tags arrive: no buffer is touched after it was passed to
    the handler, if and only if no block is copied to a buffer marked as sent. -/
theorem atMostOnce_iff_copiesUnsent (o : ByteOrder) (blocks : List (List UInt8))
    (htag : ∀ block ∈ blocks, ∀ x, parseBlock o block = some x → x.tag ≠ noTag) :
    AtMostOnce (finalState (handleBlocks o blocks) Reader.empty).log ↔
      CopiesUnsent (finalState (handleBlocks o blocks) Reader.empty).log := by
  have hguarded := finalState_of_wp (leavesGuarded_handleBlocks o blocks sound_empty.guarded htag)
  have hsteps := finalState_of_wp (stepsFrom_handleBlocks o blocks filed_empty)
  refine ⟨fun honce p before d hd => ?_, fun hc => (hguarded.2 hc).once⟩
  by_contra hsent
  obtain ⟨l₁, l₂, hlog⟩ := List.append_of_mem hd
  obtain ⟨b', hb'⟩ := (hsteps.invariant Step.handed handed_empty).copied hlog (by simpa using hsent)
  rw [AtMostOnce, hlog] at honce
  exact (List.pairwise_append.1 honce).2.2 _ hb' _ List.mem_cons_self b' rfl

/-- Whether the event is a copy to a buffer marked as sent. -/
def Event.ontoSent : Event → Bool
  | .copied _ before _ => before.sent
  | .handled _ _ => false

/-- The blocks of two buffers. The second buffer is complete before the init block of the first one
    comes, and is sent after it. -/
def secondFirst : List (List UInt8) :=
  [DataBlock.bytes .little ⟨13, 0, 1, [8]⟩,
    InitBlock.bytes .little [0, 0, 0] ⟨24, -1, 2, 1, 0, false⟩,
    DataBlock.bytes .little ⟨13, 1, 1, [9]⟩,
    InitBlock.bytes .little [0, 0, 0] ⟨24, -1, 1, 0, -1, false⟩,
    DataBlock.bytes .little ⟨13, 0, 0, [7]⟩]

theorem atMostOnce_secondFirst :
    (finalState (handleBlocks .little secondFirst) Reader.empty).handled =
        [[some 7], [some 8, some 9]] ∧
      AtMostOnce (finalState (handleBlocks .little secondFirst) Reader.empty).log := by
  have hunsent : ∀ e ∈ (finalState (handleBlocks .little secondFirst) Reader.empty).log,
      e.ontoSent = false := by decide
  refine ⟨by decide, (atMostOnce_iff_copiesUnsent .little secondFirst ?_).2 ?_⟩
  · decide
  · exact fun p before d hd => hunsent _ hd

/-- The blocks of a buffer of one byte, the first of its tag, and a data block
    without a payload. -/
def oneByteThenEmpty : List (List UInt8) :=
  [InitBlock.bytes .little [0, 0, 0] ⟨24, -1, 1, 0, -1, false⟩,
    DataBlock.bytes .little ⟨13, 0, 0, [7]⟩, DataBlock.bytes .little ⟨12, 0, 0, []⟩]

/-- The data block without a payload passes the buffer to the handler again. -/
theorem handled_twice :
    ¬AtMostOnce (finalState (handleBlocks .little oneByteThenEmpty) Reader.empty).log := by
  let b (sent : Bool) : BufferInfo :=
    { buffer := [some 7], bufferSize := 1, completed := true, sent, nWritten := 1, prevTag := -1,
      valid := true, nextTag := -1 }
  have htwice : List.Sublist [.handled 0 (b false), .handled 0 (b true)]
      (finalState (handleBlocks .little oneByteThenEmpty) Reader.empty).log := by decide
  intro honce
  have hpair := List.pairwise_pair.1 (List.Pairwise.sublist htwice honce)
  exact hpair (b false) rfl

end Cse461.Multiplex
