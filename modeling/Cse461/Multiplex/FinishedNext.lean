import Cse461.Multiplex.FinishedPrev

/-!
# Steps of `handle_finished_buffer_next`

The thread delivers the buffer that it holds, and reads its `next_tag`. If a tag was left
there, it takes that buffer over (`Move.readNext`), and holds its own until the recursion
comes back to it, to mark it as sent. Each lemma `Inv.*` is about one step, as in
`Cse461.Multiplex.FinishedPrev`.
-/

namespace Cse461.Multiplex.HandOff

open Library Reader Relay

variable {ι : Type} [DecidableEq ι] {inits : List InitBlock} {g g' : Ledger ι} {j : ι} {p p' : Pc}
  {s t u : Int32} {m m' : Shared} {b b' : BufferInfo} {q : Ptr} {r r' : Reader}
  {σ : Threads ι Shared Pc}

theorem IsTag.ne_noTag (hchain : IsChain inits) (ht : IsTag inits t) : t ≠ noTag := by
  rintro rfl
  obtain ⟨i, hi, htag⟩ := ht
  exact absurd (hchain.tag_nonneg i hi) (by rw [htag]; decide)

omit [DecidableEq ι] in
/-- What a thread holds of another kind is not what it has read already. -/
theorem Stands.not_mem_past (h : Stands inits g j p) (hkept : Kept inits g m)
    (hq : g.home t = some q) {k : Kind} (hphase : g.phase t = .held k j) (hk : k ≠ .finishing) :
    q ∉ p.past := by
  intro hmem
  have hfinishing := h.phase_eq (hkept.isTag hq) (k := .finishing) hmem hq
  rw [hphase] at hfinishing
  cases hfinishing
  exact hk rfl

theorem Inv.handler (h : Inv inits g σ) (hchain : IsChain inits) {kv : HTKeyValue}
    {callers : List HTKeyValue} (hpc : σ.pc j = .handler kv callers)
    (hstep : stepFinished σ.shared.reader (.handler kv callers) = some (r', p')) :
    Goes inits σ j ⟨r', σ.shared.pending⟩ p' := by
  have hstands := hpc ▸ h.stands j
  obtain ⟨t, ht, hphase⟩ := h.exists_held (k := .calling) hpc (List.mem_singleton_self kv.value)
  have hrank : g.rank t = 4 := Ledger.rank_of_phase hphase rfl
  obtain ⟨b, hb, hstep⟩ := Option.bind_eq_some_iff.1 hstep
  obtain ⟨rfl, rfl⟩ := Prod.mk.inj (Option.some.inj hstep)
  obtain ⟨-, hfits⟩ := h.kept.fits ht hb
  obtain ⟨t', ht', hstack⟩ := hstands.place
  obtain rfl := h.kept.inj ht ht'
  have hnot : kv.value ∉ callers.map HTKeyValue.value :=
    hstands.not_mem_past h.kept ht hphase (by decide)
  refine ⟨g.put t (.held .reading j), h.of_step hchain (.call hphase) (.refl g)
    (fun _ => .inl rfl) (h.kept.record hfits.tag hrank j) ?_⟩
  refine hstands.put h.kept ht (g.keeps_put t _) rfl rfl (fun k => ?_) (fun k a ha => ?_) rfl
    rfl hstands.nodup rfl (fun h => by cases h) ⟨t, ht, hstack.mono (g.keeps_put t _)⟩
  · cases k <;> simp_all [Pc.ptrs, Pc.past]
  · cases k <;> simp [Pc.ptrs, Pc.past, ha]

/-- The thread has read `next_tag`, and looks up what it says. -/
theorem Inv.readNext (h : Inv inits g σ) (hchain : IsChain inits) {kv : HTKeyValue}
    {callers : List HTKeyValue} (hpc : σ.pc j = .readNext kv callers)
    (hstep : stepFinished σ.shared.reader (.readNext kv callers) = some (r', p')) :
    Goes inits σ j ⟨r', σ.shared.pending⟩ p' := by
  have hstands := hpc ▸ h.stands j
  have hline := hchain.line
  obtain ⟨t, ht, hphase⟩ := h.exists_held (k := .reading) hpc (List.mem_singleton_self kv.value)
  have hrank : g.rank t = 5 := Ledger.rank_of_phase hphase rfl
  obtain ⟨b, hb, hstep⟩ := Option.bind_eq_some_iff.1 hstep
  obtain ⟨rfl, rfl⟩ := Prod.mk.inj (Option.some.inj hstep)
  obtain ⟨-, hfits⟩ := h.kept.fits ht hb
  obtain ⟨t', ht', hstack⟩ := hstands.place
  obtain rfl := h.kept.inj ht ht'
  have hnodup : (kv.value :: callers.map HTKeyValue.value).Nodup :=
    List.nodup_cons.2 ⟨hstands.not_mem_past h.kept ht hphase (by decide), hstands.nodup⟩
  have hread : Kept inits (g.put t (.held .finishing j)) σ.shared := by
    refine h.kept.put (n := 6) rfl ?_ (fun _ => ?_) ?_
    · rw [hrank]
      exact .inr ⟨by decide, by decide⟩
    · rw [hrank]
      exact ⟨by decide, by decide, by decide⟩
    · omega
  by_cases hall : ∀ u, Next inits t u → g.rank u ≤ 1
  · refine ⟨g.put t (.held .finishing j), h.of_step hchain (.readNone hphase hall)
      (g.keeps_put t _) (fun _ => .inl rfl) hread ?_⟩
    have hcleared : Cleared (Next inits) (g.put t (.held .finishing j)).phase t := by
      intro u hu
      change (g.put t (.held .finishing j)).rank u ≤ 1 ∨ _
      rw [Ledger.rank_put, if_neg]
      · exact .inl (hall u hu)
      · rintro rfl
        exact hline.irrefl u hu
    have hstack' := hstack.mono (g.keeps_put t (.held .finishing j))
    rw [hfits.untold hall]
    refine hstands.change h.kept ht (g.keeps_put t _) (fun a hat ha k => ?_) (fun k a ha => ?_)
      (fun k => ?_) rfl ?_ ?_ (fun c a hca ha d hd => ?_) ?_
    · rw [Ledger.phase_put, if_neg hat]
      split_ifs <;> simp [Pc.looks, (ha.ne_noTag hchain).symm]
    · split_ifs <;> cases k <;> simp [Pc.ptrs, Pc.past, ha]
    · rw [Ledger.phase_put, if_pos rfl]
      split_ifs <;> cases k <;> simp [Pc.ptrs, Pc.past]
    · split_ifs <;> simp [Pc.looks, ((h.kept.isTag ht).ne_noTag hchain).symm]
    · split_ifs <;> exact hnodup
    · rw [Ledger.phase_put] at ha
      split_ifs at ha with hat
      · cases ha
      · cases hstands.swapped c a hca ha d hd
    · split_ifs
      · exact ⟨t, ht, hcleared, hstack'⟩
      · exact ⟨t, ht, hstack', .inl ⟨rfl, hcleared⟩⟩
  · obtain ⟨u, hu, hlinked⟩ : ∃ u, Next inits t u ∧ g.phase u = .linked := by
      push Not at hall
      obtain ⟨u, hu, hlt⟩ := hall
      have hlink := h.inStep t u hu
      refine ⟨u, hu, Phase.rank_eq_two.1 ?_⟩
      change Link (g.rank t) (g.rank u) at hlink
      change g.rank u = 2
      rw [hrank] at hlink
      unfold Link at hlink
      omega
    have htwo : g.rank u = 2 := Ledger.rank_of_phase hlinked rfl
    have hut : u ≠ t := by
      rintro rfl
      exact hline.irrefl u hu
    obtain ⟨i, hi, htag, -, hlast⟩ := h.kept.exists_init ht hb (by omega)
    have hkeeps : g.Keeps ((g.put t (.held .finishing j)).put u (.held .passing j)) :=
      fun _ _ _ => Iff.rfl
    rw [hfits.told u hu htwo.ge, ← hlast, hu.lastBlock hchain hi htag, if_neg Bool.false_ne_true]
    refine ⟨(g.put t (.held .finishing j)).put u (.held .passing j),
      h.of_step hchain (.readNext hphase hu hlinked) hkeeps (fun _ => .inl rfl)
        (hread.put (n := 3) rfl ?_ (fun _ => ?_) ?_) ?_⟩
    · rw [Ledger.rank_put, if_neg hut, htwo]
      exact .inr ⟨by decide, by decide⟩
    · rw [Ledger.rank_put, if_neg hut, htwo]
      exact ⟨by decide, by decide, by decide⟩
    · rw [Ledger.rank_put, if_neg hut, htwo]
      decide
    · refine hstands.change h.kept ht hkeeps (fun a hat _ k => ?_) (fun k a ha => ?_)
        (fun k => ?_) rfl ?_ hnodup (fun c a hca ha d hd => ?_) ⟨t, ht, hstack.mono hkeeps, .inr hu⟩
      · rw [Ledger.phase_put, Ledger.phase_put, if_neg hat]
        split_ifs with hau
        · simp [Pc.looks, hau, hlinked, eq_comm]
        · simp [Pc.looks, Ne.symm hau]
      · cases k <;> simp [Pc.ptrs, Pc.past, ha]
      · rw [Ledger.phase_put, if_neg hut.symm, Ledger.phase_put, if_pos rfl]
        cases k <;> simp [Pc.ptrs, Pc.past]
      · simp [Pc.looks, hut]
      · rw [Ledger.phase_put, Ledger.phase_put] at ha
        split_ifs at ha with hau hat
        · cases ha
        · cases ha
        · cases hstands.swapped c a hca ha d hd

theorem Inv.lookupNext (h : Inv inits g σ) (hchain : IsChain inits) {kv : HTKeyValue}
    {nextTag : Int32} {callers : List HTKeyValue} (hpc : σ.pc j = .lookupNext kv nextTag callers)
    (hvalid : ∀ p ∈ σ.shared.reader.table (intKey nextTag), ∀ b ∈ σ.shared.reader.heap p,
      b.valid = true)
    (hstep : stepFinished σ.shared.reader (.lookupNext kv nextTag callers) = some (r', p')) :
    Goes inits σ j ⟨r', σ.shared.pending⟩ p' := by
  have hstands := hpc ▸ h.stands j
  obtain ⟨t, ht, hstack, ⟨rfl, hcleared⟩ | hnext⟩ := hstands.place
  · have hnone : σ.shared.reader.table (intKey noTag) = none := by
      rw [Option.eq_none_iff_forall_not_mem]
      intro p hp
      obtain ⟨a, ha, hkey⟩ := h.kept.keys hp
      exact ha.ne_noTag hchain (intKey_injective hkey).symm
    rw [stepFinished, hnone] at hstep
    obtain ⟨rfl, rfl⟩ := Prod.mk.inj (Option.some.inj hstep)
    refine ⟨g, h.of_stay hchain h.kept (hstands.go ?_ (fun a ha => ?_) ?_
      ⟨t, ht, hcleared, hstack⟩)⟩
    · funext k
      cases k <;> rfl
    · simp [Pc.looks, (ha.ne_noTag hchain).symm]
    · simp [Pc.swapped]
  · obtain ⟨i, hi, htag, -⟩ := id hnext
    have hu : IsTag inits nextTag := ⟨i, hi, htag⟩
    have hphase := (hstands.held nextTag hu .passing).2 (.inr ⟨rfl, rfl⟩)
    have hrank : g.rank nextTag = 3 := Ledger.rank_of_phase hphase rfl
    have hfiled := h.kept.filed hu
    obtain ⟨q, hq⟩ : ∃ q, g.home nextTag = some q := by
      refine Option.ne_none_iff_exists'.1 fun hnone => ?_
      have hzero := (hfiled.fresh hnone).1
      omega
    have hswap : g.swap nextTag = none := by
      rw [Option.eq_none_iff_forall_not_mem]
      intro d hd
      obtain ⟨htable, ⟨b, hb, hdummy⟩, -⟩ := hfiled.swapped d hd
      rw [hvalid d htable b hb] at hdummy
      cases hdummy
    have htable : σ.shared.reader.table (intKey nextTag) = some q := by
      refine hfiled.filed q hq hswap fun v hv => ?_
      have hlink := h.inStep nextTag v hv
      change Link (g.rank nextTag) (g.rank v) at hlink
      unfold Link at hlink
      omega
    rw [stepFinished, htable] at hstep
    obtain ⟨rfl, rfl⟩ := Prod.mk.inj (Option.some.inj hstep)
    refine ⟨g, h.of_stay hchain h.kept ⟨fun k x hx => ?_, fun a ha k => ?_, hstands.nodup,
      fun s a hs ha d hd => ?_, ⟨t, nextTag, hnext, ht, hq, hstack⟩⟩⟩
    · cases k with
      | passing => exact ⟨nextTag, by rwa [List.mem_singleton.1 hx]⟩
      | finishing => exact hstands.homes .finishing x hx
      | early | calling | reading => cases hx
    · rw [hstands.held a ha]
      cases k with
      | passing =>
        have hiff : nextTag = a ↔ g.home a = some q :=
          ⟨fun h => h ▸ hq, fun ha => h.kept.inj hq ha⟩
        simp [Pc.ptrs, Pc.looks, hiff]
      | _ => simp [Pc.ptrs, Pc.past]
    · cases hstands.swapped s a hs ha d hd

theorem Inv.testCompleted (h : Inv inits g σ) (hchain : IsChain inits) {kv next : HTKeyValue}
    {callers : List HTKeyValue} (hpc : σ.pc j = .testCompleted kv next callers)
    (hstep : stepFinished σ.shared.reader (.testCompleted kv next callers) = some (r', p')) :
    Goes inits σ j ⟨r', σ.shared.pending⟩ p' := by
  have hstands := hpc ▸ h.stands j
  obtain ⟨u, hu, hphase⟩ := h.exists_held (k := .passing) hpc (List.mem_singleton_self next.value)
  have hrank : g.rank u = 3 := Ledger.rank_of_phase hphase rfl
  obtain ⟨t, u', hnext, ht, hu', hstack⟩ := hstands.place
  obtain rfl := h.kept.inj hu hu'
  obtain ⟨b, hb, hstep⟩ := Option.bind_eq_some_iff.1 hstep
  obtain ⟨rfl, rfl⟩ := Prod.mk.inj (Option.some.inj hstep)
  obtain ⟨-, hfits⟩ := h.kept.fits hu hb
  rw [if_pos (hfits.completed.2 (by omega))]
  refine ⟨g.put u (.held .calling j), h.of_step hchain (.pass hphase) (g.keeps_put u _)
    (fun _ => .inl rfl) (h.kept.put (n := 4) rfl ?_ (fun _ => ?_) ?_) ?_⟩
  · rw [hrank]
    exact .inr ⟨by decide, by decide⟩
  · rw [hrank]
    exact ⟨by decide, by decide, by decide⟩
  · omega
  · refine hstands.put h.kept hu (g.keeps_put u _) rfl rfl (fun k => ?_) (fun k a ha => ?_) rfl rfl
      hstands.nodup rfl (fun h => by cases h)
      ⟨u, hu, t, hnext, ht, hstack.mono (g.keeps_put u _)⟩
    · have hnot : next.value ∉ (kv :: callers).map HTKeyValue.value :=
        hstands.not_mem_past h.kept hu hphase (by decide)
      cases k <;> simp_all [Pc.ptrs, Pc.past]
    · cases k <;> simp [Pc.ptrs, Pc.past, ha]

theorem Inv.removeSelf (h : Inv inits g σ) (hchain : IsChain inits) {kv : HTKeyValue}
    {callers : List HTKeyValue} (hpc : σ.pc j = .removeSelf kv callers)
    (hstep : stepFinished σ.shared.reader (.removeSelf kv callers) = some (r', p')) :
    Goes inits σ j ⟨r', σ.shared.pending⟩ p' := by
  have hstands := hpc ▸ h.stands j
  obtain ⟨t, u, hnext, ht, hu, hstack⟩ := hstands.place
  obtain ⟨b, hb, hstep⟩ := Option.bind_eq_some_iff.1 hstep
  obtain ⟨rfl, rfl⟩ := Prod.mk.inj (Option.some.inj hstep)
  rw [(h.kept.fits ht hb).2.tag]
  refine ⟨g, h.of_stay hchain (h.kept.remove hchain.line hnext (by omega))
    (hstands.go ?_ (fun _ _ => Iff.rfl) ?_ ⟨t, ht, fun v hv => ?_, hstack⟩)⟩
  · funext k
    cases k <;> rfl
  · simp [Pc.swapped]
  · rw [hchain.line.right hv hnext]
    exact .inr hu

theorem Inv.writeSent (h : Inv inits g σ) (hchain : IsChain inits) {kv : HTKeyValue}
    {callers : List HTKeyValue} (hpc : σ.pc j = .writeSent kv callers)
    (hstep : stepFinished σ.shared.reader (.writeSent kv callers) = some (r', p')) :
    Goes inits σ j ⟨r', σ.shared.pending⟩ p' := by
  have hstands := hpc ▸ h.stands j
  obtain ⟨t, ht, hphase⟩ := h.exists_held (k := .finishing) hpc List.mem_cons_self
  have hrank : g.rank t = 6 := Ledger.rank_of_phase hphase rfl
  obtain ⟨t', ht', hcleared, hstack⟩ := hstands.place
  obtain rfl := h.kept.inj ht ht'
  obtain ⟨b, hb, hstep⟩ := Option.bind_eq_some_iff.1 hstep
  obtain ⟨rfl, rfl⟩ := Prod.mk.inj (Option.some.inj hstep)
  obtain ⟨-, hfits⟩ := h.kept.fits ht hb
  have hvalid : b.valid = true := by
    refine hfits.valid.2 fun hw => ?_
    have hzero := ((h.kept.filed (h.kept.isTag ht)).waits hw).1
    omega
  have hcompleted := hfits.completed.2 (by omega)
  refine ⟨g.put t .sent, h.of_step hchain (.send hphase hcleared) (g.keeps_put t _)
    (fun _ => .inl rfl) (h.kept.mark hchain.line ht hb hvalid (n := 7) rfl ?_ ?_ ?_ (by decide)
      (by rw [hcompleted]; decide) (by decide)) ?_⟩
  · omega
  · rw [hrank]
    exact ⟨by decide, by decide, by decide⟩
  · omega
  · obtain ⟨hnot, hnodup⟩ := List.nodup_cons.1 hstands.nodup
    cases callers with
    | nil =>
      refine hstands.put h.kept ht (g.keeps_put t _) rfl rfl (fun k => ?_) (fun k a ha => ?_) rfl
        rfl List.nodup_nil rfl (fun h => by cases h) trivial
      · cases k <;> simp [Pc.returnTo, Pc.ptrs, Pc.past]
      · cases k <;> simp [Pc.returnTo, Pc.ptrs, Pc.past, ha]
    | cons kv' callers =>
      obtain ⟨s, hnext, hs, hrest⟩ := hstack
      refine hstands.put h.kept ht (g.keeps_put t _) rfl rfl (fun k => ?_) (fun k a ha => ?_) rfl
        rfl hnodup rfl (fun h => by cases h)
        ⟨s, t, hnext, hs, ?_, hrest.mono (g.keeps_put t _)⟩
      · cases k <;> simp_all [Pc.returnTo, Pc.ptrs, Pc.past]
      · cases k <;> simp [Pc.returnTo, Pc.ptrs, Pc.past, ha]
      · rw [Ledger.rank_put, if_pos rfl, Phase.rank]

end Cse461.Multiplex.HandOff
