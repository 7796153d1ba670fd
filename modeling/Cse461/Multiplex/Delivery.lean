import Cse461.Multiplex.FinishedNext

/-!
# Every buffer is delivered once

In every run whose steps are in time (`InTime`), the invariant is kept (`Inv.step`), so
that no buffer is lost and none is delivered twice (`noLoss_and_noRepeat`). A complete
buffer that no thread holds is delivered or left with the one before
(`Inv.linked_of_completed`), and the thread of that one has not looked at it yet.
-/

namespace Cse461.Multiplex.HandOff

open Library Reader Relay

variable {ι : Type} {inits pending : List InitBlock} {g g' : Ledger ι} {j : ι}
  {t u : Int32} {m : Shared} {i : InitBlock} {r r' : Reader} {σ σ' : Threads ι Shared Pc}

/-! ## The arrival of an init block -/

theorem isTag_erase (hpending : (pending.map InitBlock.tag).Nodup) (hi : i ∈ pending)
    (t : Int32) : IsTag (pending.erase i) t ↔ IsTag pending t ∧ t ≠ i.tag := by
  have hnodup := hpending.of_map
  constructor
  · rintro ⟨i', hi', rfl⟩
    obtain ⟨hne, hmem⟩ := hnodup.mem_erase_iff.1 hi'
    exact ⟨⟨i', hmem, rfl⟩, fun htag => hne (List.inj_on_of_nodup_map hpending hmem hi htag)⟩
  · rintro ⟨⟨i', hi', rfl⟩, hne⟩
    refine ⟨i', hnodup.mem_erase_iff.2 ⟨?_, hi'⟩, rfl⟩
    rintro rfl
    exact hne rfl

/-- A thread that holds nothing. -/
theorem Stands.reading (h : Stands inits g j .reading) (hphase : g'.phase = g.phase)
    (hswap : g'.swap = g.swap) : Stands inits g' j .reading where
  homes k q hq := by cases k <;> cases hq
  held t ht k := by
    rw [hphase, h.held t ht k]
    cases k <;> simp [Pc.ptrs, Pc.past]
  nodup := List.nodup_nil
  swapped s t hs ht d hd := h.swapped s t hs (hphase ▸ ht) d (hswap ▸ hd)
  place := trivial

/-- The buffer of an init block that arrives. -/
theorem fits_init {b : BufferInfo} (hi : i ∈ inits) (hgone : ¬IsTag pending i.tag)
    (hzero : g.rank i.tag = 0) (hcompleted : b.completed = false) (hsent : b.sent = false)
    (htold : ∀ u, Next inits i.tag u → 2 ≤ g.rank u → b.nextTag = u)
    (huntold : (∀ u, Next inits i.tag u → g.rank u ≤ 1) → b.nextTag = noTag) :
    Fits inits pending g i.tag (b.init i) where
  tag := rfl
  completed := by simp [BufferInfo.init, hcompleted, hzero]
  sent := by simp [BufferInfo.init, hsent, hzero]
  valid := by simp [BufferInfo.init, hgone]
  init _ := ⟨i, hi, rfl, rfl, rfl⟩
  told := htold
  untold := huntold

theorem Inv.arrive [DecidableEq ι] (h : Inv inits g σ) (hchain : IsChain inits)
    (hpc : σ.pc j = .reading) (hi : i ∈ σ.shared.pending)
    (hr : arriveInit σ.shared.reader i = some r') :
    Goes inits σ j ⟨r', σ.shared.pending.erase i⟩ .reading := by
  have hkept := h.kept
  have hstands := hpc ▸ h.stands j
  have hmem : i ∈ inits := hkept.pending.subset hi
  have htag : IsTag inits i.tag := ⟨i, hmem, rfl⟩
  have hsub : (σ.shared.pending.erase i).Sublist inits := List.erase_sublist.trans hkept.pending
  have herase := isTag_erase (hchain.nodup.sublist (hkept.pending.map _)) hi
  have hgone : ¬IsTag (σ.shared.pending.erase i) i.tag := fun hw => ((herase _).1 hw).2 rfl
  have hothers : ∀ a, a ≠ i.tag → (IsTag (σ.shared.pending.erase i) a ↔ IsTag σ.shared.pending a) :=
    fun a hne => by rw [herase, and_iff_left hne]
  have hfiled := hkept.filed htag
  obtain ⟨hzero, hdummy⟩ := hfiled.waits ⟨i, hi, rfl⟩
  cases hhome : g.home i.tag with
  | none =>
    obtain ⟨-, -, htable, -, hall⟩ := hfiled.fresh hhome
    have hfits : Fits inits (σ.shared.pending.erase i) g i.tag (.init { nextTag := noTag } i) := by
      refine fits_init hmem hgone hzero rfl rfl (fun u hu hle => ?_) fun _ => rfl
      have hone := hall u hu
      omega
    rw [arriveInit, htable] at hr
    obtain rfl := Option.some.inj hr
    refine ⟨g.make i.tag σ.shared.reader.next, h.of_step hchain .stay (hkept.keeps_make hhome)
      (fun _ => .inl rfl) (hkept.fileHome htag hhome hsub hothers (fun _ _ => .refl _)
        (fun _ _ _ _ => .refl _) (fun _ => Iff.rfl) hzero hfits fun hw => absurd hw hgone)
      (hstands.reading rfl rfl)⟩
  | some q =>
    obtain ⟨u, hnext, hle⟩ := hdummy q hhome
    have htwo : g.rank u = 2 := by
      have hlink := h.inStep _ u hnext
      change Link (g.rank i.tag) (g.rank u) at hlink
      rw [hzero] at hlink
      unfold Link at hlink
      omega
    have hswap : g.swap i.tag = none := by
      rw [Option.eq_none_iff_forall_not_mem]
      intro d hd
      obtain ⟨-, -, v, hv, hone⟩ := hfiled.swapped d hd
      rw [hchain.line.right hv hnext] at hone
      omega
    have htable : σ.shared.reader.table (intKey i.tag) = some q := by
      refine hfiled.filed q hhome hswap fun v hv => ?_
      rw [hchain.line.right hv hnext]
      omega
    obtain ⟨b, hb, hfits⟩ := hfiled.live q hhome (by omega)
    have hinvalid : b.valid = false := by
      rw [Bool.eq_false_iff, Ne, hfits.valid]
      exact fun h => h ⟨i, hi, rfl⟩
    have hcompleted : b.completed = false := by
      rw [Bool.eq_false_iff, Ne, hfits.completed]
      omega
    have hsent : b.sent = false := by
      rw [Bool.eq_false_iff, Ne, hfits.sent]
      omega
    have hinit := fits_init hmem hgone hzero hcompleted hsent hfits.told hfits.untold
    obtain rfl : σ.shared.reader.set q (b.init i) = r' := by
      simpa [arriveInit, htable, hb, hinvalid] using hr
    refine ⟨g, h.of_stay hchain (hkept.set hhome hsub hothers (fun _ _ => .refl _)
      (fun _ _ _ _ => .refl _) (fun _ => le_rfl) (fun _ => Iff.rfl) ?_ hinit (fun d hd => ?_)
      fun hw => absurd hw hgone) hstands⟩
    · change g.rank i.tag ≠ 8
      omega
    · rw [hswap] at hd
      cases hd

/-! ## Runs -/

theorem stepThread_go {p : Pc} : stepThread m p .go =
    (stepFinished m.reader p).map fun x => ({ m with reader := x.1 }, x.2) := by
  cases p <;> rfl

/-- A step that goes wrong in none of the ways keeps the invariant. -/
theorem Inv.step [DecidableEq ι] [Fintype ι] (h : Inv inits g σ) (hchain : IsChain inits)
    {a : ι × Choice} (hstep : ((handOff ι inits).restrict InTime).step σ a = some σ') :
    ∃ g', Inv inits g' σ' := by
  obtain ⟨htime, hstep⟩ := System.restrict_step_eq_some.1 hstep
  obtain ⟨j, c⟩ := a
  obtain ⟨p', hstep, hpc'⟩ := threads_step_eq_some.1 hstep
  suffices hgoes : Goes inits σ j σ'.shared p' by
    obtain ⟨g', hg'⟩ := hgoes
    exact ⟨g', by rwa [← hpc'] at hg'⟩
  cases c with
  | arrive i =>
    cases hpc : σ.pc j with
    | reading =>
      rw [hpc, stepThread] at hstep
      split_ifs at hstep with hi
      obtain ⟨r', hr, heq⟩ := Option.map_eq_some_iff.1 hstep
      obtain ⟨hshared, rfl⟩ := Prod.mk.inj heq
      rw [← hshared]
      exact h.arrive hchain hpc hi hr
    | _ =>
      rw [hpc] at hstep
      cases hstep
  | complete done =>
    cases hpc : σ.pc j with
    | reading =>
      rw [hpc] at hstep
      obtain ⟨b, hb, hstep⟩ := Option.bind_eq_some_iff.1 hstep
      split_ifs at hstep with hready
      obtain ⟨hshared, rfl⟩ := Prod.mk.inj (Option.some.inj hstep)
      rw [← hshared]
      exact h.complete hchain hpc hb hready.1 (by simpa using hready.2.1)
    | _ =>
      rw [hpc] at hstep
      cases hstep
  | go =>
    rw [stepThread_go] at hstep
    obtain ⟨⟨r', p'⟩, hfinished, heq⟩ := Option.map_eq_some_iff.1 hstep
    obtain ⟨hshared, rfl⟩ := Prod.mk.inj heq
    rw [← hshared]
    cases hpc : σ.pc j with
    | reading =>
      rw [hpc] at hfinished
      cases hfinished
    | lookupPrev done => exact h.lookupPrev hchain hpc (hpc ▸ hfinished)
    | insertDummy done => exact h.insertDummy hchain hpc (hpc ▸ hfinished)
    | putBack done prev dummy => exact h.putBack hchain hpc (hpc ▸ hfinished)
    | testSent done prev made =>
      refine h.testSent hchain hpc (fun hmade => ?_) (hpc ▸ hfinished)
      subst hmade
      simpa only [InTime, hpc] using htime
    | writeNext done prev made =>
      refine h.writeNext hchain hpc (fun hmade => ?_) (hpc ▸ hfinished)
      subst hmade
      simpa only [InTime, hpc] using htime
    | dispose done prev => exact h.dispose hchain hpc (hpc ▸ hfinished)
    | handler kv callers => exact h.handler hchain hpc (hpc ▸ hfinished)
    | readNext kv callers => exact h.readNext hchain hpc (hpc ▸ hfinished)
    | lookupNext kv nextTag callers =>
      refine h.lookupNext hchain hpc ?_ (hpc ▸ hfinished)
      simpa only [InTime, hpc] using htime
    | testCompleted kv next callers => exact h.testCompleted hchain hpc (hpc ▸ hfinished)
    | removeSelf kv callers => exact h.removeSelf hchain hpc (hpc ▸ hfinished)
    | writeSent kv callers => exact h.writeSent hchain hpc (hpc ▸ hfinished)

/-- Before the first step, no buffer is anywhere. -/
def Ledger.start : Ledger ι := ⟨fun _ => none, fun _ => none, fun _ => .waiting⟩

theorem Stands.start : Stands inits Ledger.start j .reading where
  homes k q hq := by cases k <;> cases hq
  held t _ k := by cases k <;> simp [Ledger.start, Pc.ptrs, Pc.past, Pc.looks]
  nodup := List.nodup_nil
  swapped s t _ ht := by cases ht
  place := trivial

theorem Kept.start : Kept inits (Ledger.start : Ledger ι) ⟨.empty, inits⟩ where
  below hb := by cases hb
  home_below hq := by cases hq
  inj hq := by cases hq
  isTag hq := by cases hq
  swap_tag hd := by cases hd
  swap_home hd := by cases hd
  swap_inj hd := by cases hd
  valid_home hb := by cases hb
  valid hb := by cases hb
  keys hp := by cases hp
  pending := .refl _
  filed {t} ht := {
    fresh _ := ⟨rfl, rfl, rfl, ht, fun _ _ => Nat.zero_le _⟩
    live q hq := by cases hq
    freed q hq := by cases hq
    filed q hq := by cases hq
    swapped d hd := by cases hd
    waits _ := ⟨rfl, fun q hq => by cases hq⟩ }
  delivered _ := rfl

theorem inv_start [DecidableEq ι] (h : (handOff ι inits).init σ) : Inv inits Ledger.start σ where
  kept := by
    rw [h.1]
    exact .start
  stands j := by
    rw [h.2 j]
    exact .start
  inStep _ _ _ := .inl ⟨Nat.zero_le _, Nat.zero_le _⟩
  linked t ht := by cases ht

theorem exists_inv [DecidableEq ι] [Fintype ι] (hchain : IsChain inits)
    (h : ((handOff ι inits).restrict InTime).Reachable σ) : ∃ g, Inv inits g σ := by
  refine h.invariant (I := fun s => ∃ g, Inv inits g s) (fun s hs => ⟨.start, inv_start hs⟩) ?_
  rintro s a s' ⟨g, hg⟩ hstep
  exact hg.step hchain hstep

/-! ## Delivery -/

theorem Stands.not_held (h : Stands inits g j .reading) (ht : IsTag inits t) (k : Kind) :
    g.phase t ≠ .held k j := by
  intro hphase
  have hheld := (h.held t ht k).1 hphase
  cases k <;> simp [Pc.ptrs, Pc.past, Pc.looks] at hheld

/-- A complete buffer that nobody holds is delivered, or left to the one before. -/
theorem Inv.linked_of_completed (h : Inv inits g σ) (hidle : ∀ j, σ.pc j = .reading)
    (ht : IsTag inits t) (hcompleted : Completed σ.shared.reader t)
    (hnone : deliveries σ.shared.reader t = 0) : g.phase t = .linked := by
  obtain ⟨p, b, hb, rfl, hdone⟩ := hcompleted
  have hq := h.kept.valid_home hb (h.kept.valid hb hdone)
  have hpos := (h.kept.fits hq hb).2.completed.1 hdone
  have hlow : ¬5 ≤ g.rank b.tag := by
    intro hle
    rw [h.kept.delivered ht, if_pos hle] at hnone
    cases hnone
  cases hphase : g.phase b.tag with
  | linked => rfl
  | waiting => simp [Ledger.rank, hphase, Phase.rank] at hpos
  | sent | freed => simp [Ledger.rank, hphase, Phase.rank] at hlow
  | held k j => exact absurd hphase ((hidle j ▸ h.stands j).not_held ht k)

theorem Inv.noLoss (h : Inv inits g σ) (hchain : IsChain inits) : NoLoss inits σ := by
  intro hidle i hi hcompleted hnone
  have ht : IsTag inits i.tag := ⟨i, hi, rfl⟩
  have hlinked := h.linked_of_completed hidle ht hcompleted hnone
  obtain ⟨s, hnext⟩ := h.linked _ hlinked
  obtain ⟨i', hi', htag, rfl, hne⟩ := id hnext
  obtain rfl := hchain.eq_of_tag hi' hi htag
  refine ⟨hne, ?_⟩
  rw [h.kept.delivered (hnext.isTag_left hchain), if_neg]
  intro hle
  have hlink := h.inStep _ _ hnext
  change Link (g.rank i'.prevTag) (g.phase i'.tag).rank at hlink
  rw [hlinked, Phase.rank] at hlink
  have hfive : g.rank i'.prevTag = 5 := by
    unfold Link at hlink
    omega
  cases hphase : g.phase i'.prevTag with
  | waiting | linked | sent | freed => simp [Ledger.rank, hphase, Phase.rank] at hfive
  | held k j => exact (hidle j ▸ h.stands j).not_held (hnext.isTag_left hchain) k hphase

theorem Inv.noRepeat (h : Inv inits g σ) : NoRepeat inits σ := by
  intro i hi
  rw [h.kept.delivered ⟨i, hi, rfl⟩]
  split_ifs <;> decide

/-- In a run without the three steps that go wrong, no buffer is lost or delivered twice. -/
theorem noLoss_and_noRepeat [DecidableEq ι] [Fintype ι] {s : Threads ι Shared Pc}
    (hchain : IsChain inits) (h : ((handOff ι inits).restrict InTime).Reachable s) :
    NoLoss inits s ∧ NoRepeat inits s := by
  obtain ⟨g, hg⟩ := exists_inv hchain h
  exact ⟨hg.noLoss hchain, hg.noRepeat⟩

/-- Each thread delivers the buffer that it completed. -/
theorem noLoss_and_noRepeat_twoCompleted :
    ∃ s, ((handOff Bool twoInits).restrict InTime).Reachable s ∧ (∀ j, s.pc j = .reading) ∧
      deliveries s.shared.reader 1 = 1 ∧ NoLoss twoInits s ∧ NoRepeat twoInits s := by
  have hrun : ((((handOff Bool twoInits).restrict InTime).exec twoReaders (twoCompleted ++
      List.replicate 5 (false, .go) ++ List.replicate 7 (true, .go))).map fun s =>
      decide ((∀ j, s.pc j = .reading) ∧ deliveries s.shared.reader 1 = 1)) = some true := by
    decide
  obtain ⟨s, hs, hend⟩ := Option.map_eq_some_iff.1 hrun
  obtain ⟨hidle, honce⟩ := of_decide_eq_true hend
  have hreach := System.reachable_of_exec (S := (handOff Bool twoInits).restrict InTime)
    twoReaders_init hs
  exact ⟨s, hreach, hidle, honce, noLoss_and_noRepeat isChain_twoInits hreach⟩

end Cse461.Multiplex.HandOff
