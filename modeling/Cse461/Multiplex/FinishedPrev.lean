import Cse461.Multiplex.Ledger

/-!
# Steps of `handle_finished_buffer_prev`

The thread holds the buffer that it completed, up to the step in which it leaves the tag
with the buffer before (`Move.tell`), or finds that one delivered and goes on to deliver
its own (`Move.take`). Each lemma `Inv.*` is about one step, and says that a ledger fits
the state after it (`Goes`).

What these steps have in common is in `Inv.of_step`, for the other threads, and in
`Stands.change`, for the thread itself: most of them change the phase of one buffer only.
-/

namespace Cse461.Multiplex.HandOff

open Library Reader Relay

variable {ι : Type} {inits : List InitBlock} {g g' : Ledger ι} {j : ι} {p p' : Pc}
  {s t u : Int32} {m m' : Shared} {b b' : BufferInfo} {q : Ptr} {r r' : Reader}
  {σ : Threads ι Shared Pc}

/-! ## What a thread finds -/

theorem Next.isTag_left (hchain : IsChain inits) (h : Next inits s t) : IsTag inits s := by
  obtain ⟨k, i, -, hi, -, hs, -⟩ := h.exists_index hchain
  exact ⟨i, List.mem_of_getElem? hi, hs⟩

/-- A buffer that is not freed is the one of its tag. -/
theorem Kept.fits (h : Kept inits g m) (hq : g.home t = some q) (hb : m.reader.heap q = some b) :
    g.rank t ≠ 8 ∧ Fits inits m.pending g t b := by
  have hfiled := h.filed (h.isTag hq)
  have hlive : g.rank t ≠ 8 := by
    intro hfreed
    rw [hfiled.freed q hq hfreed] at hb
    cases hb
  obtain ⟨c, hc, hfits⟩ := hfiled.live q hq hlive
  obtain rfl := Option.some.inj (hb.symm.trans hc)
  exact ⟨hlive, hfits⟩

/-- The init block of a complete buffer has arrived. -/
theorem Kept.exists_init (h : Kept inits g m) (hq : g.home t = some q)
    (hb : m.reader.heap q = some b) (hpos : 1 ≤ g.rank t) :
    ∃ i ∈ inits, i.tag = t ∧ i.prevTag = b.prevTag ∧ i.lastBlock = b.lastBlock := by
  have hfits := (h.fits hq hb).2
  refine hfits.init (hfits.valid.2 fun hw => ?_)
  have hzero := ((h.filed (h.isTag hq)).waits hw).1
  omega

theorem Kept.next_prevTag (h : Kept inits g m) (hq : g.home t = some q)
    (hb : m.reader.heap q = some b) (hpos : 1 ≤ g.rank t) (hne : b.prevTag ≠ noTag) :
    Next inits b.prevTag t := by
  obtain ⟨i, hi, htag, hprev, -⟩ := h.exists_init hq hb hpos
  exact ⟨i, hi, htag, hprev, hne⟩

theorem Kept.prevTag_eq (h : Kept inits g m) (hchain : IsChain inits) (hq : g.home t = some q)
    (hb : m.reader.heap q = some b) (hpos : 1 ≤ g.rank t) (hnext : Next inits s t) :
    b.prevTag = s ∧ b.prevTag ≠ noTag := by
  obtain ⟨i, hi, htag, hprev, -⟩ := h.exists_init hq hb hpos
  obtain ⟨i', hi', htag', rfl, hne⟩ := hnext
  obtain rfl := hchain.eq_of_tag hi hi' (htag.trans htag'.symm)
  exact ⟨hprev.symm, hprev ▸ hne⟩

/-- The table has the buffer before one that is not passed on yet. -/
theorem Kept.table_eq_home (h : Kept inits g m) (hchain : IsChain inits) (hnext : Next inits s t)
    (ht : g.rank t ≤ 3) (hswap : g.swap s = none) : m.reader.table (intKey s) = g.home s := by
  have hfiled := h.filed (hnext.isTag_left hchain)
  cases hs : g.home s with
  | none => exact (hfiled.fresh hs).2.2.1
  | some q =>
    refine hfiled.filed q hs hswap fun u hu => ?_
    rwa [hchain.line.right hu hnext]

/-- `insert_dummy_buffer` files the buffer before under the key of its tag. -/
theorem Kept.dummyKey_eq (h : Kept inits g m) (hchain : IsChain inits) (hq : g.home t = some q)
    (hb : m.reader.heap q = some b) (hpos : 1 ≤ g.rank t) (hnext : Next inits s t) :
    dummyKey b = intKey s := by
  obtain ⟨hprev, -⟩ := h.prevTag_eq hchain hq hb hpos hnext
  rw [dummyKey, hprev]
  exact wordKey_eq_intKey_iff.2 ⟨rfl, hnext.nonneg hchain⟩

/-! ## Steps -/

theorem Ledger.Keeps.refl (g : Ledger ι) : g.Keeps g := fun _ _ _ => Iff.rfl

/-- A step of a thread. -/
theorem Inv.of_step [DecidableEq ι] (h : Inv inits g σ) (hchain : IsChain inits)
    (hmove : Move (Next inits) j g.phase g'.phase) (hhome : g.Keeps g')
    (hswap : ∀ s, g'.swap s = g.swap s ∨ ∃ t, Next inits s t ∧ g.phase t = .held .early j)
    (hkept : Kept inits g' m) (hstands : Stands inits g' j p) :
    Inv inits g' ⟨m, Function.update σ.pc j p⟩ where
  kept := hkept
  stands j' := by
    by_cases hj : j' = j
    · subst hj
      simpa using hstands
    · simpa [hj] using (h.stands j').other hchain h.kept hj hmove hhome hswap
  inStep := hmove.inStep hchain.line h.inStep
  linked t ht := (hmove.linked ht).elim (h.linked t) id

/-- The ledger stays. -/
theorem Inv.of_stay [DecidableEq ι] (h : Inv inits g σ) (hchain : IsChain inits)
    (hkept : Kept inits g m)
    (hstands : Stands inits g j p) : Inv inits g ⟨m, Function.update σ.pc j p⟩ :=
  h.of_step hchain .stay (.refl g) (fun _ => .inl rfl) hkept hstands

/-- The thread goes on with the same buffers. -/
theorem Stands.go (h : Stands inits g j p) (hptrs : p'.ptrs = p.ptrs)
    (hlooks : ∀ a, IsTag inits a → (p'.looks = some a ↔ p.looks = some a))
    (hswapped : ∀ d, p.swapped = some d → p'.swapped = some d) (hplace : Place inits g p') :
    Stands inits g j p' where
  homes k q hq := h.homes k q (hptrs ▸ hq)
  held t ht k := by rw [hptrs, hlooks t ht, h.held t ht k]
  nodup := by
    have hpast : p'.past = p.past := congrFun hptrs .finishing
    exact hpast ▸ h.nodup
  swapped s t hs ht d hd := hswapped d (h.swapped s t hs ht d hd)
  place := hplace

/-- The thread changes the phase of the buffer of the tag `t`. -/
theorem Stands.change (h : Stands inits g j p) (hkept : Kept inits g m) (hq : g.home t = some q)
    (hhome : g.Keeps g')
    (hother : ∀ a, a ≠ t → IsTag inits a → ∀ k,
      (g'.phase a = .held k j ↔ g.phase a = .held k j ∨ k = .passing ∧ p'.looks = some a))
    (hptrs : ∀ k, ∀ a, a ≠ q → (a ∈ p'.ptrs k ↔ a ∈ p.ptrs k))
    (hown : ∀ k, g'.phase t = .held k j ↔ q ∈ p'.ptrs k) (hlooks : p.looks = none)
    (hlooks' : p'.looks ≠ some t) (hnodup : p'.past.Nodup)
    (hswapped : ∀ s a, Next inits s a → g'.phase a = .held .early j → ∀ d, g'.swap s = some d →
      p'.swapped = some d)
    (hplace : Place inits g' p') : Stands inits g' j p' where
  homes k a ha := by
    by_cases haq : a = q
    · exact ⟨t, haq ▸ hhome.home hq⟩
    · obtain ⟨c, hc⟩ := h.homes k a ((hptrs k a haq).1 ha)
      exact ⟨c, hhome.home hc⟩
  held a ha k := by
    by_cases hat : a = t
    · subst hat
      rw [hown]
      constructor
      · exact fun hmem => .inl ⟨q, hmem, hhome.home hq⟩
      · rintro (⟨x, hx, hax⟩ | ⟨-, hlook⟩)
        · obtain rfl := Option.some.inj ((hhome.home hq).symm.trans hax)
          exact hx
        · exact absurd hlook hlooks'
    · rw [hother a hat ha, h.held a ha, hlooks]
      have hne : ∀ x, g.home a = some x → x ≠ q := by
        rintro x hx rfl
        exact hat (hkept.inj hx hq)
      refine or_congr ?_ Iff.rfl
      constructor
      · rintro (⟨x, hx, hax⟩ | ⟨-, hlook⟩)
        · exact ⟨x, (hptrs k x (hne x hax)).2 hx, hhome.home hax⟩
        · cases hlook
      · rintro ⟨x, hx, hax⟩
        refine .inl ?_
        by_cases hxq : x = q
        · subst hxq
          exact absurd rfl (hne x ((hhome x ⟨t, hq⟩ a).1 hax))
        · have hmem := (hptrs k x hxq).1 hx
          exact ⟨x, hmem, (hhome x (h.homes k x hmem) a).1 hax⟩
  nodup := hnodup
  swapped := hswapped
  place := hplace

/-- The buffers that a thread holds are where the ledger says. -/
theorem Inv.exists_held (h : Inv inits g σ) {k : Kind} (hpc : σ.pc j = p) (hq : q ∈ p.ptrs k) :
    ∃ t, g.home t = some q ∧ g.phase t = .held k j := by
  subst hpc
  obtain ⟨t, ht⟩ := (h.stands j).homes k q hq
  exact ⟨t, ht, (h.stands j).phase_eq (h.kept.isTag ht) hq ht⟩

theorem Ledger.rank_of_phase {x : Phase ι} {n : ℕ} (h : g.phase t = x) (hx : x.rank = n) :
    g.rank t = n := by
  rw [Ledger.rank, h, hx]

/-- No dummy is in the place of the buffer before, unless the thread put it there. -/
theorem Stands.swap_eq_none (h : Stands inits g j p) (hp : p.swapped = none)
    (hnext : Next inits s t) (ht : g.phase t = .held .early j) : g.swap s = none := by
  rw [Option.eq_none_iff_forall_not_mem]
  intro d hd
  have hsome := h.swapped s t hnext ht d hd
  rw [hp] at hsome
  cases hsome

/-- A ledger with another dummy in the place of the tag `s`, or none. -/
def Ledger.swapAt (g : Ledger ι) (s : Int32) (d : Option Ptr) : Ledger ι :=
  ⟨g.home, Function.update g.swap s d, g.phase⟩

theorem Ledger.keeps_swapAt (g : Ledger ι) (s : Int32) (d : Option Ptr) : g.Keeps (g.swapAt s d) :=
  fun _ _ _ => Iff.rfl

theorem Ledger.swap_swapAt (g : Ledger ι) (s a : Int32) (d : Option Ptr) :
    (g.swapAt s d).swap a = if a = s then d else g.swap a := Function.update_apply ..

/-- A ledger with a new buffer for the tag `s`. -/
def Ledger.make (g : Ledger ι) (s : Int32) (q : Ptr) : Ledger ι :=
  ⟨Function.update g.home s (some q), g.swap, g.phase⟩

theorem Ledger.home_make (g : Ledger ι) (s a : Int32) (q : Ptr) :
    (g.make s q).home a = if a = s then some q else g.home a := Function.update_apply ..

theorem Kept.keeps_make (h : Kept inits g m) (hs : g.home s = none) :
    g.Keeps (g.make s m.reader.next) := by
  rintro q ⟨u, hu⟩ t
  have hne : m.reader.next ≠ q := (h.home_below hu).ne'
  rw [Ledger.home_make]
  split_ifs with hts
  · simp [hts, hs, hne]
  · rfl

/-- A ledger with another phase for the tag `t`. -/
def Ledger.put (g : Ledger ι) (t : Int32) (x : Phase ι) : Ledger ι :=
  ⟨g.home, g.swap, Function.update g.phase t x⟩

theorem Ledger.keeps_put (g : Ledger ι) (t : Int32) (x : Phase ι) : g.Keeps (g.put t x) :=
  fun _ _ _ => Iff.rfl

theorem Ledger.phase_put (g : Ledger ι) (t a : Int32) (x : Phase ι) :
    (g.put t x).phase a = if a = t then x else g.phase a := Function.update_apply ..

theorem Ledger.rank_put (g : Ledger ι) (t a : Int32) (x : Phase ι) :
    (g.put t x).rank a = if a = t then x.rank else g.rank a := rank_update_phase g t a x

/-- A buffer goes on, as far as the others see. -/
theorem Kept.put (h : Kept inits g m) {x : Phase ι} {n : ℕ} (hx : x.rank = n)
    (hsteady : Steady (g.rank t) n) (halike : (∃ s, Next inits s t) → Alike (g.rank t) n)
    (hdelivered : 5 ≤ g.rank t ↔ 5 ≤ n) : Kept inits (g.put t x) m := by
  subst hx
  refine h.move (fun a => ?_) (fun a u hau => ?_) fun a => ?_
  · rw [rank_update_phase]
    split_ifs with hat
    · exact hat ▸ hsteady
    · exact .refl _
  · rw [rank_update_phase]
    split_ifs with hut
    · exact hut ▸ halike ⟨a, hut ▸ hau⟩
    · exact .refl _
  · rw [rank_update_phase]
    split_ifs with hat
    · exact hat ▸ hdelivered
    · rfl

/-- A buffer after another phase. -/
theorem Fits.put {pending : List InitBlock} (h : Fits inits pending g t b)
    (hline : Line (Next inits)) {x : Phase ι} {n : ℕ} (hx : x.rank = n) {completed sent : Bool}
    (hcompleted : completed = true ↔ 1 ≤ n) (hsent : sent = true ↔ n = 7) :
    Fits inits pending (g.put t x) t { b with completed, sent } := by
  have hself : (g.put t x).rank t = n := by rw [Ledger.rank_put, if_pos rfl, hx]
  have hrank : ∀ u, Next inits t u → (g.put t x).rank u = g.rank u := by
    intro u hu
    rw [Ledger.rank_put, if_neg]
    rintro rfl
    exact hline.irrefl u hu
  exact ⟨h.tag, by rw [hself, hcompleted], by rw [hself, hsent], h.valid, h.init,
    fun u hu hle => h.told u hu (hrank u hu ▸ hle),
    fun hall => h.untold fun u hu => hrank u hu ▸ hall u hu⟩

/-- The dummy of the buffer before one that is left to its thread. -/
theorem Fits.dummyFor {pending : List InitBlock} (hprev : b.prevTag = s) (htag : b.tag = t)
    (hline : Line (Next inits)) (hnext : Next inits s t) (hwaits : IsTag pending s)
    (hzero : g.rank s = 0) (htwo : 2 ≤ g.rank t) :
    Fits inits pending g s (dummyFor b) where
  tag := by simp [HandOff.dummyFor, dummy, hprev]
  completed := by simp [HandOff.dummyFor, dummy, hzero]
  sent := by simp [HandOff.dummyFor, dummy, hzero]
  valid := by simp [HandOff.dummyFor, dummy, hwaits]
  init hvalid := by simp [HandOff.dummyFor, dummy] at hvalid
  told u hu _ := by
    rw [hline.right hu hnext]
    simp [HandOff.dummyFor, dummy, htag]
  untold hall := by
    have hle := hall t hnext
    omega

/-- A buffer is marked as complete or sent. -/
theorem Kept.mark (h : Kept inits g m) (hline : Line (Next inits)) (hq : g.home t = some q)
    (hb : m.reader.heap q = some b) (hvalid : b.valid = true) {x : Phase ι} {n : ℕ}
    (hx : x.rank = n) (hle : g.rank t ≤ n) (halike : Alike (g.rank t) n)
    (hdelivered : 5 ≤ g.rank t ↔ 5 ≤ n) (hlive : n ≠ 8) {completed sent : Bool}
    (hcompleted : completed = true ↔ 1 ≤ n) (hsent : sent = true ↔ n = 7) :
    Kept inits (g.put t x) ⟨m.reader.set q { b with completed, sent }, m.pending⟩ := by
  have hfits := (h.fits hq hb).2
  have hrank : ∀ a, (Function.update g.phase t x a).rank = if a = t then n else g.rank a := by
    intro a
    rw [rank_update_phase, hx]
  refine h.set hq h.pending (fun _ _ => Iff.rfl) (fun a hat => ?_) (fun a u hat hu => ?_)
    (fun a => ?_) (fun a => ?_) ?_ (hfits.put hline hx hcompleted hsent) (fun d hd => ?_)
    fun hw => absurd hw (hfits.valid.1 hvalid)
  · rw [hrank, if_neg hat]
    exact .refl _
  · rw [hrank]
    split_ifs with hut
    · exact hut ▸ halike
    · exact .refl _
  · rw [hrank]
    split_ifs with hat
    · exact hat ▸ hle
    · exact le_rfl
  · rw [hrank]
    split_ifs with hat
    · exact hat ▸ hdelivered
    · rfl
  · rwa [hrank, if_pos rfl]
  · obtain ⟨-, -, u, hu, hone⟩ := (h.filed (h.swap_tag hd)).swapped d hd
    refine ⟨u, hu, ?_⟩
    rw [hrank, if_neg, hone]
    rintro rfl
    exact hline.irrefl u hu

/-- The thread changes the phase of one buffer only, and looks up none. -/
theorem Stands.put (h : Stands inits g j p) (hkept : Kept inits g m) (hq : g.home t = some q)
    {x : Phase ι} (hhome : g.Keeps g') (hphase : g'.phase = Function.update g.phase t x)
    (hsame : g'.swap = g.swap) (hown : ∀ k, x = .held k j ↔ q ∈ p'.ptrs k)
    (hptrs : ∀ k, ∀ a, a ≠ q → (a ∈ p'.ptrs k ↔ a ∈ p.ptrs k)) (hlooks : p.looks = none)
    (hlooks' : p'.looks = none) (hnodup : p'.past.Nodup) (hp : p.swapped = none)
    (hswap : x = .held .early j → ∀ s, Next inits s t → g.swap s = none)
    (hplace : Place inits g' p') : Stands inits g' j p' := by
  refine h.change hkept hq hhome (fun a hat _ k => ?_) hptrs (fun k => ?_) hlooks ?_ hnodup
    (fun s a hs ha d hd => ?_) hplace
  · rw [hphase, Function.update_of_ne hat, hlooks']
    simp
  · rw [hphase, Function.update_self, hown]
  · rw [hlooks']
    exact (Option.some_ne_none t).symm
  · rw [hphase, Function.update_apply] at ha
    have hnone : g.swap s = none := by
      split_ifs at ha with hat
      · exact hswap ha s (hat ▸ hs)
      · exact h.swap_eq_none hp hs ha
    rw [hsame, hnone] at hd
    cases hd

/-- A tag is left with the buffer before: that is all that the others see. -/
theorem Ledger.put_linked (ht : g.rank t = 1) (a : Int32) :
    Steady (g.rank a) ((g.put t .linked).rank a) ∧ g.rank a ≤ (g.put t .linked).rank a ∧
      (5 ≤ g.rank a ↔ 5 ≤ (g.put t .linked).rank a) := by
  rw [Ledger.rank_put, Phase.rank]
  split_ifs with hat
  · rw [hat, ht]
    exact ⟨.inr ⟨by decide, by decide⟩, by decide, by decide⟩
  · exact ⟨.refl _, le_rfl, Iff.rfl⟩

/-- A buffer that no thread has read `next_tag` of, and that is not sent. -/
theorem Inv.rank_le_five (h : Inv inits g σ) (hs : g.home s = some q)
    (hb : σ.shared.reader.heap q = some b) (hpast : ∀ j, q ∉ (σ.pc j).past)
    (hsent : b.sent = false) : g.rank s ≤ 5 := by
  obtain ⟨hlive, hfits⟩ := h.kept.fits hs hb
  have hunsent : g.rank s ≠ 7 := by
    rw [Ne, ← hfits.sent, hsent]
    exact Bool.false_ne_true
  cases hφ : g.phase s with
  | waiting | linked => simp [Ledger.rank, hφ, Phase.rank]
  | sent => exact absurd (Ledger.rank_of_phase hφ rfl) hunsent
  | freed => exact absurd (Ledger.rank_of_phase hφ rfl) hlive
  | held k i =>
    cases k with
    | early | passing | calling | reading => simp [Ledger.rank, hφ, Phase.rank]
    | finishing =>
      rcases ((h.stands i).held s (h.kept.isTag hs) .finishing).1 hφ with ⟨q', hq', hs'⟩ | ⟨hk, -⟩
      · obtain rfl := Option.some.inj (hs.symm.trans hs')
        exact absurd hq' (hpast i)
      · cases hk

/-- The tag is left with the buffer before. -/
theorem Fits.tell {pending : List InitBlock} (h : Fits inits pending g s b)
    (hline : Line (Next inits)) (hnext : Next inits s t) :
    Fits inits pending (g.put t .linked) s { b with nextTag := t } := by
  have hself : (g.put t .linked).rank s = g.rank s := by
    rw [Ledger.rank_put, if_neg]
    rintro rfl
    exact hline.irrefl s hnext
  refine ⟨h.tag, by rw [hself, h.completed], by rw [hself, h.sent], h.valid, h.init,
    fun u hu _ => hline.right hnext hu, fun hall => ?_⟩
  have hle := hall t hnext
  rw [Ledger.rank_put, if_pos rfl] at hle
  exact absurd hle (by simp [Phase.rank])

section

variable [DecidableEq ι]

/-- The step leads to states that a ledger fits. -/
def Goes (inits : List InitBlock) (σ : Threads ι Shared Pc) (j : ι) (m : Shared) (p : Pc) : Prop :=
  ∃ g, Inv inits g ⟨m, Function.update σ.pc j p⟩

theorem Inv.lookupPrev (h : Inv inits g σ) (hchain : IsChain inits) {done : HTKeyValue}
    (hpc : σ.pc j = .lookupPrev done)
    (hstep : stepFinished σ.shared.reader (.lookupPrev done) = some (r', p')) :
    Goes inits σ j ⟨r', σ.shared.pending⟩ p' := by
  have hstands := hpc ▸ h.stands j
  obtain ⟨t, ht, hphase⟩ := h.exists_held (k := .early) hpc (List.mem_singleton_self done.value)
  have hrank : g.rank t = 1 := Ledger.rank_of_phase hphase rfl
  obtain ⟨b, hb, hstep⟩ := Option.bind_eq_some_iff.1 hstep
  split at hstep
  · rename_i hnone
    obtain ⟨rfl, rfl⟩ := Prod.mk.inj (Option.some.inj hstep)
    have hfirst : ∀ s, ¬Next inits s t := fun s hs =>
      (h.kept.prevTag_eq hchain ht hb (by omega) hs).2 hnone
    refine ⟨g.put t (.held .calling j), h.of_step hchain (.first hphase hfirst) (.refl g)
      (fun _ => .inl rfl) (h.kept.put (n := 4) rfl ?_ ?_ ?_) ?_⟩
    · exact .inr ⟨by omega, by omega⟩
    · rintro ⟨s, hs⟩
      exact absurd hs (hfirst s)
    · omega
    · refine hstands.put h.kept ht (g.keeps_put t _) rfl rfl (fun k => ?_) (fun k a ha => ?_) rfl
        rfl List.nodup_nil rfl (fun h => by cases h) ⟨t, ht, trivial⟩
      · cases k <;> simp [Pc.ptrs, Pc.past]
      · cases k <;> simp [Pc.ptrs, Pc.past, ha]
  · rename_i hne
    have hnext := h.kept.next_prevTag ht hb (by omega) hne
    have hswap := hstands.swap_eq_none rfl hnext hphase
    split at hstep
    · rename_i prev hprev
      obtain ⟨rfl, rfl⟩ := Prod.mk.inj (Option.some.inj hstep)
      rw [prevKey, h.kept.table_eq_home hchain hnext (by omega) hswap] at hprev
      refine ⟨g, h.of_stay hchain h.kept (hstands.go ?_ (fun _ _ => Iff.rfl) ?_ ?_)⟩
      · funext k
        cases k <;> rfl
      · simp [Pc.swapped]
      · exact ⟨_, t, hnext, ht, hprev, fun h => by cases h⟩
    · obtain ⟨rfl, rfl⟩ := Prod.mk.inj (Option.some.inj hstep)
      refine ⟨g, h.of_stay hchain h.kept (hstands.go ?_ (fun _ _ => Iff.rfl) ?_ ?_)⟩
      · funext k
        cases k <;> rfl
      · simp [Pc.swapped]
      · exact ⟨_, t, hnext, ht⟩

theorem Inv.complete (h : Inv inits g σ) (hchain : IsChain inits) {done : HTKeyValue}
    (hpc : σ.pc j = .reading) (hb : σ.shared.reader.heap done.value = some b)
    (hvalid : b.valid = true) (hcompleted : b.completed = false) :
    Goes inits σ j ⟨σ.shared.reader.set done.value { b with completed := true },
      σ.shared.pending⟩ (.lookupPrev done) := by
  have hstands := hpc ▸ h.stands j
  have hq := h.kept.valid_home hb hvalid
  obtain ⟨-, hfits⟩ := h.kept.fits hq hb
  have hzero : g.rank b.tag = 0 := by
    by_contra hne
    have hpos := hfits.completed.2 (by omega)
    rw [hcompleted] at hpos
    cases hpos
  have hwaiting : g.phase b.tag = .waiting := Phase.rank_eq_zero.1 hzero
  have hsent : b.sent = true ↔ 1 = 7 := by
    rw [hfits.sent, hzero]
    decide
  refine ⟨g.put b.tag (.held .early j), h.of_step hchain (.prepare hwaiting) (g.keeps_put _ _)
    (fun _ => .inl rfl) (h.kept.mark hchain.line hq hb hvalid (n := 1) rfl ?_ ?_ ?_ (by decide)
      (by decide) hsent) ?_⟩
  · omega
  · rw [hzero]
    exact ⟨by decide, by decide, by decide⟩
  · omega
  · refine hstands.put h.kept hq (g.keeps_put b.tag _) rfl rfl (fun k => ?_) (fun k a ha => ?_)
      rfl rfl List.nodup_nil rfl (fun _ s hs => ?_) trivial
    · cases k <;> simp [Pc.ptrs, Pc.past]
    · cases k <;> simp [Pc.ptrs, Pc.past, ha]
    · rw [Option.eq_none_iff_forall_not_mem]
      intro d hd
      obtain ⟨-, -, u, hu, hone⟩ := (h.kept.filed (h.kept.swap_tag hd)).swapped d hd
      rw [hchain.line.right hu hs] at hone
      omega

theorem Inv.insertDummy (h : Inv inits g σ) (hchain : IsChain inits) {done : HTKeyValue}
    (hpc : σ.pc j = .insertDummy done)
    (hstep : stepFinished σ.shared.reader (.insertDummy done) = some (r', p')) :
    Goes inits σ j ⟨r', σ.shared.pending⟩ p' := by
  have hstands := hpc ▸ h.stands j
  have hline := hchain.line
  obtain ⟨t, ht, hphase⟩ := h.exists_held (k := .early) hpc (List.mem_singleton_self done.value)
  have hrank : g.rank t = 1 := Ledger.rank_of_phase hphase rfl
  obtain ⟨s, t', hnext, ht'⟩ := hstands.place
  obtain rfl := h.kept.inj ht ht'
  have hs := hnext.isTag_left hchain
  obtain ⟨b, hb, hstep⟩ := Option.bind_eq_some_iff.1 hstep
  have hswap := hstands.swap_eq_none rfl hnext hphase
  rw [h.kept.dummyKey_eq hchain ht hb (by omega) hnext,
    h.kept.table_eq_home hchain hnext (by omega) hswap] at hstep
  split at hstep
  · rename_i hnone
    obtain ⟨rfl, rfl⟩ := Prod.mk.inj (Option.some.inj hstep)
    obtain ⟨hzero, -, -, hwaits, -⟩ := (h.kept.filed hs).fresh hnone
    have hst : s ≠ t := by
      rintro rfl
      exact hline.irrefl s hnext
    have hlinked : (g.put t .linked).rank t = 2 := by rw [Ledger.rank_put, if_pos rfl, Phase.rank]
    have hdummy : Fits inits σ.shared.pending (g.put t .linked) s (dummyFor b) := by
      refine .dummyFor (h.kept.prevTag_eq hchain ht hb (by omega) hnext).1 (h.kept.fits ht hb).2.tag
        hline hnext hwaits ?_ ?_
      · rw [Ledger.rank_put, if_neg hst, hzero]
      · exact hlinked.ge
    have hkept := h.kept.fileHome (b := dummyFor b) hs hnone h.kept.pending (fun _ _ => Iff.rfl)
      (fun a _ => (Ledger.put_linked hrank a).1) (fun a u has hau => ?_)
      (fun a => (Ledger.put_linked hrank a).2.2) ?_ hdummy (fun _ => ⟨t, hnext, hlinked.ge⟩)
    · refine ⟨(g.make s σ.shared.reader.next).put t .linked,
        h.of_step hchain (.tell hphase hnext ?_) (h.kept.keeps_make hnone) (fun _ => .inl rfl)
        hkept ?_⟩
      · change g.rank s ≤ 5
        omega
      · refine hstands.put h.kept ht (h.kept.keeps_make hnone) rfl rfl (fun k => ?_)
          (fun k a ha => ?_) rfl rfl List.nodup_nil rfl (fun h => by cases h)
          ⟨s, t, hnext, (h.kept.keeps_make hnone).home ht, Function.update_self .., fun _ => ?_⟩
        · cases k <;> simp [Pc.ptrs, Pc.past]
        · cases k <;> simp [Pc.ptrs, Pc.past, ha]
        · rw [Ledger.rank_put, Ledger.rank_put, if_pos rfl, if_neg hst]
          refine ⟨le_rfl, ?_⟩
          change g.rank s ≠ 8
          omega
    · change Alike (g.rank u) ((g.put t .linked).rank u)
      rw [Ledger.rank_put, if_neg]
      · exact .refl _
      · rintro rfl
        exact has (hline.left hau hnext)
    · change (g.put t .linked).rank s = 0
      rw [Ledger.rank_put, if_neg hst, hzero]
  · rename_i prev hprev
    obtain ⟨rfl, rfl⟩ := Prod.mk.inj (Option.some.inj hstep)
    have hkept := h.kept.swapIn (b := dummyFor b) hs (by simp [hprev]) hnext hrank rfl rfl
    refine ⟨g.swapAt s (some σ.shared.reader.next), h.of_step hchain .stay (g.keeps_swapAt _ _)
      (fun a => ?_) hkept ?_⟩
    · by_cases has : a = s
      · exact .inr ⟨t, has ▸ hnext, hphase⟩
      · exact .inl (Function.update_of_ne has _ _)
    · refine hstands.change h.kept ht (g.keeps_swapAt _ _) (fun a _ _ k => ?_) (fun k a ha => ?_)
        (fun k => ?_) rfl ?_ List.nodup_nil (fun c a hca ha d hd => ?_)
        ⟨s, t, hnext, ht, hprev, Function.update_self ..⟩
      · simp [Pc.looks, Ledger.swapAt]
      · cases k <;> simp [Pc.ptrs, Pc.past]
      · change g.phase t = _ ↔ _
        rw [hphase]
        cases k <;> simp [Pc.ptrs, Pc.past]
      · simp [Pc.looks]
      · rw [Ledger.swap_swapAt] at hd
        split_ifs at hd with hcs
        · exact hd
        · exact absurd (hstands.swapped c a hca ha d hd) (by simp [Pc.swapped])

theorem Inv.putBack (h : Inv inits g σ) (hchain : IsChain inits) {done : HTKeyValue}
    {prev dummy : Ptr} (hpc : σ.pc j = .putBack done prev dummy)
    (hstep : stepFinished σ.shared.reader (.putBack done prev dummy) = some (r', p')) :
    Goes inits σ j ⟨r', σ.shared.pending⟩ p' := by
  have hstands := hpc ▸ h.stands j
  obtain ⟨t, ht, hphase⟩ := h.exists_held (k := .early) hpc (List.mem_singleton_self done.value)
  have hrank : g.rank t = 1 := Ledger.rank_of_phase hphase rfl
  obtain ⟨s, t', hnext, ht', hs, hd⟩ := hstands.place
  obtain rfl := h.kept.inj ht ht'
  obtain ⟨b, hb, hstep⟩ := Option.bind_eq_some_iff.1 hstep
  obtain ⟨rfl, rfl⟩ := Prod.mk.inj (Option.some.inj hstep)
  rw [h.kept.dummyKey_eq hchain ht hb (by omega) hnext]
  refine ⟨g.swapAt s none, h.of_step hchain .stay (g.keeps_swapAt _ _) (fun a => ?_)
    (h.kept.swapOut hs hd) ?_⟩
  · by_cases has : a = s
    · exact .inr ⟨t, has ▸ hnext, hphase⟩
    · exact .inl (Function.update_of_ne has _ _)
  · refine hstands.change h.kept ht (g.keeps_swapAt _ _) (fun a _ _ k => ?_) (fun k a ha => ?_)
      (fun k => ?_) rfl ?_ List.nodup_nil (fun c a hca ha c' hc' => ?_)
      ⟨s, t, hnext, ht, hs, fun h => by cases h⟩
    · simp [Pc.looks, Ledger.swapAt]
    · cases k <;> simp [Pc.ptrs, Pc.past]
    · change g.phase t = _ ↔ _
      rw [hphase]
      cases k <;> simp [Pc.ptrs, Pc.past]
    · simp [Pc.looks]
    · rw [Ledger.swap_swapAt] at hc'
      split_ifs at hc' with hcs
      obtain rfl := Option.some.inj (hstands.swapped c a hca ha c' hc')
      exact absurd (h.kept.swap_inj hc' hd) hcs

theorem Inv.testSent (h : Inv inits g σ) (hchain : IsChain inits) {done : HTKeyValue}
    {prev : Ptr} {made : Bool} (hpc : σ.pc j = .testSent done prev made)
    (hunsent : made = true → ∀ q ∈ σ.shared.reader.heap prev, q.sent = false)
    (hstep : stepFinished σ.shared.reader (.testSent done prev made) = some (r', p')) :
    Goes inits σ j ⟨r', σ.shared.pending⟩ p' := by
  have hstands := hpc ▸ h.stands j
  obtain ⟨s, t, hnext, ht, hs, hmade⟩ := hstands.place
  obtain ⟨b, hb, hstep⟩ := Option.bind_eq_some_iff.1 hstep
  obtain ⟨rfl, rfl⟩ := Prod.mk.inj (Option.some.inj hstep)
  obtain ⟨-, hfits⟩ := h.kept.fits hs hb
  refine ⟨g, h.of_stay hchain h.kept ?_⟩
  cases made with
  | false =>
    by_cases hsent : b.sent = true
    · rw [if_pos hsent]
      refine hstands.go ?_ (fun _ _ => Iff.rfl) ?_ ⟨s, t, hnext, ht, hs, hfits.sent.1 hsent⟩
      · funext k
        cases k <;> rfl
      · simp [Pc.swapped]
    · rw [if_neg hsent]
      refine hstands.go ?_ (fun _ _ => Iff.rfl) ?_ ⟨s, t, hnext, ht, hs, hmade⟩
      · funext k
        cases k <;> rfl
      · simp [Pc.swapped]
  | true =>
    rw [hunsent rfl b hb, if_neg Bool.false_ne_true]
    refine hstands.go ?_ (fun _ _ => Iff.rfl) ?_ ⟨s, t, hnext, ht, hs, hmade⟩
    · funext k
      cases k <;> rfl
    · simp [Pc.swapped]

theorem Inv.dispose (h : Inv inits g σ) (hchain : IsChain inits) {done : HTKeyValue} {prev : Ptr}
    (hpc : σ.pc j = .dispose done prev)
    (hstep : stepFinished σ.shared.reader (.dispose done prev) = some (r', p')) :
    Goes inits σ j ⟨r', σ.shared.pending⟩ p' := by
  have hstands := hpc ▸ h.stands j
  obtain ⟨t, ht, hphase⟩ := h.exists_held (k := .early) hpc (List.mem_singleton_self done.value)
  have hrank : g.rank t = 1 := Ledger.rank_of_phase hphase rfl
  obtain ⟨s, t', hnext, ht', hs, hsent⟩ := hstands.place
  obtain rfl := h.kept.inj ht ht'
  have hswap := hstands.swap_eq_none rfl hnext hphase
  obtain ⟨b, hb, hstep⟩ := Option.bind_eq_some_iff.1 hstep
  obtain ⟨-, -, hstep⟩ := Option.bind_eq_some_iff.1 hstep
  obtain ⟨rfl, rfl⟩ := Prod.mk.inj (Option.some.inj hstep)
  have hkey : prevKey b = intKey s :=
    congrArg intKey (h.kept.prevTag_eq hchain ht hb (by omega) hnext).1
  rw [hkey]
  refine ⟨(g.put s .freed).put t (.held .calling j),
    h.of_step hchain (.take hphase hnext (Phase.rank_eq_seven.1 hsent)) (.refl g)
      (fun _ => .inl rfl) (h.kept.dispose hchain.line hs hnext hsent hrank hswap j) ?_⟩
  refine hstands.change h.kept ht (.refl g) (fun a hat _ k => ?_) (fun k a ha => ?_) (fun k => ?_)
    rfl (by simp [Pc.looks]) List.nodup_nil (fun c a hca ha d hd => ?_) ⟨t, ht, trivial⟩
  · rw [Ledger.phase_put, if_neg hat, Ledger.phase_put]
    split_ifs with has
    · simp [has, Phase.rank_eq_seven.1 hsent, Pc.looks]
    · simp [Pc.looks]
  · cases k <;> simp [Pc.ptrs, Pc.past, ha]
  · rw [Ledger.phase_put, if_pos rfl]
    cases k <;> simp [Pc.ptrs, Pc.past]
  · rw [Ledger.phase_put, Ledger.phase_put] at ha
    split_ifs at ha
    · cases ha
    · exact hstands.swapped c a hca ha d hd

theorem Inv.writeNext (h : Inv inits g σ) (hchain : IsChain inits) {done : HTKeyValue}
    {prev : Ptr} {made : Bool} (hpc : σ.pc j = .writeNext done prev made)
    (hintime : made = false → (∀ j, prev ∉ (σ.pc j).past) ∧
      ∀ q ∈ σ.shared.reader.heap prev, q.sent = false)
    (hstep : stepFinished σ.shared.reader (.writeNext done prev made) = some (r', p')) :
    Goes inits σ j ⟨r', σ.shared.pending⟩ p' := by
  have hstands := hpc ▸ h.stands j
  have hline := hchain.line
  obtain ⟨s, t, hnext, ht, hs, hmade⟩ := hstands.place
  obtain ⟨b, hb, hstep⟩ := Option.bind_eq_some_iff.1 hstep
  obtain ⟨c, hc, hstep⟩ := Option.bind_eq_some_iff.1 hstep
  obtain ⟨rfl, rfl⟩ := Prod.mk.inj (Option.some.inj hstep)
  obtain ⟨-, hfits⟩ := h.kept.fits hs hc
  rw [(h.kept.fits ht hb).2.tag]
  cases made with
  | false =>
    obtain ⟨hpast, hunsent⟩ := hintime rfl
    have hle := h.rank_le_five hs hc hpast (hunsent c hc)
    have hphase := hstands.phase_eq (h.kept.isTag ht) (k := .early)
      (List.mem_singleton_self done.value) ht
    have hrank : g.rank t = 1 := Ledger.rank_of_phase hphase rfl
    have hswap := hstands.swap_eq_none rfl hnext hphase
    have hst : s ≠ t := by
      rintro rfl
      exact hline.irrefl s hnext
    have hself : (g.put t .linked).rank s = g.rank s := by rw [Ledger.rank_put, if_neg hst]
    refine ⟨g.put t .linked, h.of_step hchain (.tell hphase hnext hle) (g.keeps_put t _)
      (fun _ => .inl rfl) (h.kept.set hs h.kept.pending (fun _ _ => Iff.rfl)
        (fun a _ => (Ledger.put_linked hrank a).1) (fun a u has hau => ?_)
        (fun a => (Ledger.put_linked hrank a).2.1) (fun a => (Ledger.put_linked hrank a).2.2) ?_
        (hfits.tell hline hnext) (fun d hd => ?_) fun hw => ?_) ?_⟩
    · change Alike (g.rank u) ((g.put t .linked).rank u)
      rw [Ledger.rank_put, if_neg]
      · exact .refl _
      · rintro rfl
        exact has (hline.left hau hnext)
    · change (g.put t .linked).rank s ≠ 8
      omega
    · rw [hswap] at hd
      cases hd
    · refine ⟨hself.trans ((h.kept.filed (h.kept.isTag hs)).waits hw).1, t, hnext, ?_⟩
      change 2 ≤ (g.put t .linked).rank t
      rw [Ledger.rank_put, if_pos rfl, Phase.rank]
    · refine hstands.put h.kept ht (g.keeps_put t _) rfl rfl (fun k => ?_) (fun k a ha => ?_) rfl
        rfl List.nodup_nil rfl (fun h => by cases h) trivial
      · cases k <;> simp [Pc.ptrs, Pc.past]
      · cases k <;> simp [Pc.ptrs, Pc.past, ha]
  | true =>
    have htold : c.nextTag = t := hfits.told t hnext (hmade rfl).1
    have hsame : { c with nextTag := t } = c := by rw [← htold]
    have hset : σ.shared.reader.set prev c = σ.shared.reader := by
      rw [Reader.set, ← hc, Function.update_eq_self]
    rw [hsame, hset]
    refine ⟨g, h.of_stay hchain h.kept (hstands.go ?_ (fun _ _ => Iff.rfl) ?_ trivial)⟩
    · funext k
      cases k <;> rfl
    · simp [Pc.swapped]

end

end Cse461.Multiplex.HandOff
