import Cse461.Multiplex.Token

/-!
# The ledger and the heap

Each lemma `Kept.*` is about one operation on the table or the heap, and the change to
the ledger that goes with it. Most tags are not concerned: what the ledger says of them
stays true (`Filed.of_unchanged`), as long as their buffers stay complete or not, and
what they see of the next buffer stays the same.
-/

namespace Cse461.Multiplex.HandOff

open Library Reader Relay

variable {ι : Type} {inits pending : List InitBlock} {g g' : Ledger ι} {j : ι} {p : Pc}
  {s t u : Int32} {m m' : Shared} {b b' : BufferInfo} {q : Ptr} {φ : Int32 → Phase ι}

/-! ## The ledger and the heap -/

/-- A buffer that is complete stays so, and is not sent. -/
def Steady (m n : ℕ) : Prop := m = n ∨ (1 ≤ m ∧ m ≤ 6) ∧ 1 ≤ n ∧ n ≤ 6

/-- What the buffer before sees of a buffer stays. -/
def Alike (m n : ℕ) : Prop := (m ≤ 1 ↔ n ≤ 1) ∧ (m = 1 → n = 1) ∧ (n ≤ 3 → m ≤ 3)

theorem Steady.refl (m : ℕ) : Steady m m := .inl rfl

theorem Alike.refl (m : ℕ) : Alike m m := ⟨Iff.rfl, id, id⟩

/-- Nothing happens to the tag. -/
structure Unchanged (inits : List InitBlock) (g g' : Ledger ι) (m m' : Shared) (t : Int32) :
    Prop where
  home : g'.home t = g.home t
  swap : g'.swap t = g.swap t
  steady : Steady (g.rank t) (g'.rank t)
  next : ∀ u, Next inits t u → Alike (g.rank u) (g'.rank u)
  heap : ∀ q, g.home t = some q ∨ g.swap t = some q → m'.reader.heap q = m.reader.heap q
  table : m'.reader.table (intKey t) = m.reader.table (intKey t)
  pending : IsTag m'.pending t ↔ IsTag m.pending t

theorem Fits.of_steady {pending' : List InitBlock} (h : Fits inits pending g t b)
    (hsteady : Steady (g.rank t) (g'.rank t))
    (hnext : ∀ u, Next inits t u → Alike (g.rank u) (g'.rank u))
    (hpending : IsTag pending' t ↔ IsTag pending t) : Fits inits pending' g' t b where
  tag := h.tag
  completed := by
    rw [h.completed]
    unfold Steady at hsteady
    omega
  sent := by
    rw [h.sent]
    unfold Steady at hsteady
    omega
  valid := by rw [h.valid, hpending]
  init := h.init
  told u hu hrank := by
    have halike := (hnext u hu).1
    exact h.told u hu (by omega)
  untold hall := h.untold fun u hu => (hnext u hu).1.2 (hall u hu)

theorem Filed.of_unchanged (h : Filed inits g m t) (hu : Unchanged inits g g' m m' t) :
    Filed inits g' m' t := by
  have hsteady := hu.steady
  unfold Steady at hsteady
  refine ⟨fun hnone => ?_, fun q hq hlive => ?_, fun q hq hfreed => ?_, fun q hq hnone hall => ?_,
    fun d hd => ?_, fun hw => ?_⟩
  · rw [hu.home] at hnone
    obtain ⟨hzero, hswap, htable, hwaits, hall⟩ := h.fresh hnone
    refine ⟨by omega, hu.swap.trans hswap, hu.table.trans htable, hu.pending.2 hwaits,
      fun u hn => (hu.next u hn).1.1 (hall u hn)⟩
  · rw [hu.home] at hq
    obtain ⟨b, hb, hfits⟩ := h.live q hq (by omega)
    exact ⟨b, (hu.heap q (.inl hq)).trans hb, hfits.of_steady hu.steady hu.next hu.pending⟩
  · rw [hu.home] at hq
    exact (hu.heap q (.inl hq)).trans (h.freed q hq (by omega))
  · rw [hu.home] at hq
    rw [hu.swap] at hnone
    rw [hu.table]
    exact h.filed q hq hnone fun u hn => (hu.next u hn).2.2 (hall u hn)
  · rw [hu.swap] at hd
    obtain ⟨htable, ⟨b, hb, hvalid⟩, u, hn, hone⟩ := h.swapped d hd
    exact ⟨hu.table.trans htable, ⟨b, (hu.heap d (.inr hd)).trans hb, hvalid⟩, u, hn,
      (hu.next u hn).2.1 hone⟩
  · obtain ⟨hzero, hdummy⟩ := h.waits (hu.pending.1 hw)
    refine ⟨by omega, fun q hq => ?_⟩
    rw [hu.home] at hq
    obtain ⟨u, hn, htwo⟩ := hdummy q hq
    have halike := (hu.next u hn).1
    exact ⟨u, hn, by omega⟩

/-- The phases go on, and nothing else happens. -/
theorem Kept.move (h : Kept inits g m) (hsteady : ∀ t, Steady (g.rank t) (φ t).rank)
    (halike : ∀ t u, Next inits t u → Alike (g.rank u) (φ u).rank)
    (hdelivered : ∀ t, 5 ≤ g.rank t ↔ 5 ≤ (φ t).rank) : Kept inits { g with phase := φ } m where
  below := h.below
  home_below := h.home_below
  inj := h.inj
  isTag := h.isTag
  swap_tag := h.swap_tag
  swap_home := h.swap_home
  swap_inj := h.swap_inj
  valid_home := h.valid_home
  valid := h.valid
  keys := h.keys
  pending := h.pending
  filed {t} ht := (h.filed ht).of_unchanged
    ⟨rfl, rfl, hsteady t, halike t, fun _ _ => rfl, rfl, Iff.rfl⟩
  delivered {t} ht := by
    rw [h.delivered ht]
    exact if_congr (hdelivered t) rfl rfl

/-- The buffer of the tag `t` is written. -/
theorem Kept.set (h : Kept inits g m) (hq : g.home t = some q)
    (hpending : pending.Sublist inits)
    (hothers : ∀ a, a ≠ t → (IsTag pending a ↔ IsTag m.pending a))
    (hsteady : ∀ a, a ≠ t → Steady (g.rank a) (φ a).rank)
    (halike : ∀ a u, a ≠ t → Next inits a u → Alike (g.rank u) (φ u).rank)
    (hle : ∀ a, g.rank a ≤ (φ a).rank)
    (hdelivered : ∀ a, 5 ≤ g.rank a ↔ 5 ≤ (φ a).rank) (hlive : (φ t).rank ≠ 8)
    (hfits : Fits inits pending { g with phase := φ } t b)
    (hswap : ∀ d, g.swap t = some d → ∃ u, Next inits t u ∧ (φ u).rank = 1)
    (hwaits : IsTag pending t → (φ t).rank = 0 ∧ ∃ u, Next inits t u ∧ 2 ≤ (φ u).rank) :
    Kept inits { g with phase := φ } ⟨m.reader.set q b, pending⟩ where
  below {p c} hp := by
    by_cases hpq : p = q
    · exact hpq.symm ▸ h.home_below hq
    · exact h.below (by simpa [hpq] using hp)
  home_below := h.home_below
  inj := h.inj
  isTag := h.isTag
  swap_tag := h.swap_tag
  swap_home := h.swap_home
  swap_inj := h.swap_inj
  valid_home {p c} hp hvalid := by
    by_cases hpq : p = q
    · subst hpq
      obtain rfl : b = c := by simpa using hp
      exact hfits.tag ▸ hq
    · exact h.valid_home (by simpa [hpq] using hp) hvalid
  valid {p c} hp hcompleted := by
    by_cases hpq : p = q
    · subst hpq
      obtain rfl : b = c := by simpa using hp
      refine hfits.valid.2 fun hw => ?_
      have hpos := hfits.completed.1 hcompleted
      rw [Ledger.rank, (hwaits hw).1] at hpos
      exact absurd hpos (by decide)
    · exact h.valid (by simpa [hpq] using hp) hcompleted
  keys := h.keys
  pending := hpending
  filed {a} ha := by
    by_cases hat : a = t
    · subst hat
      have hold := h.filed ha
      refine ⟨fun hnone => ?_, fun q' hq' _ => ?_, fun q' _ hfreed => absurd hfreed hlive,
        fun q' hq' hnone hall => ?_, fun d hd => ?_, fun hw => ?_⟩
      · rw [show g.home a = none from hnone] at hq
        cases hq
      · obtain rfl := Option.some.inj (hq.symm.trans hq')
        exact ⟨b, heap_set_self .., hfits⟩
      · exact hold.filed q' hq' hnone fun u hn => (hle u).trans (hall u hn)
      · obtain ⟨htable, ⟨c, hc, hvalid⟩, -⟩ := hold.swapped d hd
        have hne : d ≠ q := fun hdq => h.swap_home hd (hdq ▸ hq)
        exact ⟨htable, ⟨c, by simpa [hne] using hc, hvalid⟩, hswap d hd⟩
      · obtain ⟨hzero, hdummy⟩ := hwaits hw
        exact ⟨hzero, fun _ _ => hdummy⟩
    · refine (h.filed ha).of_unchanged ⟨rfl, rfl, hsteady a hat, fun u => halike a u hat, ?_, rfl,
        hothers a hat⟩
      rintro q' (hq' | hq')
      · have hne : q' ≠ q := fun hqq => hat (h.inj hq' (hqq ▸ hq))
        simp [hne]
      · have hne : q' ≠ q := fun hqq => h.swap_home hq' (hqq ▸ hq)
        simp [hne]
  delivered {a} ha := by
    rw [show deliveries (m.reader.set q b) a = deliveries m.reader a from rfl, h.delivered ha]
    exact if_congr (hdelivered a) rfl rfl

theorem Kept.swap_below (h : Kept inits g m) {d : Ptr} (hd : g.swap t = some d) :
    d < m.reader.next := by
  obtain ⟨-, ⟨b, hb, -⟩, -⟩ := (h.filed (h.swap_tag hd)).swapped d hd
  exact h.below hb

theorem table_update_of_ne {r : Reader} {v : Option Ptr} (hst : s ≠ t) :
    Function.update r.table (intKey t) v (intKey s) = r.table (intKey s) :=
  Function.update_of_ne (fun h => hst (intKey_injective h)) _ _

theorem Kept.below_fileNew (h : Kept inits g m) {key : UInt64} {p : Ptr} {c : BufferInfo}
    (hp : (m.reader.fileNew key b).heap p = some c) : p < m.reader.next + 1 := by
  by_cases hpn : p = m.reader.next
  · exact hpn ▸ Nat.lt_succ_self p
  · exact Nat.lt_succ_of_lt (h.below (by simpa [hpn] using hp))

theorem Kept.heap_fileNew (h : Kept inits g m) {key : UInt64} {a : Int32} {q : Ptr}
    (hq : g.home a = some q ∨ g.swap a = some q) :
    (m.reader.fileNew key b).heap q = m.reader.heap q := by
  have hne : q ≠ m.reader.next := (hq.elim h.home_below h.swap_below).ne
  simp [hne]

/-- A buffer is made for the tag `t`. -/
theorem Kept.fileHome (h : Kept inits g m) (ht : IsTag inits t) (hnone : g.home t = none)
    (hpending : pending.Sublist inits)
    (hothers : ∀ a, a ≠ t → (IsTag pending a ↔ IsTag m.pending a))
    (hsteady : ∀ a, a ≠ t → Steady (g.rank a) (φ a).rank)
    (halike : ∀ a u, a ≠ t → Next inits a u → Alike (g.rank u) (φ u).rank)
    (hdelivered : ∀ a, 5 ≤ g.rank a ↔ 5 ≤ (φ a).rank) (hzero : (φ t).rank = 0)
    (hfits : Fits inits pending { g with phase := φ } t b)
    (hwaits : IsTag pending t → ∃ u, Next inits t u ∧ 2 ≤ (φ u).rank) :
    Kept inits ⟨Function.update g.home t (some m.reader.next), g.swap, φ⟩
      ⟨m.reader.fileNew (intKey t) b, pending⟩ where
  below hp := h.below_fileNew hp
  home_below {a q} hq := by
    by_cases hat : a = t
    · obtain rfl : m.reader.next = q := by simpa [hat] using hq
      exact Nat.lt_succ_self _
    · exact Nat.lt_succ_of_lt (h.home_below (by simpa [hat] using hq))
  inj {a c q} ha hc := by
    by_cases hat : a = t <;> by_cases hct : c = t
    · rw [hat, hct]
    · obtain rfl : m.reader.next = q := by simpa [hat] using ha
      exact absurd (h.home_below (by simpa [hct] using hc)) (lt_irrefl _)
    · obtain rfl : m.reader.next = q := by simpa [hct] using hc
      exact absurd (h.home_below (by simpa [hat] using ha)) (lt_irrefl _)
    · exact h.inj (by simpa [hat] using ha) (by simpa [hct] using hc)
  isTag {a q} hq := by
    by_cases hat : a = t
    · exact hat ▸ ht
    · exact h.isTag (by simpa [hat] using hq)
  swap_tag := h.swap_tag
  swap_home {a c d} hd hc := by
    by_cases hct : c = t
    · obtain rfl : m.reader.next = d := by simpa [hct] using hc
      exact lt_irrefl _ (h.swap_below hd)
    · exact h.swap_home hd (by simpa [hct] using hc)
  swap_inj := h.swap_inj
  valid_home {p c} hp hvalid := by
    by_cases hpn : p = m.reader.next
    · obtain rfl : b = c := by simpa [hpn] using hp
      rw [hfits.tag, hpn]
      exact Function.update_self ..
    · have hhome := h.valid_home (by simpa [hpn] using hp) hvalid
      have hct : c.tag ≠ t := by
        rintro hct
        rw [hct, hnone] at hhome
        cases hhome
      simpa [hct] using hhome
  valid {p c} hp hcompleted := by
    by_cases hpn : p = m.reader.next
    · obtain rfl : b = c := by simpa [hpn] using hp
      have hpos := hfits.completed.1 hcompleted
      rw [Ledger.rank, hzero] at hpos
      exact absurd hpos (by decide)
    · exact h.valid (by simpa [hpn] using hp) hcompleted
  keys {key p} hp := by
    by_cases hkey : key = intKey t
    · exact ⟨t, ht, hkey⟩
    · exact h.keys (by simpa [hkey] using hp)
  pending := hpending
  filed {a} ha := by
    by_cases hat : a = t
    · subst hat
      refine ⟨fun h => ?_, fun q hq _ => ?_, fun q _ hfreed => ?_, fun q hq _ _ => ?_,
        fun d hd => ?_, fun hw => ?_⟩
      · simp at h
      · obtain rfl : m.reader.next = q := by simpa using hq
        exact ⟨b, by simp, hfits.tag, hfits.completed, hfits.sent, hfits.valid, hfits.init,
          hfits.told, hfits.untold⟩
      · exact absurd (hzero.symm.trans hfreed) (by decide)
      · rw [← hq]
        simp
      · have hswap := ((h.filed ha).fresh hnone).2.1
        rw [show g.swap a = some d from hd] at hswap
        cases hswap
      · exact ⟨hzero, fun _ _ => hwaits hw⟩
    · refine (h.filed ha).of_unchanged ⟨Function.update_of_ne hat _ _, rfl, hsteady a hat,
        fun u => halike a u hat, fun q hq => h.heap_fileNew hq, table_update_of_ne hat,
        hothers a hat⟩
  delivered {a} ha := by
    rw [show deliveries (m.reader.fileNew (intKey t) b) a = deliveries m.reader a from rfl,
      h.delivered ha]
    exact if_congr (hdelivered a) rfl rfl

/-- A dummy is put in the place of the buffer of the tag `s`. -/
theorem Kept.swapIn (h : Kept inits g m) (hs : IsTag inits s) (hhome : g.home s ≠ none)
    (hnext : Next inits s t) (ht : g.rank t = 1) (hb : b.valid = false)
    (hcompleted : b.completed = false) :
    Kept inits { g with swap := Function.update g.swap s (some m.reader.next) }
      ⟨m.reader.fileNew (intKey s) b, m.pending⟩ where
  below hp := h.below_fileNew hp
  home_below hq := Nat.lt_succ_of_lt (h.home_below hq)
  inj := h.inj
  isTag := h.isTag
  swap_tag {a d} hd := by
    by_cases has : a = s
    · exact has ▸ hs
    · exact h.swap_tag (by simpa [has] using hd)
  swap_home {a c d} hd hc := by
    by_cases has : a = s
    · obtain rfl : m.reader.next = d := by simpa [has] using hd
      exact lt_irrefl _ (h.home_below hc)
    · exact h.swap_home (by simpa [has] using hd) hc
  swap_inj {a c d} ha hc := by
    by_cases has : a = s <;> by_cases hcs : c = s
    · rw [has, hcs]
    · obtain rfl : m.reader.next = d := by simpa [has] using ha
      exact absurd (h.swap_below (by simpa [hcs] using hc)) (lt_irrefl _)
    · obtain rfl : m.reader.next = d := by simpa [hcs] using hc
      exact absurd (h.swap_below (by simpa [has] using ha)) (lt_irrefl _)
    · exact h.swap_inj (by simpa [has] using ha) (by simpa [hcs] using hc)
  valid_home {p c} hp hvalid := by
    by_cases hpn : p = m.reader.next
    · obtain rfl : b = c := by simpa [hpn] using hp
      rw [hb] at hvalid
      cases hvalid
    · exact h.valid_home (by simpa [hpn] using hp) hvalid
  valid {p c} hp hc := by
    by_cases hpn : p = m.reader.next
    · obtain rfl : b = c := by simpa [hpn] using hp
      rw [hcompleted] at hc
      cases hc
    · exact h.valid (by simpa [hpn] using hp) hc
  keys {key p} hp := by
    by_cases hkey : key = intKey s
    · exact ⟨s, hs, hkey⟩
    · exact h.keys (by simpa [hkey] using hp)
  pending := h.pending
  filed {a} ha := by
    by_cases has : a = s
    · subst has
      have hold := h.filed ha
      refine ⟨fun hnone => absurd hnone hhome, fun q hq hlive => ?_, fun q hq hfreed => ?_,
        fun q _ hnone => ?_, fun d hd => ?_, hold.waits⟩
      · obtain ⟨c, hc, hfits⟩ := hold.live q hq hlive
        exact ⟨c, (h.heap_fileNew (.inl hq)).trans hc,
          hfits.of_steady (.refl _) (fun _ _ => .refl _) Iff.rfl⟩
      · exact (h.heap_fileNew (.inl hq)).trans (hold.freed q hq hfreed)
      · simp at hnone
      · obtain rfl : m.reader.next = d := by simpa using hd
        exact ⟨by simp, ⟨b, by simp, hb⟩, t, hnext, ht⟩
    · exact (h.filed ha).of_unchanged ⟨rfl, Function.update_of_ne has _ _, .refl _,
        fun _ _ => .refl _, fun q hq => h.heap_fileNew hq, table_update_of_ne has, Iff.rfl⟩
  delivered := h.delivered

/-- The buffer of the tag `s` is put back. -/
theorem Kept.swapOut (h : Kept inits g m) (hq : g.home s = some q) {d : Ptr}
    (hd : g.swap s = some d) :
    Kept inits { g with swap := Function.update g.swap s none }
      ⟨(m.reader.insert (intKey s) q).free d, m.pending⟩ := by
  have hother : ∀ {a c}, Function.update g.swap s none a = some c → a ≠ s ∧ g.swap a = some c := by
    intro a c hc
    by_cases has : a = s
    · simp [has] at hc
    · exact ⟨has, by simpa [has] using hc⟩
  have hheap : ∀ {p : Ptr}, p ≠ d →
      ((m.reader.insert (intKey s) q).free d).heap p = m.reader.heap p :=
    fun hp => Function.update_of_ne hp _ _
  have hfree : ∀ {p c}, ((m.reader.insert (intKey s) q).free d).heap p = some c →
      m.reader.heap p = some c := by
    intro p c hp
    by_cases hpd : p = d
    · simp [Reader.free, hpd] at hp
    · exact hheap hpd ▸ hp
  exact {
    below := fun hp => h.below (hfree hp)
    home_below := h.home_below
    inj := h.inj
    isTag := h.isTag
    swap_tag := fun hc => h.swap_tag (hother hc).2
    swap_home := fun hc => h.swap_home (hother hc).2
    swap_inj := fun ha hc => h.swap_inj (hother ha).2 (hother hc).2
    valid_home := fun hp => h.valid_home (hfree hp)
    valid := fun hp => h.valid (hfree hp)
    keys := fun {key p} hp => by
      by_cases hkey : key = intKey s
      · exact ⟨s, h.isTag hq, hkey⟩
      · have hold : m.reader.table key = some p := by
          simpa [Reader.free, Reader.insert, hkey] using hp
        exact h.keys hold
    pending := h.pending
    filed := fun {a} ha => by
      by_cases has : a = s
      · subst has
        have hold := h.filed ha
        have hne : q ≠ d := fun hqd => h.swap_home hd (hqd ▸ hq)
        refine ⟨fun hnone => ?_, fun p hp hlive => ?_, fun p hp hfreed => ?_,
          fun p hp _ _ => ?_, fun c hc => absurd rfl (hother hc).1, hold.waits⟩
        · rw [show g.home a = none from hnone] at hq
          cases hq
        · obtain rfl := Option.some.inj (hq.symm.trans hp)
          obtain ⟨c, hc, hfits⟩ := hold.live q hq hlive
          exact ⟨c, (hheap hne).trans hc,
            hfits.of_steady (.refl _) (fun _ _ => .refl _) Iff.rfl⟩
        · obtain rfl := Option.some.inj (hq.symm.trans hp)
          exact (hheap hne).trans (hold.freed q hq hfreed)
        · obtain rfl := Option.some.inj (hq.symm.trans hp)
          exact Function.update_self ..
      · refine (h.filed ha).of_unchanged ⟨rfl, Function.update_of_ne has _ _, .refl _,
          fun _ _ => .refl _, fun p hp => hheap ?_, table_update_of_ne has, Iff.rfl⟩
        rintro rfl
        rcases hp with hp | hp
        · exact h.swap_home hd hp
        · exact has (h.swap_inj hp hd)
    delivered := h.delivered }

theorem rank_update_phase (g : Ledger ι) (t u : Int32) (k : Phase ι) :
    (Function.update g.phase t k u).rank = if u = t then k.rank else g.rank u :=
  rank_update _ _ _ _

/-- The buffer of the tag `s` is freed by the thread of the one after. -/
theorem Kept.dispose (h : Kept inits g m) (hline : Line (Next inits)) (hq : g.home s = some q)
    (hnext : Next inits s t) (hs : g.rank s = 7) (ht : g.rank t = 1) (hswap : g.swap s = none)
    (k : ι) : Kept inits
      ⟨g.home, g.swap, Function.update (Function.update g.phase s .freed) t (.held .calling k)⟩
      ⟨m.reader.dispose (intKey s) q, m.pending⟩ := by
  have hheap : ∀ {p : Ptr}, p ≠ q →
      (m.reader.dispose (intKey s) q).heap p = m.reader.heap p :=
    fun hp => by simp [hp]
  have hfree : ∀ {p c}, (m.reader.dispose (intKey s) q).heap p = some c →
      m.reader.heap p = some c := by
    intro p c hp
    by_cases hpq : p = q
    · simp [hpq] at hp
    · exact hheap hpq ▸ hp
  have hst : s ≠ t := by
    rintro rfl
    exact hline.irrefl s hnext
  have hrank : ∀ a, (Function.update (Function.update g.phase s .freed) t
      (Phase.held .calling k) a).rank = if a = t then 4 else if a = s then 8 else g.rank a := by
    intro a
    rw [rank_update, rank_update_phase]
    rfl
  exact {
    below := fun hp => h.below (hfree hp)
    home_below := h.home_below
    inj := h.inj
    isTag := h.isTag
    swap_tag := h.swap_tag
    swap_home := h.swap_home
    swap_inj := h.swap_inj
    valid_home := fun hp => h.valid_home (hfree hp)
    valid := fun hp => h.valid (hfree hp)
    keys := fun {key p} hp => by
      by_cases hkey : key = intKey s
      · simp [hkey] at hp
      · exact h.keys (by simpa [hkey] using hp)
    pending := h.pending
    filed := fun {a} ha => by
      by_cases has : a = s
      · subst has
        have hold := h.filed ha
        refine ⟨fun hnone => ?_, fun p hp hlive => ?_, fun p hp _ => ?_, fun p hp _ hall => ?_,
          fun d hd => ?_, fun hw => ?_⟩
        · rw [show g.home a = none from hnone] at hq
          cases hq
        · rw [Ledger.rank, hrank, if_neg hst, if_pos rfl] at hlive
          exact absurd rfl hlive
        · obtain rfl := Option.some.inj (hq.symm.trans hp)
          simp
        · have hle := hall t hnext
          rw [Ledger.rank, hrank, if_pos rfl] at hle
          omega
        · rw [show g.swap a = some d from hd] at hswap
          cases hswap
        · exact absurd (hs.symm.trans (hold.waits hw).1) (by decide)
      · refine (h.filed ha).of_unchanged ⟨rfl, rfl, ?_, fun u hu => ?_, fun p hp => hheap ?_,
          table_update_of_ne has, Iff.rfl⟩
        · rw [Ledger.rank, Ledger.rank, hrank]
          split_ifs with hat
          · rw [hat, ← Ledger.rank, ht]
            exact .inr ⟨by decide, by decide⟩
          · exact .refl _
        · have hut : u ≠ t := fun hut => has (hline.left (hut ▸ hu) hnext)
          rw [Ledger.rank, Ledger.rank, hrank, if_neg hut]
          split_ifs with hus
          · rw [hus, ← Ledger.rank, hs]
            exact ⟨by decide, by decide, by decide⟩
          · exact .refl _
        · rintro rfl
          rcases hp with hp | hp
          · exact has (h.inj hp hq)
          · exact h.swap_home hp hq
    delivered := fun {a} ha => by
      rw [show deliveries (m.reader.dispose (intKey s) q) a = deliveries m.reader a from rfl,
        h.delivered ha, Ledger.rank, Ledger.rank, hrank]
      refine if_congr ?_ rfl rfl
      split_ifs with hat has
      · rw [hat, ← Ledger.rank, ht]
        decide
      · rw [has, ← Ledger.rank, hs]
        decide
      · rfl }

/-- The tag `t` is removed from the table. -/
theorem Kept.remove (h : Kept inits g m) (hline : Line (Next inits)) (hnext : Next inits t u)
    (hu : 4 ≤ g.rank u) : Kept inits g ⟨m.reader.remove (intKey t), m.pending⟩ where
  below := h.below
  home_below := h.home_below
  inj := h.inj
  isTag := h.isTag
  swap_tag := h.swap_tag
  swap_home := h.swap_home
  swap_inj := h.swap_inj
  valid_home := h.valid_home
  valid := h.valid
  keys {key p} hp := by
    by_cases hkey : key = intKey t
    · simp [hkey] at hp
    · exact h.keys (by simpa [hkey] using hp)
  pending := h.pending
  filed {a} ha := by
    by_cases hat : a = t
    · subst hat
      have hold := h.filed ha
      refine ⟨fun hnone => ?_, hold.live, hold.freed, fun q _ _ hall => ?_, fun d hd => ?_,
        hold.waits⟩
      · obtain ⟨hzero, hswap, -, hrest⟩ := hold.fresh hnone
        exact ⟨hzero, hswap, by simp, hrest⟩
      · have hle := hall u hnext
        omega
      · obtain ⟨-, -, v, hv, hone⟩ := hold.swapped d hd
        rw [hline.right hv hnext] at hone
        omega
    · exact (h.filed ha).of_unchanged ⟨rfl, rfl, .refl _, fun _ _ => .refl _, fun _ _ => rfl,
        table_update_of_ne hat, Iff.rfl⟩
  delivered := h.delivered

/-- The buffer of the tag `t` is delivered. -/
theorem Kept.record (h : Kept inits g m) (hb : b.tag = t) (ht : g.rank t = 4) (k : ι) :
    Kept inits ⟨g.home, g.swap, Function.update g.phase t (.held .reading k)⟩
      ⟨m.reader.record (.handled q b), m.pending⟩ where
  below := h.below
  home_below := h.home_below
  inj := h.inj
  isTag := h.isTag
  swap_tag := h.swap_tag
  swap_home := h.swap_home
  swap_inj := h.swap_inj
  valid_home := h.valid_home
  valid := h.valid
  keys := h.keys
  pending := h.pending
  filed {a} ha := by
    have hrank : ∀ c, Steady (g.rank c) (Function.update g.phase t (.held .reading k) c).rank ∧
        Alike (g.rank c) (Function.update g.phase t (.held .reading k) c).rank := by
      intro c
      have hfive : (Function.update g.phase t (.held .reading k) c).rank =
          if c = t then 5 else g.rank c := rank_update_phase g t c _
      rw [hfive]
      split_ifs with hct
      · rw [hct, ht]
        exact ⟨.inr ⟨by decide, by decide⟩, by decide, by decide, by decide⟩
      · exact ⟨.refl _, .refl _⟩
    exact (h.filed ha).of_unchanged ⟨rfl, rfl, (hrank a).1, fun u _ => (hrank u).2,
      fun _ _ => rfl, rfl, Iff.rfl⟩
  delivered {a} ha := by
    have hold := h.delivered ha
    rw [Ledger.rank, rank_update_phase]
    simp only [deliveries, Reader.record, List.countP_append] at *
    rw [hold]
    by_cases hat : a = t
    · subst hat
      simp [ht, hb, Phase.rank]
    · have hne : b.tag ≠ a := fun hba => hat (hba.symm.trans hb)
      simp [hat, hne]

end Cse461.Multiplex.HandOff
