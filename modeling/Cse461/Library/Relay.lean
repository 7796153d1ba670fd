import Mathlib

/-!
# Relays

Jobs are done one after the other along a line, by threads that hand them over to each other.
Each job is in a phase, of which there are those that a thread holds it in. A thread that has
prepared a job either leaves it to the one that does the job before (`Move.tell`), or takes it
up where that is done already (`Move.take`).

* The phase of a job only goes up (`Move.rank_le`), so that no job is done twice.
* The phases of two jobs in a row fit together (`InStep`, `Move.inStep`): a job that is left to
  the thread of the one before is one that this thread has still to look for. So none is lost.
* What a thread holds is not changed by others (`Move.held_iff`).
-/

namespace Library.Relay

variable {τ ι : Type*}

/-- What a thread that holds a job is about to do with it. -/
inductive Kind
  | early
  | passing
  | calling
  | reading
  | finishing
  deriving DecidableEq

/-- The phases of a job. -/
inductive Phase (ι : Type*)
  | waiting
  | linked
  | sent
  | freed
  | held (k : Kind) (i : ι)

/-- The order of the phases. -/
def Phase.rank : Phase ι → ℕ
  | waiting => 0
  | held .early _ => 1
  | linked => 2
  | held .passing _ => 3
  | held .calling _ => 4
  | held .reading _ => 5
  | held .finishing _ => 6
  | sent => 7
  | freed => 8

theorem Phase.rank_eq_seven {p : Phase ι} : p.rank = 7 ↔ p = .sent := by
  rcases p with _ | _ | _ | _ | ⟨_ | _ | _ | _ | _, i⟩ <;> simp [rank]

theorem Phase.rank_eq_eight {p : Phase ι} : p.rank = 8 ↔ p = .freed := by
  rcases p with _ | _ | _ | _ | ⟨_ | _ | _ | _ | _, i⟩ <;> simp [rank]

theorem Phase.rank_eq_two {p : Phase ι} : p.rank = 2 ↔ p = .linked := by
  rcases p with _ | _ | _ | _ | ⟨_ | _ | _ | _ | _, i⟩ <;> simp [rank]

theorem Phase.rank_eq_zero {p : Phase ι} : p.rank = 0 ↔ p = .waiting := by
  rcases p with _ | _ | _ | _ | ⟨_ | _ | _ | _ | _, i⟩ <;> simp [rank]

/-- Each job has at most one before it and one after it, and is not next to itself. -/
structure Line (Next : τ → τ → Prop) : Prop where
  left : ∀ {s s' t}, Next s t → Next s' t → s = s'
  right : ∀ {s t t'}, Next s t → Next s t' → t = t'
  irrefl : ∀ t, ¬Next t t

/-- The job after `t` is not left to anyone, or done. -/
def Cleared (Next : τ → τ → Prop) (φ : τ → Phase ι) (t : τ) : Prop :=
  ∀ u, Next t u → (φ u).rank ≤ 1 ∨ 7 ≤ (φ u).rank

/-- The moves of the thread `j`. -/
inductive Move [DecidableEq τ] (Next : τ → τ → Prop) (j : ι) (φ : τ → Phase ι) :
    (τ → Phase ι) → Prop
  | stay : Move Next j φ φ
  | prepare {t : τ} : φ t = .waiting → Move Next j φ (Function.update φ t (.held .early j))
  | first {t : τ} : φ t = .held .early j → (∀ s, ¬Next s t) →
      Move Next j φ (Function.update φ t (.held .calling j))
  | tell {s t : τ} : φ t = .held .early j → Next s t → (φ s).rank ≤ 5 →
      Move Next j φ (Function.update φ t .linked)
  | take {s t : τ} : φ t = .held .early j → Next s t → φ s = .sent →
      Move Next j φ (Function.update (Function.update φ s .freed) t (.held .calling j))
  | call {t : τ} : φ t = .held .calling j →
      Move Next j φ (Function.update φ t (.held .reading j))
  | readNone {t : τ} : φ t = .held .reading j → (∀ u, Next t u → (φ u).rank ≤ 1) →
      Move Next j φ (Function.update φ t (.held .finishing j))
  | readNext {t u : τ} : φ t = .held .reading j → Next t u → φ u = .linked →
      Move Next j φ (Function.update (Function.update φ t (.held .finishing j)) u
        (.held .passing j))
  | pass {u : τ} : φ u = .held .passing j →
      Move Next j φ (Function.update φ u (.held .calling j))
  | send {t : τ} : φ t = .held .finishing j → Cleared Next φ t →
      Move Next j φ (Function.update φ t .sent)

/-- How far a job is, and the next one. -/
def Link (m n : ℕ) : Prop :=
  n ≤ 1 ∧ m ≤ 7 ∨ n = 2 ∧ m ≤ 5 ∨ n = 3 ∧ m = 6 ∨ (4 ≤ n ∧ n ≤ 6) ∧ (m = 6 ∨ m = 8) ∨
    7 ≤ n ∧ 6 ≤ m

/-- Two jobs in a row are in step. -/
def InStep (Next : τ → τ → Prop) (φ : τ → Phase ι) : Prop :=
  ∀ s t, Next s t → Link (φ s).rank (φ t).rank

section

variable [DecidableEq τ] {Next : τ → τ → Prop} {j j' : ι} {φ φ' : τ → Phase ι} {s t u : τ}

theorem rank_update (φ : τ → Phase ι) (t u : τ) (p : Phase ι) :
    (Function.update φ t p u).rank = if u = t then p.rank else (φ u).rank := by
  rw [Function.update_apply]
  split <;> rfl

theorem Move.rank_le (h : Move Next j φ φ') (t : τ) : (φ t).rank ≤ (φ' t).rank := by
  cases h with
  | stay => exact le_rfl
  | _ =>
    simp only [rank_update]
    split_ifs <;> simp [*, Phase.rank]

/-- Other threads hold what they held. -/
theorem Move.held_iff (h : Move Next j φ φ') (hj : j' ≠ j) (t : τ) (k : Kind) :
    φ' t = .held k j' ↔ φ t = .held k j' := by
  cases h with
  | stay => rfl
  | _ =>
    simp only [Function.update_apply]
    split_ifs <;> simp [*, hj.symm]

/-- Only a job that comes after another one is left to a thread. -/
theorem Move.linked (h : Move Next j φ φ') (ht : φ' t = .linked) :
    φ t = .linked ∨ ∃ s, Next s t := by
  cases h with
  | stay => exact .inl ht
  | tell _ hnext _ =>
    simp only [Function.update_apply] at ht
    split_ifs at ht with h
    · exact .inr ⟨_, h ▸ hnext⟩
    · exact .inl ht
  | _ =>
    simp only [Function.update_apply] at ht
    split_ifs at ht
    exact .inl ht

/-- A job is freed by the thread that prepared the next one. -/
theorem Move.freed (h : Move Next j φ φ') (hs : φ' s = .freed) :
    φ s = .freed ∨ ∃ t, Next s t ∧ φ t = .held .early j := by
  cases h with
  | stay => exact .inl hs
  | take ht hnext hsent =>
    simp only [Function.update_apply] at hs
    split_ifs at hs with h₁ h₂
    · exact .inr ⟨_, h₂ ▸ hnext, ht⟩
    · exact .inl hs
  | _ =>
    simp only [Function.update_apply] at hs
    split_ifs at hs
    exact .inl hs

/-- A job is done as long as the next one is not prepared. -/
theorem Move.sent (h : Move Next j φ φ') (hs : φ s = .sent) :
    φ' s = .sent ∨ ∃ t, Next s t ∧ φ t = .held .early j := by
  have hle := h.rank_le s
  cases hφ : φ' s with
  | sent => exact .inl rfl
  | freed =>
    rcases h.freed hφ with hfreed | hnext
    · rw [hs] at hfreed
      cases hfreed
    · exact .inr hnext
  | waiting | linked =>
    rw [hs, hφ] at hle
    exact absurd hle (by simp [Phase.rank])
  | held k i =>
    rw [hs, hφ] at hle
    cases k <;> exact absurd hle (by simp [Phase.rank])

/-- After a thread has looked for the next job, that one is not left to it. -/
theorem Move.cleared (hline : Line Next) (h : Move Next j φ φ') (ht : (φ t).rank = 6)
    (hcleared : Cleared Next φ t) : Cleared Next φ' t := by
  intro u hu
  have hle := hcleared u hu
  cases h with
  | stay => exact hle
  | prepare hφ | send hφ _ =>
    rw [rank_update]
    split_ifs with h
    · simp [Phase.rank]
    · exact hle
  | first hφ hnone =>
    rw [rank_update, if_neg]
    · exact hle
    · rintro rfl
      exact hnone t hu
  | tell hφ hnext hbefore =>
    rw [rank_update, if_neg]
    · exact hle
    · rintro rfl
      rw [hline.left hu hnext] at ht
      omega
  | take hφ hnext hsent =>
    rw [rank_update, if_neg, rank_update]
    · split_ifs
      · simp [Phase.rank]
      · exact hle
    · rintro rfl
      rw [hline.left hu hnext, hsent] at ht
      cases ht
  | call hφ | readNone hφ _ | pass hφ =>
    rw [rank_update, if_neg]
    · exact hle
    · rintro rfl
      simp [hφ, Phase.rank] at hle
  | readNext hφ hnext hlinked =>
    rw [rank_update, if_neg, rank_update, if_neg]
    · exact hle
    · rintro rfl
      simp [hφ, Phase.rank] at hle
    · rintro rfl
      simp [hlinked, Phase.rank] at hle

theorem inStep_update {p : Phase ι} {n : ℕ} (hp : p.rank = n) (hline : Line Next)
    (hother : ∀ a b, a ≠ t → b ≠ t → Next a b → Link (φ a).rank (φ b).rank)
    (hbefore : ∀ s, Next s t → Link (φ s).rank n) (hafter : ∀ u, Next t u → Link n (φ u).rank) :
    InStep Next (Function.update φ t p) := by
  intro a b hab
  rw [rank_update, rank_update, hp]
  by_cases ha : a = t
  · have hb : b ≠ t := by
      rintro rfl
      exact hline.irrefl a (ha ▸ hab)
    rw [if_pos ha, if_neg hb]
    exact hafter b (ha ▸ hab)
  · rw [if_neg ha]
    split_ifs with hb
    · exact hbefore a (hb ▸ hab)
    · exact hother a b ha hb hab

/-- A job goes on, and stays in step with those around it. -/
theorem InStep.update {p : Phase ι} {m n : ℕ} (hline : Line Next) (hstep : InStep Next φ)
    (hm : (φ t).rank = m) (hp : p.rank = n) (hbefore : ∀ k, Link k m → Link k n)
    (hafter : ∀ u, Next t u → Link m (φ u).rank → Link n (φ u).rank) :
    InStep Next (Function.update φ t p) :=
  inStep_update hp hline (fun a b _ _ hab => hstep a b hab)
    (fun s hs => hbefore _ (hm ▸ hstep s t hs)) fun u hu => hafter u hu (hm ▸ hstep t u hu)

/-- Jobs in a row stay in step. -/
theorem Move.inStep (hline : Line Next) (h : Move Next j φ φ') (hstep : InStep Next φ) :
    InStep Next φ' := by
  have hrank : ∀ {t p n}, φ t = p → p.rank = n → (φ t).rank = n := fun hφ hp => hφ ▸ hp
  cases h with
  | stay => exact hstep
  | prepare hφ =>
    exact hstep.update (m := 0) (n := 1) hline (hrank hφ rfl) rfl (by unfold Link; omega)
      fun u _ => by unfold Link; omega
  | first hφ hnone =>
    refine inStep_update (n := 4) rfl hline (fun a b _ _ hab => hstep a b hab)
      (fun s hs => absurd hs (hnone s)) fun u hu => ?_
    have hlink := hstep _ u hu
    rw [hrank (n := 1) hφ rfl] at hlink
    unfold Link at *
    omega
  | @tell s t hφ hnext hbefore =>
    refine inStep_update (n := 2) rfl hline (fun a b _ _ hab => hstep a b hab) (fun s' hs => ?_)
      fun u hu => ?_
    · exact .inr (.inl ⟨rfl, hline.left hs hnext ▸ hbefore⟩)
    · have hlink := hstep _ u hu
      rw [hrank (n := 1) hφ rfl] at hlink
      unfold Link at *
      omega
  | @take s t hφ hnext hsent =>
    refine inStep_update (n := 4) rfl hline (fun a b _ hb hab => ?_) (fun a ha => ?_)
      fun u hu => ?_
    · have hlink := hstep a b hab
      rw [rank_update, rank_update, if_neg]
      · split_ifs with hbs
        · rw [hbs, hrank (n := 7) hsent rfl] at hlink
          change Link (φ a).rank 8
          unfold Link at *
          omega
        · exact hlink
      · rintro rfl
        exact hb (hline.right hab hnext)
    · rw [hline.left ha hnext, Function.update_self]
      exact .inr (.inr (.inr (.inl ⟨by decide, .inr rfl⟩)))
    · have hlink := hstep _ u hu
      rw [hrank (n := 1) hφ rfl] at hlink
      rw [rank_update, if_neg]
      · unfold Link at *
        omega
      · rintro rfl
        rw [hrank (n := 7) hsent rfl] at hlink
        unfold Link at hlink
        omega
  | call hφ =>
    exact hstep.update (m := 4) (n := 5) hline (hrank hφ rfl) rfl (by unfold Link; omega)
      fun u _ => by unfold Link; omega
  | readNone hφ hnone =>
    refine hstep.update (m := 5) (n := 6) hline (hrank hφ rfl) rfl (by unfold Link; omega)
      fun u hu _ => ?_
    have hle := hnone u hu
    unfold Link
    omega
  | @readNext t u hφ hnext hlinked =>
    refine inStep_update (n := 3) rfl hline (fun a b ha hb hab => ?_) (fun a ha => ?_)
      fun v hv => ?_
    · have hlink := hstep a b hab
      rw [rank_update, rank_update, if_neg]
      · split_ifs with hbt
        · rw [hbt, hrank (n := 5) hφ rfl] at hlink
          change Link (φ a).rank 6
          unfold Link at *
          omega
        · exact hlink
      · rintro rfl
        exact hb (hline.right hab hnext)
    · rw [hline.left ha hnext, Function.update_self]
      exact .inr (.inr (.inl ⟨rfl, rfl⟩))
    · have hlink := hstep u v hv
      rw [hrank (n := 2) hlinked rfl] at hlink
      rw [rank_update, if_neg]
      · unfold Link at *
        omega
      · rintro rfl
        rw [hrank (n := 5) hφ rfl] at hlink
        unfold Link at hlink
        omega
  | pass hφ =>
    exact hstep.update (m := 3) (n := 4) hline (hrank hφ rfl) rfl (by unfold Link; omega)
      fun u _ => by unfold Link; omega
  | send hφ hcleared =>
    refine hstep.update (m := 6) (n := 7) hline (hrank hφ rfl) rfl (by unfold Link; omega)
      fun u hu _ => ?_
    have hle := hcleared u hu
    unfold Link
    omega

end

end Library.Relay
