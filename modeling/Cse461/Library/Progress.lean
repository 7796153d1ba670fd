import Cse461.Library.Transition

/-!
# Progress

A system is driven from outside: some of its actions cost something, the others are its
own. What the outside pays in is spent step by step (`System.Spends`): every step takes
away one from a measure of the state, after its cost is added.

* A run has at most as many steps as the measure of its first state and the costs in it
  add up to (`System.Spends.length_le`).
* From any state, the system comes to rest after finitely many of its own steps
  (`System.Spends.exists_rest`): into a state in which it has none left.

What is left to show of a system is where it can rest.
-/

namespace Library.System

variable {σ α : Type*}

/-- Every step spends one of what `μ` measures, and the costs. -/
def Spends (S : System σ α) (cost : α → ℕ) (μ : σ → ℕ) : Prop :=
  ∀ s a s', S.step s a = some s' → μ s' < μ s + cost a

/-- The system has no step of its own. -/
def Rests (S : System σ α) (cost : α → ℕ) (s : σ) : Prop :=
  ∀ a, cost a = 0 → S.step s a = none

variable {S : System σ α} {cost : α → ℕ} {μ : σ → ℕ} {s s' : σ} {l : List α}

theorem Spends.restrict {G : σ → α → Prop} [∀ s a, Decidable (G s a)] (h : S.Spends cost μ) :
    (S.restrict G).Spends cost μ :=
  fun s a s' hs => h s a s' (restrict_step_eq_some.1 hs).2

/-- A run is as long as it is paid for, at most. -/
theorem Spends.length_le (h : S.Spends cost μ) (hrun : S.exec s l = some s') :
    l.length + μ s' ≤ μ s + (l.map cost).sum := by
  induction l generalizing s with
  | nil =>
    obtain rfl := Option.some.inj hrun
    simp
  | cons a l ih =>
    obtain ⟨s₁, hstep, hrun⟩ := Option.bind_eq_some_iff.1 hrun
    have hlt := h s a s₁ hstep
    have hle := ih hrun
    rw [List.length_cons, List.map_cons, List.sum_cons]
    omega

/-- The system comes to rest, if it is left alone. -/
theorem Spends.exists_rest (h : S.Spends cost μ) (s : σ) :
    ∃ l s', (∀ a ∈ l, cost a = 0) ∧ S.exec s l = some s' ∧ S.Rests cost s' := by
  induction hn : μ s using Nat.strongRecOn generalizing s with
  | ind n ih =>
    by_cases hrest : S.Rests cost s
    · exact ⟨[], s, by simp, rfl, hrest⟩
    · -- There is a step left, and less to spend after it.
      rw [Rests] at hrest
      push Not at hrest
      obtain ⟨a, ha, hstep⟩ := hrest
      obtain ⟨s₁, hs₁⟩ := Option.ne_none_iff_exists'.1 hstep
      have hlt := h s a s₁ hs₁
      obtain ⟨l, s', hl, hrun, hs'⟩ := ih (μ s₁) (by omega) s₁ rfl
      refine ⟨a :: l, s', ?_, ?_, hs'⟩
      · simpa [ha] using hl
      · rw [System.exec, hs₁]
        exact hrun

/-- A system all of whose runs can be brought to rest in `Q`. -/
theorem Spends.exists_settled {Q : σ → Prop} (h : S.Spends cost μ) (hs : S.Reachable s)
    (hrest : ∀ s, S.Reachable s → S.Rests cost s → Q s) :
    ∃ l s', (∀ a ∈ l, cost a = 0) ∧ S.exec s l = some s' ∧ Q s' := by
  obtain ⟨l, s', hl, hrun, hs'⟩ := h.exists_rest s
  exact ⟨l, s', hl, hrun, hrest s' (hs.exec hrun) hs'⟩

end Library.System
