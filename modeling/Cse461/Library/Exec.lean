import Mathlib

/-!
# Weakest preconditions

The programs of an imperative language, run on a state `σ` and either ending
normally or *stopping* with a reason `ε` (an exit, a fault, a divergence), are
the actions of `EStateM ε σ`. `wp x Q E s` says that `x`, run from `s`, ends in
a result `Q` or stops for a reason `E`; in both cases the state it leaves is
part of the outcome, so that what a program did before it stopped can be spoken
about.

* The equations of `wp` on the primitives (`wp_pure`, `wp_bind`, `wp_get`, ...)
  turn the precondition of a straight-line program into one of its state.
* `wp_mono` is the rule of consequence.
* `finalState` is the state a program leaves in either case.
* `wp_forM` is the rule for a loop over a list: an invariant that speaks about
  the elements handled so far.
* `Keeps R x` says that the state which `x` ends in is related to the one which it started
  from by `R`, whatever that was. Programs are put together from such ones.
-/

namespace Library

universe u

variable {ε σ α β : Type u}

/-- Run from `s`, the program `x` ends with `Q` or stops with `E`. -/
def wp (x : EStateM ε σ α) (Q : α → σ → Prop) (E : ε → σ → Prop) (s : σ) : Prop :=
  match x s with
  | .ok a s' => Q a s'
  | .error e s' => E e s'

variable {Q Q' : α → σ → Prop} {E E' : ε → σ → Prop} {s : σ}

@[simp] theorem wp_pure (a : α) : wp (pure a : EStateM ε σ α) Q E s ↔ Q a s := Iff.rfl

@[simp] theorem wp_throw (e : ε) : wp (throw e : EStateM ε σ α) Q E s ↔ E e s := Iff.rfl

@[simp] theorem wp_get {Q : σ → σ → Prop} : wp (get : EStateM ε σ σ) Q E s ↔ Q s s := Iff.rfl

@[simp] theorem wp_set {Q : PUnit → σ → Prop} (s' : σ) :
    wp (set s' : EStateM ε σ PUnit) Q E s ↔ Q ⟨⟩ s' := Iff.rfl

@[simp] theorem wp_modify {Q : PUnit → σ → Prop} (f : σ → σ) :
    wp (modify f : EStateM ε σ PUnit) Q E s ↔ Q ⟨⟩ (f s) := Iff.rfl

@[simp] theorem wp_bind (x : EStateM ε σ α) (f : α → EStateM ε σ β) {Q : β → σ → Prop} :
    wp (x >>= f) Q E s ↔ wp x (fun a s' => wp (f a) Q E s') E s := by
  simp only [wp, bind, EStateM.bind]
  cases x s <;> rfl

@[simp] theorem wp_map (f : α → β) (x : EStateM ε σ α) {Q : β → σ → Prop} :
    wp (f <$> x) Q E s ↔ wp x (fun a s' => Q (f a) s') E s := by
  simp only [wp, Functor.map, EStateM.map]
  cases x s <;> rfl

@[simp] theorem wp_ite {c : Prop} [Decidable c] (x y : EStateM ε σ α) :
    wp (if c then x else y) Q E s ↔ (c → wp x Q E s) ∧ (¬c → wp y Q E s) := by
  by_cases hc : c <;> simp [hc]

/-- The rule of consequence. -/
theorem wp_mono {x : EStateM ε σ α} (hx : wp x Q E s) (hQ : ∀ a s', Q a s' → Q' a s')
    (hE : ∀ e s', E e s' → E' e s') : wp x Q' E' s := by
  unfold wp at *
  cases h : x s with
  | ok a s' => exact hQ a s' (by simpa [h] using hx)
  | error e s' => exact hE e s' (by simpa [h] using hx)

/-- Nothing is asked. -/
theorem wp_trivial {x : EStateM ε σ α} : wp x (fun _ _ => True) (fun _ _ => True) s := by
  unfold wp
  cases x s <;> trivial

/-- What two preconditions promise holds at once. -/
theorem wp_and {x : EStateM ε σ α} (hx : wp x Q E s) (hx' : wp x Q' E' s) :
    wp x (fun a s' => Q a s' ∧ Q' a s') (fun e s' => E e s' ∧ E' e s') s := by
  unfold wp at *
  cases h : x s with
  | ok a s' => exact ⟨by simpa [h] using hx, by simpa [h] using hx'⟩
  | error e s' => exact ⟨by simpa [h] using hx, by simpa [h] using hx'⟩

/-- A program that stops does not end in a result. -/
theorem not_wp_of_wp {x : EStateM ε σ α} (hx : wp x (fun _ _ => False) E s) :
    ¬wp x Q (fun _ _ => False) s := by
  unfold wp at *
  cases h : x s with
  | ok a s' => simp [h] at hx
  | error e s' => simp

/-- A program known to end in a result. -/
theorem wp_of_ok {x : EStateM ε σ α} {a : α} {s' : σ} (hx : x s = .ok a s') :
    wp x Q E s ↔ Q a s' := by
  simp [wp, hx]

/-- A program that never stops ends in a result. -/
theorem ok_of_wp {x : EStateM ε σ α} (hx : wp x Q (fun _ _ => False) s) :
    ∃ a s', x s = .ok a s' ∧ Q a s' := by
  unfold wp at hx
  cases h : x s with
  | ok a s' => exact ⟨a, s', rfl, by simpa [h] using hx⟩
  | error e s' => simp [h] at hx

/-- The state a program leaves, whether it ends or stops. -/
def finalState (x : EStateM ε σ α) (s : σ) : σ :=
  match x s with
  | .ok _ s' => s'
  | .error _ s' => s'

theorem finalState_of_wp {I : σ → Prop} {x : EStateM ε σ α}
    (hx : wp x (fun _ => I) (fun _ => I) s) : I (finalState x s) := by
  unfold wp at hx
  unfold finalState
  cases h : x s with
  | ok a s' => simpa [h] using hx
  | error e s' => simpa [h] using hx

/-- The loop rule: an invariant `I pre` of the elements `pre` handled so far,
    which handling one more element extends, holds of the whole list at the end. -/
theorem wp_forM {f : β → EStateM ε σ PUnit} (I : List β → σ → Prop) {l : List β}
    (hstep : ∀ pre b post, l = pre ++ b :: post → ∀ s, I pre s →
      wp (f b) (fun _ s' => I (pre ++ [b]) s') E s) {s : σ} (hs : I [] s) :
    wp (l.forM f) (fun _ s' => I l s') E s := by
  suffices h : ∀ post pre, l = pre ++ post → ∀ s, I pre s →
      wp (post.forM f) (fun _ s' => I l s') E s from h l [] rfl s hs
  intro post
  induction post with
  | nil =>
    intro pre hl s hs
    have hpre : l = pre := by simpa using hl
    exact hpre ▸ hs
  | cons b post ih =>
    intro pre hl s hs
    change wp (f b >>= fun _ => post.forM f) _ _ _
    rw [wp_bind]
    refine wp_mono (hstep pre b post hl s hs) (fun _ s' hs' => ?_) fun _ _ h => h
    exact ih (pre ++ [b]) (by simp [hl]) s' hs'

/-! ## Relations that are kept -/

/-- If `x` ends, then in a state related to the one that it started from. -/
def Keeps (R : σ → σ → Prop) (x : EStateM ε σ α) : Prop :=
  ∀ s, wp x (fun _ s' => R s s') (fun _ _ => True) s

namespace Keeps

variable {R : σ → σ → Prop} {x y : EStateM ε σ α} {f : α → EStateM ε σ β}

protected theorem pure (hrefl : ∀ s, R s s) (a : α) : Keeps R (pure a : EStateM ε σ α) := hrefl

protected theorem throw (e : ε) : Keeps R (throw e : EStateM ε σ α) := fun _ => trivial

protected theorem bind (htrans : ∀ s s₁ s₂, R s s₁ → R s₁ s₂ → R s s₂) (hx : Keeps R x)
    (hf : ∀ a, Keeps R (f a)) : Keeps R (x >>= f) := by
  intro s
  rw [wp_bind]
  refine wp_mono (hx s) (fun a s₁ hs₁ => ?_) fun _ _ _ => trivial
  exact wp_mono (hf a s₁) (fun _ s₂ hs₂ => htrans s s₁ s₂ hs₁ hs₂) fun _ _ _ => trivial

protected theorem ite {c : Prop} [Decidable c] (hx : c → Keeps R x) (hy : ¬c → Keeps R y) :
    Keeps R (if c then x else y) := by
  by_cases hc : c
  · rw [if_pos hc]
    exact hx hc
  · rw [if_neg hc]
    exact hy hc

end Keeps

end Library
