import Mathlib

/-!
# Rounding to single precision

A `Rounding` is what IEEE 754 promises of every rounding mode, and no more:
rounding is monotone, and it keeps the numbers that have a mantissa of 24 bits.
Arithmetic that is not rounded is one of them (`Rounding.none`), so what holds
for all roundings holds for the rationals, too.

Rounding to the nearest (`Rounding.Nearest`), the mode a program starts in, does
not lift a quotient of two integers over an integer (`Nearest.floor_round_div`).
-/

namespace Library

/-- A rounding of the rationals to numbers with a mantissa of 24 bits, or to
    more numbers than these. -/
structure Rounding where
  /-- What a result is rounded to. -/
  round : ℚ → ℚ
  monotone : Monotone round
  exact {m : ℕ} {e : ℤ} : m ≤ 2 ^ 24 → -100 ≤ e → e ≤ 100 → round (m * 2 ^ e) = m * 2 ^ e

namespace Rounding

/-- No rounding. -/
def none : Rounding where
  round := id
  monotone := monotone_id
  exact _ _ _ := rfl

variable (R : Rounding) {n : ℕ} {x : ℚ}

theorem round_natCast (hn : n ≤ 2 ^ 24) : R.round n = n := by
  simpa using R.exact (e := 0) hn (by norm_num) (by norm_num)

/-- Rounding does not cross a number that has a short mantissa. -/
theorem round_le_natCast (hn : n ≤ 2 ^ 24) (hx : x ≤ n) : R.round x ≤ n :=
  R.round_natCast hn ▸ R.monotone hx

theorem natCast_le_round (hn : n ≤ 2 ^ 24) (hx : n ≤ x) : n ≤ R.round x := by
  have := R.monotone hx
  rwa [R.round_natCast hn] at this

theorem lt_of_lt_round (hn : n ≤ 2 ^ 24) (hx : n < R.round x) : n < x := by
  by_contra h
  exact absurd hx (not_lt.2 (R.round_le_natCast hn (not_lt.1 h)))

/-! ## To the nearest -/

/-- Rounding is to the nearest of the numbers that have a mantissa of 24 bits. -/
def Nearest (R : Rounding) : Prop :=
  ∀ (x : ℚ) (m : ℕ) (e : ℤ), m ≤ 2 ^ 24 → -100 ≤ e → e ≤ 100 →
    |R.round x - x| ≤ |m * 2 ^ e - x|

theorem nearest_none : Rounding.none.Nearest := by
  intro x m e _ _ _
  have hzero : |Rounding.none.round x - x| = 0 := by simp [none]
  rw [hzero]
  exact abs_nonneg _

variable {R}

/-- To the nearest, a number goes up to `b` only if it is no nearer to any `a` below. -/
theorem Nearest.le_of_le_round (hR : R.Nearest) {b : ℚ} {m : ℕ} {e : ℤ} (hm : m ≤ 2 ^ 24)
    (he : -100 ≤ e) (he' : e ≤ 100) (ha : m * 2 ^ e < b) (hx : x < b)
    (hb : b ≤ R.round x) :
    b - x ≤ x - m * 2 ^ e := by
  have hnear := hR x m e hm he he'
  rw [abs_of_pos (by linarith)] at hnear
  rcases le_total (x : ℚ) (m * 2 ^ e) with hle | hle
  · have hmono := R.monotone hle
    rw [R.exact hm he he'] at hmono
    rw [abs_of_nonneg (by linarith)] at hnear
    linarith
  · rw [abs_of_nonpos (by linarith)] at hnear
    linarith

/-- The same for a number that goes down to `b`. -/
theorem Nearest.le_of_round_le (hR : R.Nearest) {b : ℚ} {m : ℕ} {e : ℤ} (hm : m ≤ 2 ^ 24)
    (he : -100 ≤ e) (he' : e ≤ 100) (ha : b < m * 2 ^ e) (hx : b < x)
    (hb : R.round x ≤ b) :
    x - b ≤ m * 2 ^ e - x := by
  have hnear := hR x m e hm he he'
  rw [abs_of_neg (by linarith)] at hnear
  rcases le_total (m * 2 ^ e : ℚ) x with hle | hle
  · have hmono := R.monotone hle
    rw [R.exact hm he he'] at hmono
    rw [abs_of_nonpos (by linarith)] at hnear
    linarith
  · rw [abs_of_nonneg (by linarith)] at hnear
    linarith


/-- The one quotient that is half way to the integer above is a number that has a
    mantissa of 24 bits. -/
theorem eq_of_half_way {m D P : ℕ} (hn : n < 2 ^ 24) (hD : 0 < D) (hm : n < m * D)
    (hP : 2 ^ 24 ≤ P * m) (h : P * (m * D - n) ≤ D) : n = 2 ^ 24 - 1 ∧ D = P := by
  obtain ⟨j, hj⟩ : ∃ j, m * D = n + 1 + j := ⟨m * D - n - 1, by omega⟩
  have hjn : m * D - n = j + 1 := by omega
  rw [hjn] at h
  have hPD : P ≤ D := le_trans (Nat.le_mul_of_pos_right _ (by omega)) h
  -- `(P * m - 1) * D ≤ P * n ≤ P * (2 ^ 24 - 1) ≤ P * (P * m - 1) ≤ (P * m - 1) * D`.
  obtain ⟨M, hM⟩ : ∃ M, P * m = M + 1 := ⟨P * m - 1, by omega⟩
  have h₁ : M * D ≤ P * n := by
    have : (M + 1) * D = P * n + P * (j + 1) := by
      rw [← hM, Nat.mul_assoc, hj]
      ring
    nlinarith
  have h₂ : P * n ≤ P * M := Nat.mul_le_mul_left _ (by omega)
  have h₃ : D = P := by
    refine le_antisymm ?_ hPD
    refine Nat.le_of_mul_le_mul_left (c := M) ?_ (by omega)
    rw [Nat.mul_comm M P]
    exact h₁.trans h₂
  subst h₃
  have h₄ : M ≤ n := Nat.le_of_mul_le_mul_left (by rwa [Nat.mul_comm D M]) hD
  exact ⟨by omega, rfl⟩

/-- A short number is brought to 24 bits by a power of 2. -/
theorem exists_mul_two_pow {m : ℕ} (hm : m ≠ 0) (hm' : m ≤ 2 ^ 23) :
    ∃ t ≤ 23, 2 ^ 23 ≤ m * 2 ^ t ∧ m * 2 ^ t ≤ 2 ^ 24 := by
  have hlog : Nat.log2 m < 24 := (Nat.log2_lt hm).2 (by omega)
  have hself := Nat.log2_self_le hm
  have hself' := Nat.lt_log2_self (n := m)
  refine ⟨23 - Nat.log2 m, by omega, ?_, ?_⟩
  · calc 2 ^ 23 = 2 ^ Nat.log2 m * 2 ^ (23 - Nat.log2 m) := by rw [← pow_add]; congr 1; omega
      _ ≤ m * 2 ^ (23 - Nat.log2 m) := Nat.mul_le_mul_right _ hself
  · calc m * 2 ^ (23 - Nat.log2 m)
        ≤ 2 ^ (Nat.log2 m + 1) * 2 ^ (23 - Nat.log2 m) := Nat.mul_le_mul_right _ hself'.le
      _ = 2 ^ 24 := by rw [← pow_add]; congr 1; omega

/-- A quotient below an integer is not rounded up to it. -/
theorem Nearest.round_div_lt (hR : R.Nearest) {D : ℕ} (hn : n < 2 ^ 24) (hD : 0 < D) :
    R.round (n / D) < (n / D + 1 : ℕ) := by
  have hD' : (0 : ℚ) < D := by exact_mod_cast hD
  obtain ⟨m, hm⟩ : ∃ m, m = n / D + 1 := ⟨_, rfl⟩
  rw [← hm]
  have hmD : n < m * D := by
    rw [hm, Nat.mul_comm]
    exact Nat.lt_mul_div_succ n hD
  have hlt : (n : ℚ) / D < m := by
    rw [div_lt_iff₀ hD']
    exact_mod_cast hmD
  by_cases hone : D = 1
  · subst hone
    rw [Nat.cast_one, div_one] at hlt ⊢
    rwa [R.round_natCast hn.le]
  by_contra hle
  rw [not_lt] at hle
  have hm' : m ≤ 2 ^ 23 := by
    have : n / D ≤ n / 2 := Nat.div_le_div_left (by omega) (by norm_num)
    omega
  obtain ⟨t, ht, hmt, hmt'⟩ := exists_mul_two_pow (hm ▸ Nat.succ_ne_zero _) hm'
  have hT : (0 : ℚ) < 2 ^ t := by positivity
  -- The number below `m` is nearer, unless the quotient is half way between the two.
  have hbelow : (((m * 2 ^ t - 1 : ℕ) : ℚ) * (2 : ℚ) ^ (-(t : ℤ))) = m - 1 / 2 ^ t := by
    rw [Nat.cast_sub (by omega), zpow_neg, zpow_natCast]
    push_cast
    field_simp
  have hnear := hR.le_of_le_round (b := m) (m := m * 2 ^ t - 1) (e := -(t : ℤ)) (by omega)
    (by omega) (by omega) (by rw [hbelow]; have : (0 : ℚ) < 1 / 2 ^ t := by positivity
                              linarith) hlt hle
  rw [hbelow] at hnear
  have hhalf : 2 ^ (t + 1) * (m * D - n) ≤ D := by
    have hq : (2 : ℚ) ^ (t + 1) * (m * D - n) ≤ D := by
      have h₁ : (m : ℚ) - n / D = (m * D - n) / D := by field_simp
      have h₂ : ((m : ℚ) * D - n) / D * 2 ≤ 1 / 2 ^ t := by linarith
      rw [div_mul_eq_mul_div, div_le_div_iff₀ hD' hT] at h₂
      rw [pow_succ]
      linarith
    have : ((m * D - n : ℕ) : ℚ) = (m : ℚ) * D - n := by
      rw [Nat.cast_sub hmD.le]
      push_cast
      ring
    rw [← this] at hq
    exact_mod_cast hq
  have hfull : 2 ^ 24 ≤ 2 ^ (t + 1) * m := by
    have : 2 ^ (t + 1) * m = 2 * (m * 2 ^ t) := by ring
    omega
  obtain ⟨_, rfl⟩ := eq_of_half_way hn hD hmD hfull hhalf
  have hexact : (n : ℚ) / (2 ^ (t + 1) : ℕ) = (n : ℕ) * (2 : ℚ) ^ (-(t + 1 : ℤ)) := by
    rw [zpow_neg, div_eq_mul_inv]
    norm_cast
  rw [hexact] at hlt hle
  rw [R.exact hn.le (by omega) (by omega)] at hle
  linarith

/-- A quotient is rounded to the integer below it. -/
theorem Nearest.floor_round_div (hR : R.Nearest) {D : ℕ} (hn : n < 2 ^ 24) (hD : 0 < D) :
    ⌊R.round (n / D)⌋₊ = n / D := by
  have hle : ((n / D : ℕ) : ℚ) ≤ R.round (n / D) :=
    R.natCast_le_round ((Nat.div_le_self n D).trans hn.le) Nat.cast_div_le
  rw [Nat.floor_eq_iff (le_trans (by positivity) hle)]
  exact ⟨hle, by exact_mod_cast hR.round_div_lt hn hD⟩

/-- A quotient that is more than `2 ^ 14` is not rounded down to it. -/
theorem Nearest.lt_round_div_iff (hR : R.Nearest) {D : ℕ} (hn : n < 2 ^ 24) (hD : 0 < D) :
    2 ^ 14 < R.round (n / D) ↔ 2 ^ 14 * D < n := by
  have hD' : (0 : ℚ) < D := by exact_mod_cast hD
  have hiff : (2 ^ 14 : ℚ) < n / D ↔ 2 ^ 14 * D < n := by
    rw [lt_div_iff₀ hD']
    norm_cast
  constructor
  · intro h
    rw [← hiff]
    exact_mod_cast R.lt_of_lt_round (n := 2 ^ 14) (by norm_num) (by exact_mod_cast h)
  · intro h
    by_contra hle
    have hnear := hR.le_of_round_le (b := 2 ^ 14) (m := 2 ^ 23 + 1) (e := -9) (by norm_num)
      (by norm_num) (by norm_num) (by norm_num) (hiff.2 h) (not_lt.1 hle)
    have hD'' : D < 2 ^ 10 := by omega
    have hgap : (2 ^ 14 : ℚ) + 1 / D ≤ n / D := by
      rw [← sub_nonneg]
      have hn' : (2 ^ 14 * D + 1 : ℚ) ≤ n := by exact_mod_cast h
      have : (n : ℚ) / D - (2 ^ 14 + 1 / D) = (n - (2 ^ 14 * D + 1)) / D := by field_simp
      rw [this]
      exact div_nonneg (by linarith) hD'.le
    have hsmall : (1 : ℚ) / 2 ^ 10 < 1 / D := by
      rw [div_lt_div_iff₀ (by norm_num) hD']
      have : (D : ℚ) < 2 ^ 10 := by exact_mod_cast hD''
      linarith
    norm_num at hnear hsmall hgap ⊢
    linarith

end Rounding

end Library
