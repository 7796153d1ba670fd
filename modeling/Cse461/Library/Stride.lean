import Mathlib

/-!
# Strides

The multiples of `u`, one after the other, modulo `q`. They meet all residues
equally often if `u` and `q` are coprime (`strideCount_le_succ`), and otherwise
some residue never and another one more than once (`strideCount_one`,
`two_le_strideCount_zero`).
-/

namespace Library

/-- How many of the first `K` multiples of `u` leave the residue `i`. -/
def strideCount (u q K i : ℕ) : ℕ := K.count fun k => k * u % q = i

variable {u q K i j : ℕ}

theorem strideCount_eq_countP (u q K i : ℕ) :
    strideCount u q K i = (List.range K).countP fun k => k * u % q = i := by
  induction K with
  | zero => simp [strideCount]
  | succ K ih =>
    rw [List.range_succ, List.countP_append, ← ih, strideCount, strideCount, Nat.count_succ]
    simp

/-- A stride that is coprime to `q` leaves a residue at the indices of one residue. -/
theorem exists_mul_mod_eq_iff (hq : 0 < q) (hu : u.Coprime q) (hi : i < q) :
    ∃ c, ∀ k, k * u % q = i ↔ k ≡ c [MOD q] := by
  have : NeZero q := ⟨hq.ne'⟩
  have hinv := ZMod.coe_mul_inv_eq_one u hu
  refine ⟨((i : ZMod q) * (u : ZMod q)⁻¹).val, fun k => ?_⟩
  rw [← ZMod.natCast_eq_natCast_iff, ZMod.natCast_val, ZMod.cast_id]
  have hmod : k * u % q = i ↔ (k : ZMod q) * u = i := by
    rw [← Nat.cast_mul, ZMod.natCast_eq_natCast_iff, Nat.ModEq, Nat.mod_eq_of_lt hi]
  rw [hmod]
  constructor
  · intro h
    rw [← h, mul_assoc, hinv, mul_one]
  · intro h
    rw [h, mul_assoc, mul_comm _ (u : ZMod q), hinv, mul_one]

theorem strideCount_le_succ (hq : 0 < q) (hu : u.Coprime q) (hi : i < q) (hj : j < q) :
    strideCount u q K i ≤ strideCount u q K j + 1 := by
  have hcount : ∀ i < q, K / q ≤ strideCount u q K i ∧ strideCount u q K i ≤ K / q + 1 := by
    intro i hi
    obtain ⟨c, hc⟩ := exists_mul_mod_eq_iff hq hu hi
    have hcard := Nat.count_modEq_card K hq c
    simp only [strideCount, hc, hcard]
    split <;> omega
  have := hcount i hi
  have := hcount j hj
  omega

/-- Multiples of `u` are multiples modulo `q` of what `u` and `q` have in common. -/
theorem strideCount_one (hu : ¬u.Coprime q) : strideCount u q K 1 = 0 := by
  have hnone : ∀ k, k * u % q ≠ 1 := by
    intro k hk
    have hdvd : u.gcd q ∣ k * u % q :=
      (Nat.dvd_mod_iff (Nat.gcd_dvd_right u q)).2 ((Nat.gcd_dvd_left u q).mul_left k)
    rw [hk, Nat.dvd_one] at hdvd
    exact hu hdvd
  simp [strideCount, hnone, Nat.count_eq_card_filter_range]

/-- They are back at 0 before `q` steps. -/
theorem two_le_strideCount_zero (hq : 0 < q) (hu : ¬u.Coprime q) (hK : q ≤ K) :
    2 ≤ strideCount u q K 0 := by
  have hg : u.gcd q ≠ 1 := hu
  have hgpos : 0 < u.gcd q := Nat.gcd_pos_of_pos_right u hq
  obtain ⟨v, hv⟩ := Nat.gcd_dvd_left u q
  obtain ⟨P, hP⟩ := Nat.gcd_dvd_right u q
  have hPpos : 0 < P := Nat.pos_of_ne_zero fun h => by simp [h] at hP; omega
  have hPlt : P < q := by
    have : 2 * P ≤ u.gcd q * P := Nat.mul_le_mul_right P (by omega)
    omega
  have hback : P * u % q = 0 := by
    refine Nat.mod_eq_zero_of_dvd ⟨v, ?_⟩
    calc P * u = P * (u.gcd q * v) := by rw [← hv]
      _ = u.gcd q * P * v := by ring
      _ = q * v := by rw [← hP]
  rw [strideCount, Nat.count_eq_card_filter_range]
  have hsub : ({0, P} : Finset ℕ) ⊆ (Finset.range K).filter fun k => k * u % q = 0 := by
    intro k hk
    rw [Finset.mem_insert, Finset.mem_singleton] at hk
    rw [Finset.mem_filter, Finset.mem_range]
    rcases hk with rfl | rfl
    · exact ⟨by omega, by simp⟩
    · exact ⟨by omega, hback⟩
  calc 2 = ({0, P} : Finset ℕ).card := (Finset.card_pair hPpos.ne).symm
    _ ≤ _ := Finset.card_le_card hsub

end Library
